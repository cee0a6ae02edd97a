import KimixNative.Lib.Search
import KimixNative.Lib.Substitution
import KimixNative.Lib.Words
import KimixNative.Text.Utf8

/-!
# Hardline commands

`detect_hardline_command` looks for commands that are never run. It collapses the blanks of
the command, lowers it and tries seven rules in order. The functions that scan a text from a
position are given the rest of the text from there, and whether the byte before it is a word
byte; a match is passed by counting down its bytes.
-/

namespace KimixNative.Tools.ShellSafety

open Text (ascii)

/-! ## Character classes -/

def isSpace (c : Byte) : Bool :=
  c == 0x20 || c == 0x09 || c == 0x0A || c == 0x0D || c == 0x0C || c == 0x0B

/-- ASCII `\w`. -/
def isWord (c : Byte) : Bool :=
  (0x61 ≤ c && c ≤ 0x7A) || (0x41 ≤ c && c ≤ 0x5A) || (0x30 ≤ c && c ≤ 0x39) || c == 0x5F

def isAlpha (c : Byte) : Bool := (0x61 ≤ c && c ≤ 0x7A) || (0x41 ≤ c && c ≤ 0x5A)

def lowerAscii (c : Byte) : Byte := if 0x41 ≤ c ∧ c ≤ 0x5A then c + 32 else c

/-- `match_lit` at the front of a text, with the default `ci`. -/
def matchLit (text lit : Bytes) : Bool := lit.isPrefixOf text

/-- The words of the command with one space between them, in lower case. -/
def collapseLower (s : Bytes) : Bytes := unwords 0x20 ((words isSpace s).map (List.map lowerAscii))

/-- A byte in front of which the text is cut, given what comes after it. -/
def splitsSegment (c : Byte) (rest : Bytes) : Bool :=
  c == 0x3B || c == 0x7C || c == 0x0A || (c == 0x26 && rest.head? == some 0x26)

def segmentSplitPos : Bytes → Nat
  | [] => 0
  | c :: rest => if splitsSegment c rest then 0 else segmentSplitPos rest + 1

/-- The text up to the split position. -/
def segment (text : Bytes) : Bytes := text.take (segmentSplitPos text)

@[simp] theorem segment_nil : segment [] = [] := rfl

theorem segment_cons (c : Byte) (rest : Bytes) :
    segment (c :: rest) = if splitsSegment c rest then [] else c :: segment rest := by
  rw [segment, segmentSplitPos]
  split
  · rfl
  · rw [List.take_succ_cons, segment]

def segmentTokens (text : Bytes) : List Bytes := words isSpace (segment text)

/-! ## Tokens -/

def looksLikeFlag : Bytes → Bool
  | c :: d :: rest => c == 0x2D || (c == 0x2F && (d :: rest).all isAlpha)
  | _ => false

/-- The entry of a flag after `collect_flags`. -/
def collectFlags (tokens : List Bytes) (flag : Byte) : Bool :=
  tokens.any fun token =>
    looksLikeFlag token &&
      (let core := token.dropWhile fun c => c == 0x2D || c == 0x2F
      (flag == 0x72 && (firstOccurrence (ascii "recursive") core).isSome) ||
        (flag == 0x66 && (firstOccurrence (ascii "force") core).isSome) ||
        ((flag == 0x72 || flag == 0x66 || flag == 0x73 || flag == 0x71) && core.contains flag))

def stripView (s : Bytes) : Bytes := (s.dropWhile isSpace).rdropWhile isSpace

def isQuote (c : Byte) : Bool := c == 0x27 || c == 0x22

/-- `t` of `rm_target_is_protected`. -/
def protectedForm (target : Bytes) : Bytes :=
  replaceAll (ascii "$\x7bhome\x7d") (ascii "$home")
    ((((stripView target).dropWhile isQuote).rdropWhile isQuote).map lowerAscii)

def isSep (c : Byte) : Bool := c == 0x5C || c == 0x2F

/-- `^[a-z]:[\\/]?(?:[\\/]?\*)?$`. -/
def isDriveRoot : Bytes → Bool
  | drive :: 0x3A :: suf =>
    (0x61 ≤ drive && drive ≤ 0x7A) &&
      match suf with
      | [] => true
      | [x] => x == 0x2A || isSep x
      | [x, y] => isSep x && y == 0x2A
      | [x, y, z] => isSep x && isSep y && z == 0x2A
      | _ => false
  | _ => false

/-- The components of a path between its slashes. -/
def components (path : Bytes) : List Bytes := path.splitOn 0x2F

def isDots (part : Bytes) : Bool := part == [] || part == [0x2E] || part == [0x2E, 0x2E]

/-- A path whose components are filtered down to nothing or to a star. -/
def isRootSpelling : Bytes → Bool
  | 0x2F :: rest =>
    let parts := (components rest).filter fun part => !isDots part
    parts == [] || parts == [[0x2A]]
  | _ => false

def rmTargetIsProtected (target : Bytes) : Bool :=
  let t := protectedForm target
  let stripped := t.rdropWhile isSep
  stripped == [0x7E] || stripped == ascii "$home" || isDriveRoot t || isRootSpelling t

/-! ## Rule words -/

/-- Where a word ends, with `.exe` or without. -/
def endOfWord (word text : Bytes) : Nat :=
  if matchLit (text.drop word.length) (ascii ".exe") then word.length + 4 else word.length

/-- The end of a rule word at the front of a text; no word byte may follow. -/
def tryWord (word text : Bytes) : Option Nat :=
  if matchLit text word ∧ (text.drop (endOfWord word text)).head?.any isWord = false then
    some (endOfWord word text)
  else none

/-- The first of several rule words at the front of a text, and its end. -/
def matchWord (ruleWords : List Bytes) (text : Bytes) : Option (Bytes × Nat) :=
  ruleWords.findSome? fun word => (tryWord word text).map fun after => (word, after)

/-- The loop over the matches of a rule word, up to the first one at whose tokens `on` stops.
`behindWord` tells whether the byte before the text is a word byte, `skip` how many bytes of
the last match are left. -/
def eachWordWithExe (ruleWords : List Bytes) (on : Bytes → List Bytes → Option Bytes) :
    (behindWord : Bool) → (skip : Nat) → Bytes → Option Bytes
  | _, _, [] => none
  | _, skip + 1, c :: rest => eachWordWithExe ruleWords on (isWord c) skip rest
  | true, 0, c :: rest => eachWordWithExe ruleWords on (isWord c) 0 rest
  | false, 0, c :: rest =>
    match matchWord ruleWords (c :: rest) with
    | none => eachWordWithExe ruleWords on (isWord c) 0 rest
    | some (word, after) =>
      (on word (segmentTokens ((c :: rest).drop after))).or
        (eachWordWithExe ruleWords on (isWord c) (after - 1) rest)

/-! ## Recursive delete -/

def wordRm : Bytes := ascii "rm"
def wordRmdir : Bytes := ascii "rmdir"
def wordDel : Bytes := ascii "del"

def deleteWords : List Bytes := [wordRm, wordRmdir, wordDel]

def armed (cmd : Bytes) (flags : Byte → Bool) : Bool :=
  if cmd = wordRm then flags 0x72 || flags 0x66
  else if cmd = wordRmdir then flags 0x72 || flags 0x73
  else flags 0x72 || flags 0x66 || flags 0x73

def deleteMessage (token : Bytes) : Bytes :=
  ascii "Recursive delete of protected root/home (`" ++ token ++ ascii "`)"

def deleteTarget (cmd : Bytes) (tokens : List Bytes) : Option Bytes :=
  if armed cmd (collectFlags tokens) then
    tokens.findSome? fun token =>
      if looksLikeFlag token then none
      else if rmTargetIsProtected token then some (deleteMessage token)
      else none
  else none

def detectRecursiveDelete (text : Bytes) : Option Bytes :=
  eachWordWithExe deleteWords deleteTarget false 0 text

/-! ## The other rules -/

/-- The loop of the searches for a pattern that starts at a word boundary. -/
def searchAtBoundary (matchesAt : Bytes → Bool) : (behindWord : Bool) → Bytes → Bool
  | _, [] => false
  | behindWord, c :: rest =>
    (!behindWord && matchesAt (c :: rest)) || searchAtBoundary matchesAt (isWord c) rest

/-- What comes after `mkfs` and a suffix of word bytes. -/
def afterMkfs : Bytes → Bytes
  | 0x2E :: rest => if (rest.takeWhile isWord).isEmpty then 0x2E :: rest else rest.dropWhile isWord
  | rest => rest

def searchMkfs (text : Bytes) : Bool :=
  searchAtBoundary (fun t => matchLit t (ascii "mkfs") && !(afterMkfs (t.drop 4)).head?.any isWord)
    false text

def hasWord (text word : Bytes) : Bool :=
  searchAtBoundary (fun t => matchLit t word && !(t.drop word.length).head?.any isWord) false text

def kDev : List Bytes := [ascii "sd", ascii "nvme", ascii "disk", ascii "rdisk"]

def hasDdOutput (text : Bytes) : Bool :=
  searchAtBoundary (fun t => matchLit t (ascii "of=/dev/") && kDev.any (matchLit (t.drop 8)))
    false text

def hasForkBomb (text : Bytes) : Bool :=
  (firstOccurrence (ascii ":()\x7b") text).isSome && (firstOccurrence (ascii ":|:&") text).isSome

def diskFormatting (text : Bytes) : Option Bytes :=
  if searchMkfs text then some (ascii "Disk formatting command (`mkfs`) is blocked") else none

def rawDeviceWrite (text : Bytes) : Option Bytes :=
  if hasWord text (ascii "dd") && hasDdOutput text then
    some (ascii "`dd` writing to a raw device is blocked")
  else none

def powerWords : List Bytes := [ascii "shutdown", ascii "reboot", ascii "poweroff", ascii "halt"]

def systemPower (text : Bytes) : Option Bytes :=
  let first := (text.dropWhile isSpace).takeWhile fun c => !isSpace c
  if powerWords.contains first then
    some (ascii "System `" ++ first ++ ascii "` command is blocked")
  else none

def forkBomb (text : Bytes) : Option Bytes :=
  if hasForkBomb text then some (ascii "Fork bomb pattern detected") else none

def wordKill : Bytes := ascii "kill"

def killTarget (_ : Bytes) (tokens : List Bytes) : Option Bytes :=
  tokens.findSome? fun token =>
    if looksLikeFlag token then none
    else if token == ascii "1" || token == ascii "$ppid" then
      some (ascii "`kill` targeting PID 1 (or `$PPID`) is blocked")
    else none

def killInit (text : Bytes) : Option Bytes := eachWordWithExe [wordKill] killTarget false 0 text

def wordFormat : Bytes := ascii "format"

/-- `^[a-z]:[\\/]?$`. -/
def isDrive : Bytes → Bool
  | drive :: 0x3A :: suf =>
    (0x61 ≤ drive && drive ≤ 0x7A) &&
      match suf with
      | [] => true
      | [x] => isSep x
      | _ => false
  | _ => false

def formatTarget (_ : Bytes) (tokens : List Bytes) : Option Bytes :=
  tokens.findSome? fun token =>
    if isDrive token then some (ascii "Windows `format` on a drive is blocked") else none

def formatDrive (text : Bytes) : Option Bytes :=
  eachWordWithExe [wordFormat] formatTarget false 0 text

/-! ## The detector -/

structure HardlineResult where
  blocked : Bool
  description : Option Bytes
  deriving DecidableEq, Repr

/-- The rules behind the first one, in order. -/
def laterRules : List (Bytes → Option Bytes) :=
  [diskFormatting, rawDeviceWrite, systemPower, forkBomb, killInit, formatDrive]

def detectHardlineCommand (command : Bytes) : HardlineResult :=
  if command.all isSpace then ⟨false, none⟩
  else
    match (detectRecursiveDelete :: laterRules).findSome? (· (collapseLower command)) with
    | some description => ⟨true, some description⟩
    | none => ⟨false, none⟩

end KimixNative.Tools.ShellSafety
