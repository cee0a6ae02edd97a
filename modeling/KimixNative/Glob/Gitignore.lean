import KimixNative.Glob.GlobMatch
import KimixNative.Lib.Search
import Mathlib.Data.List.DropRight

/-!
# Gitignore rules

`parse_gitignore` reads rules line by line, and `gitignore_match` matches a path against one rule.
There are five ways to match: patterns with `**` at the front, at the back, in the middle or
elsewhere, and patterns without. A rule for directories only is matched against the directories
above a file.
-/

namespace KimixNative.Glob

def slash : Byte := 0x2F#8
def backslash : Byte := 0x5C#8
def newline : Byte := 0x0A#8
def carriageReturn : Byte := 0x0D#8
def hash : Byte := 0x23#8

/-- `gitignore_rule`. -/
structure GitignoreRule where
  pattern : Bytes := []
  negated : Bool := false
  anchored : Bool := false
  dirOnly : Bool := false
  deriving DecidableEq

/-! ### Parsing -/

/-- `std::isspace`. -/
def isSpace (c : Byte) : Bool := decide (c = 0x20#8 ∨ (0x09#8 ≤ c ∧ c ≤ 0x0D#8))

/-- `rstrip_inplace`. -/
def rstrip (line : Bytes) : Bytes := line.rdropWhile isSpace

/-- Each carriage return, with a newline behind it or not, becomes a newline. -/
def normalizeLineEndings : Bytes → Bytes
  | [] => []
  | c :: rest =>
    if c = carriageReturn then
      if rest.head? = some newline then normalizeLineEndings rest
      else newline :: normalizeLineEndings rest
    else c :: normalizeLineEndings rest

/-- The loop body of `parse_gitignore`. -/
def parseLine (line : Bytes) : Option GitignoreRule :=
  let line := rstrip line
  if line = [] ∨ line.head? = some hash then none
  else
    let negated := decide (line.head? = some exclamationMark)
    let line := if negated then line.tail else line
    if line = [] then none
    else
      let dirOnly := decide (line.getLast? = some slash)
      let line := if dirOnly then line.dropLast else line
      let rooted := decide (line.head? = some slash)
      some
        { pattern := if rooted then line.tail else line
          negated
          anchored := decide (slash ∈ line) || rooted
          dirOnly }

/-- `parse_gitignore`. -/
def parseGitignore (content : Bytes) : List GitignoreRule :=
  ((normalizeLineEndings content).splitOn newline).filterMap parseLine

/-! ### Paths -/

/-- `normalize_slashes`. -/
def normalizeSlashes (s : Bytes) : Bytes := s.map fun c => if c = backslash then slash else c

/-- A part of a path: the path from its start on, and its length. -/
structure PartView where
  rest : Bytes
  len : Nat
  deriving DecidableEq

def PartView.part (view : PartView) : Bytes := view.rest.take view.len

/-- The loop of `split_path`: `len` bytes of the part at `start` have been read. -/
def splitPathFrom (start : Bytes) (len : Nat) : Bytes → List PartView
  | [] => if 0 < len then [⟨start, len⟩] else []
  | c :: rest =>
    if c = slash then (if 0 < len then [⟨start, len⟩] else []) ++ splitPathFrom rest 0 rest
    else splitPathFrom start (len + 1) rest

/-- `split_path`. -/
def splitPath (s : Bytes) : List PartView := splitPathFrom s 0 s

/-- `parts.back()`. -/
def lastPart (parts : List PartView) : Bytes := (parts.getLast?.map PartView.part).getD []

/-! ### Matching -/

/-- The loop over the directory components, of which `component` has been read. -/
def matchDirs (pattern : Bytes) (ci : Bool) (component : Bytes) : Bytes → Bool
  | [] => false
  | c :: rest =>
    if c = slash then globMatch pattern component ci || matchDirs pattern ci [] rest
    else matchDirs pattern ci (component ++ [c]) rest

/-- `match_unanchored`: the basename, or any directory component. -/
def matchUnanchored (pattern text : Bytes) (ci : Bool) : Bool :=
  globMatch pattern (text.rtakeWhile fun c => c ≠ slash) ci || matchDirs pattern ci [] text

/-- The loop of the `**/` and `/**/` branches over the parts of what the suffix is matched with. -/
def matchParts (suffix : Bytes) (ci : Bool) (parts : List PartView) : Bool :=
  parts.any fun view => globMatch suffix view.rest ci || globMatch suffix (lastPart parts) ci

def doubleStar : Bytes := [starByte, starByte]

/-- What stands behind `prefix` and a slash, or nothing if the path is `prefix` itself. -/
def restBehind (start relPath : Bytes) : Option Bytes :=
  if start ++ [slash] <+: relPath then some (relPath.drop (start.length + 1))
  else if relPath = start then some []
  else none

/-- `match_double_star`. -/
def matchDoubleStar (rule : GitignoreRule) (relPath : Bytes) (ci : Bool) : Bool :=
  let pattern := rule.pattern
  if pattern = doubleStar then true
  else if doubleStar ++ [slash] <+: pattern then
    matchParts (pattern.drop 3) ci (splitPath relPath)
  else if slash :: doubleStar <:+ pattern then
    (restBehind (pattern.take (pattern.length - 3)) relPath).isSome
  else
    match firstOccurrence (slash :: doubleStar ++ [slash]) pattern with
    | some ds =>
      match restBehind (pattern.take ds) relPath with
      | some rest =>
        if pattern.drop (ds + 4) = [] then true
        else matchParts (pattern.drop (ds + 4)) ci (splitPath rest)
      | none => false
    | none =>
      if globMatch pattern relPath ci then true
      else if splitPath relPath ≠ [] then globMatch pattern (lastPart (splitPath relPath)) ci
      else false

/-- `gitignore_match_internal` where no directories above are looked at. -/
def matchEntry (relPath : Bytes) (rule : GitignoreRule) (ci : Bool) : Bool :=
  if doubleStar <:+: rule.pattern then matchDoubleStar rule relPath ci
  else if rule.anchored then globMatch rule.pattern relPath ci
  else matchUnanchored rule.pattern relPath ci

/-- The prefixes of a path in front of its slashes, `read` having been read. -/
def ancestorsFrom (read : Bytes) : Bytes → List Bytes
  | [] => []
  | c :: rest =>
    if c = slash then read :: ancestorsFrom (read ++ [c]) rest
    else ancestorsFrom (read ++ [c]) rest

/-- `gitignore_match_internal`. It calls itself for a directory, for which it does not do so
again. -/
def gitignoreMatchInternal (relPath : Bytes) (isDir : Bool) (rule : GitignoreRule) (ci : Bool) :
    Bool :=
  if rule.dirOnly ∧ ¬ isDir then (ancestorsFrom [] relPath).any fun dir => matchEntry dir rule ci
  else matchEntry relPath rule ci

/-- `gitignore_match`. -/
def gitignoreMatch (relPath : Bytes) (isDir : Bool) (rule : GitignoreRule) (ci : Bool) : Bool :=
  gitignoreMatchInternal (normalizeSlashes relPath) isDir rule ci

end KimixNative.Glob
