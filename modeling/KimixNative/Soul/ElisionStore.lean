import KimixNative.Lib.Probing
import KimixNative.Lib.LittleEndian

/-!
# The elision store

A content-addressed store of byte strings. The bytes live in slabs, an entry says where,
and an open-addressing table leads from a ref to its entry. The loop that looks for a free
cell and the loop that looks for a free ref end only if there is one: both take a bound
and answer `none` at it, and so do the operations that contain them.

The hash is a parameter. `save` computes the size of its blob with 32-bit additions, and
`load` builds a table of 16 cells whatever the number of entries.
-/

namespace KimixNative.Soul

/-- A content-addressed ref. -/
abbrev Ref := BitVec 64

/-- `kElisionSlabBytes`, 1 MiB. -/
def kElisionSlabBytes : Nat := 2 ^ 20

/-- One more than `UINT32_MAX`. -/
def u32Modulus : Nat := 2 ^ 32

namespace ElisionStore

/-- `KMEL1`, padded to eight bytes. -/
def kMagic : Bytes := [0x4b, 0x4d, 0x45, 0x4c, 0x31, 0x00, 0x00, 0x00]

def kHeaderBytes : Nat := 16

structure Entry where
  ref : Ref
  slab : Nat
  offset : Nat
  length : Nat
  deriving DecidableEq, Repr

end ElisionStore

open ElisionStore

structure ElisionStore where
  entries : List Entry := []
  slabs : List Bytes := []
  /-- Entry index plus one, zero for a free cell. -/
  slot : List Nat := []
  slotMask : Nat := 0
  count : Nat := 0
  dedupHits : Nat := 0
  liveBytes : Nat := 0
  deriving DecidableEq, Repr

namespace ElisionStore

/-! ### The ref table -/

/-- Where the search for a ref starts. -/
def homeSlot (mask : Nat) (ref : Ref) : Nat := (ref.toNat % u32Modulus) &&& mask

/-- The next cell. -/
def nextSlot (mask idx : Nat) : Nat := (idx + 1) &&& mask

/-- The `ref` the table keeps in a cell. -/
def slotRef (entries : List Entry) (slot : List Nat) (idx : Nat) : Option Ref :=
  match slot.getD idx 0 with
  | 0 => none
  | v + 1 => (entries[v]?).map (·.ref)

/-- `find_slot`: the cell of the ref or the first free one; cell 0 after a whole round. -/
def findSlot (s : ElisionStore) (ref : Ref) : Nat :=
  if s.slot.isEmpty then 0
  else
    (walk (fun idx => s.slot.getD idx 0 = 0 || slotRef s.entries s.slot idx = some ref)
      (nextSlot s.slotMask) (s.slotMask + 1) (homeSlot s.slotMask ref)).getD 0

/-- `insert_slot`, on the cells alone. -/
def insertSlot (fuel mask : Nat) (slot : List Nat) (ref : Ref) (entryIndex : Nat) :
    Option (List Nat) :=
  if slot.isEmpty then some slot
  else
    (walk (fun idx => slot.getD idx 0 = 0) (nextSlot mask) fuel (homeSlot mask ref)).map
      fun idx => slot.set idx ((entryIndex + 1) % u32Modulus)

/-- The loop of `rehash` over the entries from index `i` on. -/
def insertSlots (fuel mask : Nat) : List Entry → Nat → List Nat → Option (List Nat)
  | [], _, slot => some slot
  | e :: rest, i, slot =>
    (insertSlot fuel mask slot e.ref i).bind (insertSlots fuel mask rest (i + 1))

def rehash (fuel : Nat) (s : ElisionStore) (capacity : Nat) : Option ElisionStore :=
  let capacity := if capacity = 0 then 16 else capacity
  (insertSlots fuel (capacity - 1) s.entries 0 (List.replicate capacity 0)).map
    fun slot => { s with slot, slotMask := capacity - 1 }

def find (s : ElisionStore) (ref : Ref) : Option Entry :=
  if s.entries.isEmpty || s.slot.isEmpty then none
  else
    match s.slot.getD (s.findSlot ref) 0 with
    | 0 => none
    | v + 1 => s.entries[v]?

/-! ### The store -/

/-- The bytes an entry stands for. -/
def bytes (slabs : List Bytes) (e : Entry) : Bytes :=
  ((slabs.getD e.slab []).drop e.offset).take e.length

/-- Append a text to the last slab, or to a new one if it does not fit there. -/
def pushText (entries : List Entry) (slabs : List Bytes) (ref : Ref) (text : Bytes) :
    List Entry × List Bytes :=
  let slabs :=
    if slabs.isEmpty || (slabs.getLastD []).length + text.length > kElisionSlabBytes then
      slabs ++ [[]]
    else slabs
  let last := slabs.getLastD []
  (entries ++ [{ ref, slab := (slabs.length - 1) % u32Modulus, offset := last.length % u32Modulus,
                 length := text.length % u32Modulus }],
    slabs.dropLast ++ [last ++ text])

/-- `while (find(ref) != nullptr) ++ref`. -/
def nextFree (s : ElisionStore) : Nat → Ref → Option Ref
  | 0, _ => none
  | fuel + 1, ref => if (s.find ref).isSome then nextFree s fuel (ref + 1) else some ref

/-- Enter the last entry into the table, which stays at most half full. -/
def reindex (fuel : Nat) (s : ElisionStore) (ref : Ref) : Option ElisionStore :=
  if s.slot.isEmpty || s.entries.length * 2 > s.slot.length then
    rehash fuel s ((if s.slot.isEmpty then 16 else s.slot.length * 2) % u32Modulus)
  else
    (insertSlot fuel s.slotMask s.slot ref ((s.entries.length - 1) % u32Modulus)).map
      fun slot => { s with slot }

/-- The part of `put` that stores a text under a ref that is free. -/
def store (fuel : Nat) (s : ElisionStore) (ref : Ref) (text : Bytes) :
    Option (Ref × ElisionStore) :=
  if text.length ≥ u32Modulus then some (0, s)
  else
    let (entries, slabs) := pushText s.entries s.slabs ref text
    (reindex fuel { s with entries, slabs } ref).map fun s =>
      (ref, { s with count := s.count + 1, liveBytes := s.liveBytes + text.length })

variable (hash : Bytes → Ref)

def put (fuel : Nat) (s : ElisionStore) (text : Bytes) : Option (Ref × ElisionStore) :=
  let ref := hash text
  match s.find ref with
  | some e =>
    if e.length = text.length ∧ (text.isEmpty ∨ bytes s.slabs e = text) then
      some (e.ref, { s with dedupHits := s.dedupHits + 1 })
    else (s.nextFree fuel ref).bind fun ref => store fuel s ref text
  | none => store fuel s ref text

def get (s : ElisionStore) (ref : Ref) : Option Bytes := (s.find ref).map (bytes s.slabs)

def has (s : ElisionStore) (ref : Ref) : Bool := (s.find ref).isSome

/-! ### Persistence -/

/-- One entry as `save` writes it. -/
def entryBytes (slabs : List Bytes) (e : Entry) : Bytes :=
  leBytes 8 e.ref.toNat ++ leBytes 4 e.length ++ bytes slabs e

/-- The size of the blob; `12 + e.length` is a 32-bit sum. -/
def saveSize (s : ElisionStore) : Nat :=
  s.entries.foldl (fun total e => total + (12 + e.length) % u32Modulus) kHeaderBytes

/-- What `save` writes. -/
def written (s : ElisionStore) : Bytes :=
  kMagic ++ leBytes 4 s.entries.length ++ leBytes 4 0 ++ s.entries.flatMap (entryBytes s.slabs)

/-- `save`; `none` when it writes past the end of the blob it has allocated. -/
def save (s : ElisionStore) : Option Bytes :=
  if s.saveSize < s.written.length then none
  else some (s.written ++ List.replicate (s.saveSize - s.written.length) 0)

/-- The decoding loop of `load`; `none` when the blob is too short. -/
def loadEntries : Nat → Bytes → List Entry × List Bytes → Option (List Entry × List Bytes)
  | 0, _, acc => some acc
  | n + 1, p, (entries, slabs) =>
    if p.length < 12 then none
    else
      let ref : Ref := BitVec.ofNat 64 (leNat (p.take 8))
      let length := leNat ((p.drop 8).take 4)
      let p := p.drop 12
      if p.length < length then none
      else loadEntries n (p.drop length) (pushText entries slabs ref (p.take length))

/-- The decoded entries of a blob. -/
def decode (blob : Bytes) : Option (List Entry × List Bytes) :=
  if blob.length < kHeaderBytes then none
  else if blob.take 8 ≠ kMagic then none
  else loadEntries (leNat ((blob.drop 8).take 4)) (blob.drop kHeaderBytes) ([], [])

/-- The merge loop of `load`: this store's refs win. -/
def merge (fuel : Nat) (slabs : List Bytes) : List Entry → ElisionStore → Option ElisionStore
  | [], s => some s
  | e :: rest, s =>
    if s.has e.ref then merge fuel slabs rest s
    else (put hash fuel s (bytes slabs e)).bind fun (_, s) => merge fuel slabs rest s

/-- `load`: into an empty store the decoded entries move as they are, into another one they
are put one by one. -/
def load (fuel : Nat) (s : ElisionStore) (blob : Bytes) : Option (Bool × ElisionStore) :=
  match decode blob with
  | none => some (false, s)
  | some (entries, slabs) =>
    if s.entries.isEmpty ∧ s.slabs.isEmpty then
      (rehash fuel
        { s with entries, slabs, slot := [], slotMask := 0, count := entries.length,
                 liveBytes := entries.foldl (fun total e => total + e.length) 0 } 16).map
        fun s => (true, s)
    else
      (merge hash fuel slabs entries s).map fun s => (true, s)

/-- The stores that calls of `put` produce. -/
inductive Reachable : ElisionStore → Prop
  | fresh : Reachable {}
  | put {s s' : ElisionStore} {fuel : Nat} {text : Bytes} {ref : Ref} :
      Reachable s → put hash fuel s text = some (ref, s') → Reachable s'

/-- Put texts one after the other. -/
def putAll (fuel : Nat) : List Bytes → ElisionStore → Option ElisionStore
  | [], s => some s
  | text :: texts, s => (put hash fuel s text).bind fun (_, s) => putAll fuel texts s

end ElisionStore

end KimixNative.Soul
