import KimixNative.Lib.LittleEndian
import Mathlib.Data.List.Basic

/-!
# Records of fixed width

A `FixedCodec` writes every value in the same number of bytes and reads it back from the
front of any input that starts with them. Codecs are composed field by field, reserved
bytes included, and a table of records is read at any index.
-/

namespace KimixNative

structure FixedCodec (α : Type) where
  width : Nat
  encode : α → Bytes
  decode : Bytes → α
  length_encode : ∀ a, (encode a).length = width
  decode_append : ∀ a rest, decode (encode a ++ rest) = a

namespace FixedCodec

variable {α β : Type}

/-- An unsigned little-endian field of `n` bytes. -/
def uint (n : Nat) : FixedCodec (BitVec (8 * n)) where
  width := n
  encode v := leBytes n v.toNat
  decode b := BitVec.ofNat (8 * n) (leNat (b.take n))
  length_encode v := length_leBytes n v.toNat
  decode_append := by
    intro v rest
    have hlt : v.toNat < 256 ^ n := by
      have := v.isLt
      rwa [Nat.pow_mul] at this
    rw [List.take_left' (length_leBytes n _), leNat_leBytes_of_lt hlt, BitVec.ofNat_toNat,
      BitVec.setWidth_eq]

/-- One field after the other. -/
def prod (c : FixedCodec α) (d : FixedCodec β) : FixedCodec (α × β) where
  width := c.width + d.width
  encode x := c.encode x.1 ++ d.encode x.2
  decode b := (c.decode b, d.decode (b.drop c.width))
  length_encode x := by rw [List.length_append, c.length_encode, d.length_encode]
  decode_append := by
    intro x rest
    rw [List.append_assoc, c.decode_append, List.drop_left' (c.length_encode _), d.decode_append]

/-- A field followed by `n` bytes that are written as zero and not read. -/
def pad (c : FixedCodec α) (n : Nat) : FixedCodec α where
  width := c.width + n
  encode a := c.encode a ++ List.replicate n 0
  decode b := c.decode b
  length_encode a := by rw [List.length_append, c.length_encode, List.length_replicate]
  decode_append a rest := by rw [List.append_assoc, c.decode_append]

/-- The same bytes for another type. -/
def map (c : FixedCodec α) (f : α → β) (g : β → α) (h : ∀ b, f (g b) = b) : FixedCodec β where
  width := c.width
  encode b := c.encode (g b)
  decode bytes := f (c.decode bytes)
  length_encode b := c.length_encode (g b)
  decode_append b rest := by rw [c.decode_append, h]

/-- A table of records. -/
def encodeAll (c : FixedCodec α) (l : List α) : Bytes := l.flatMap c.encode

/-- The record at an index of a table that starts at the front. -/
def read (c : FixedCodec α) (b : Bytes) (i : Nat) : α := c.decode (b.drop (i * c.width))

/-- The first `n` records. -/
def readAll (c : FixedCodec α) (b : Bytes) (n : Nat) : List α := (List.range n).map (c.read b)

@[simp] theorem length_encodeAll (c : FixedCodec α) (l : List α) :
    (c.encodeAll l).length = l.length * c.width := by
  induction l with
  | nil => simp [encodeAll]
  | cons a l ih =>
    rw [encodeAll] at ih ⊢
    rw [List.flatMap_cons, List.length_append, c.length_encode, ih, List.length_cons,
      Nat.succ_mul, Nat.add_comm]

theorem read_encodeAll (c : FixedCodec α) {l : List α} (rest : Bytes) {i : Nat} {a : α}
    (h : l[i]? = some a) : c.read (c.encodeAll l ++ rest) i = a := by
  induction l generalizing i with
  | nil => cases h
  | cons b l ih =>
    rw [encodeAll, List.flatMap_cons, List.append_assoc]
    cases i with
    | zero =>
      obtain rfl : b = a := by simpa using h
      rw [read, Nat.zero_mul, List.drop_zero, c.decode_append]
    | succ i =>
      have h' : l[i]? = some a := by simpa using h
      rw [read, Nat.succ_mul, Nat.add_comm, ← List.drop_drop,
        List.drop_left' (c.length_encode b)]
      exact ih h'

/-- Reading back a whole table. -/
theorem readAll_encodeAll (c : FixedCodec α) (l : List α) (rest : Bytes) :
    c.readAll (c.encodeAll l ++ rest) l.length = l := by
  refine List.ext_getElem? ?_
  intro i
  by_cases hi : i < l.length
  · rw [readAll, List.getElem?_map, List.getElem?_range hi, Option.map_some,
      c.read_encodeAll rest (List.getElem?_eq_getElem hi), List.getElem?_eq_getElem hi]
  · have hle := Nat.le_of_not_lt hi
    rw [List.getElem?_eq_none hle, List.getElem?_eq_none]
    simpa [readAll] using hle

theorem getElem?_readAll (c : FixedCodec α) (b : Bytes) {n i : Nat} (hi : i < n) :
    (c.readAll b n)[i]? = some (c.read b i) := by
  rw [readAll, List.getElem?_map, List.getElem?_range hi, Option.map_some]

@[simp] theorem length_readAll (c : FixedCodec α) (b : Bytes) (n : Nat) :
    (c.readAll b n).length = n := by
  simp [readAll]

end FixedCodec

end KimixNative
