import Mathlib.Algebra.Order.Ring.Nat

/-!
# Little-endian fields

Both on-disk formats of this library write every multi-byte field byte by byte in
little-endian order. A field is a natural number together with its width in bytes;
a value that does not fit is truncated, exactly as the casts in front of the
writers do. `leNat_leBytes` is the round trip with that truncation made explicit.
-/

namespace KimixNative

/-- One byte of a record or of a payload. -/
abbrev Byte := BitVec 8

instance : LawfulBEq Byte := instLawfulBEq

/-- A byte string: an external id, a name, a blob or an encoded record. -/
abbrev Bytes := List Byte

instance : LawfulBEq Bytes := inferInstance

/-- The `n` little-endian bytes of `x`, higher digits dropped. -/
def leBytes : Nat → Nat → Bytes
  | 0, _ => []
  | n + 1, x => BitVec.ofNat 8 x :: leBytes n (x / 256)

/-- The value of a little-endian byte string. -/
def leNat : Bytes → Nat
  | [] => 0
  | b :: rest => b.toNat + 256 * leNat rest

@[simp] theorem length_leBytes (n x : Nat) : (leBytes n x).length = n := by
  induction n generalizing x with
  | zero => rfl
  | succ n ih => simp [leBytes, ih]

/-- Reading back a written field returns the value modulo the field's range. -/
theorem leNat_leBytes (n x : Nat) : leNat (leBytes n x) = x % 256 ^ n := by
  induction n generalizing x with
  | zero => simp [leBytes, leNat, Nat.mod_one]
  | succ n ih =>
    simp only [leBytes, leNat, ih, BitVec.toNat_ofNat]
    rw [pow_succ 256 n, Nat.mul_comm (256 ^ n) 256, Nat.mod_mul]

theorem leNat_leBytes_of_lt {n x : Nat} (h : x < 256 ^ n) : leNat (leBytes n x) = x := by
  rw [leNat_leBytes, Nat.mod_eq_of_lt h]

theorem leNat_lt (b : Bytes) : leNat b < 256 ^ b.length := by
  induction b with
  | nil => simp [leNat]
  | cons b rest ih =>
    have hb : b.toNat < 256 := b.isLt
    simp only [leNat, List.length_cons, pow_succ]
    omega

/-- Two fields of one width with the same value are the same bytes. -/
theorem leNat_inj {a b : Bytes} (hlen : a.length = b.length) (h : leNat a = leNat b) : a = b := by
  induction a generalizing b with
  | nil => exact (List.length_eq_zero_iff.mp hlen.symm).symm
  | cons x xs ih =>
    cases b with
    | nil => cases hlen
    | cons y ys =>
      have hx : x.toNat < 256 := x.isLt
      have hy : y.toNat < 256 := y.isLt
      simp only [leNat] at h
      have hd : x.toNat = y.toNat := by omega
      have ht : leNat xs = leNat ys := by omega
      rw [BitVec.eq_of_toNat_eq hd, ih (by simpa using hlen) ht]

/-- A field is the bytes of its value. -/
theorem leBytes_leNat (b : Bytes) : leBytes b.length (leNat b) = b :=
  leNat_inj (length_leBytes _ _) (leNat_leBytes_of_lt (leNat_lt b))

end KimixNative
