import KimixNative.GraphDb.Graph
import Mathlib.Data.List.Lex
import Mathlib.Data.List.Sort
import Mathlib.Data.Nat.Log

/-!
# Constraints

A constraint is an AND-ed list of conditions over the labels and the properties of a
record. A property condition compares values: numbers across the two numeric kinds, texts
by their bytes, everything else for equality only. A membership condition probes an index
of its set that was sorted when the condition was made.
-/

namespace KimixNative.GraphDb

/-- Comparison operations of a condition. -/
inductive GdiOp where
  | equal
  | notEqual
  | greater
  | greaterOrEqual
  | less
  | lessOrEqual
  | anyIn
  deriving DecidableEq, Repr

/-! ## Doubles

A double is its bit pattern: sign, exponent, fraction. -/

def doubleIsNan (bits : BitVec 64) : Bool :=
  decide (0x7FF0000000000000 < (bits.setWidth 63).toNat)

/-- The place of a double among the numbers; both zeros have the same one. -/
def doubleRank (bits : BitVec 64) : Int :=
  if bits.msb then -((bits.setWidth 63).toNat : Int) else (bits.setWidth 63).toNat

/-- `a < b` on doubles: false if one of them is not a number. -/
def doubleLt (a b : BitVec 64) : Bool :=
  !doubleIsNan a && !doubleIsNan b && decide (doubleRank a < doubleRank b)

/-- `a == b` on doubles. -/
def doubleEq (a b : BitVec 64) : Bool :=
  !doubleIsNan a && !doubleIsNan b && decide (doubleRank a = doubleRank b)

/-- `n / 2^k`, rounded to nearest, ties to even. -/
def roundShift (n k : Nat) : Nat :=
  if 2 ^ k < 2 * (n % 2 ^ k) ∨ 2 ^ k = 2 * (n % 2 ^ k) ∧ n / 2 ^ k % 2 = 1 then n / 2 ^ k + 1
  else n / 2 ^ k

/-- `static_cast<double>` of an int64. -/
def doubleOfInt64 (v : BitVec 64) : BitVec 64 :=
  let n := v.toInt.natAbs
  let e := n.log2
  let mantissa := if e ≤ 52 then n * 2 ^ (52 - e) else roundShift n (e - 52)
  let magnitude := if n = 0 then 0 else (e + 1022) * 2 ^ 52 + mantissa
  BitVec.ofNat 64 (if v.toInt < 0 then 2 ^ 63 + magnitude else magnitude)

example : doubleOfInt64 (BitVec.ofInt 64 (-3)) = 0xC008000000000000#64 ∧
    doubleOfInt64 (2 ^ 53 + 1) = 0x4340000000000000#64 := by decide

/-! ## Values -/

/-- The sized elements of a block. -/
def readElements : Nat → Bytes → List Bytes
  | 0, _ => []
  | count + 1, at_ =>
    match readSizedElement at_ with
    | none => []
    | some (element, next) => element :: readElements count next

/-- `as_string_array`. -/
def StringArrayBlock.elements (block : StringArrayBlock) : List Bytes :=
  readElements (leNat (block.1.take 4)) (block.1.drop 4)

/-- The place of a text in the order of `memcmp`. -/
def textKey (text : Bytes) : List Nat := text.map BitVec.toNat

theorem textKey_injective : Function.Injective textKey :=
  List.map_injective_iff.mpr fun _ _ => BitVec.eq_of_toNat_eq

/-- Less, greater, or neither. -/
def threeWay (less greater : Bool) : Int := if less then -1 else if greater then 1 else 0

namespace PropertyValue

/-- `equals`. -/
def equals : PropertyValue → PropertyValue → Bool
  | .doubleValue a, .doubleValue b => doubleEq a b
  | .doubleArray a, .doubleArray b =>
    decide (a.length = b.length) && (a.zip b).all fun p => doubleEq p.1 p.2
  | a, b => decide (a = b)

end PropertyValue

/-- `compare_values`: an order for numbers and texts, and otherwise at most equality. -/
def compareValues : PropertyValue → PropertyValue → Option Int
  | .int64Value a, .int64Value b =>
    some (threeWay (decide (a.toInt < b.toInt)) (decide (b.toInt < a.toInt)))
  | .doubleValue a, .doubleValue b => some (threeWay (doubleLt a b) (doubleLt b a))
  | .int64Value a, .doubleValue b =>
    some (threeWay (doubleLt (doubleOfInt64 a) b) (doubleLt b (doubleOfInt64 a)))
  | .doubleValue a, .int64Value b =>
    some (threeWay (doubleLt a (doubleOfInt64 b)) (doubleLt (doubleOfInt64 b) a))
  | .string a, .string b =>
    some (threeWay (decide (textKey a < textKey b)) (decide (textKey b < textKey a)))
  | a, b => if a.equals b then some 0 else none

/-- `set_contains_text` and `set_contains_int64`. -/
def setContains {α : Type} [DecidableEq α] (set : List α) (x : α) : Bool :=
  set.any fun e => decide (e = x)

/-- `any_in_matches`: the walk over the set that defines membership. -/
def anyInMatches : PropertyValue → PropertyValue → Bool
  | .stringArray set, .string text => setContains set.elements text
  | .stringArray set, .stringArray actual => actual.elements.any (setContains set.elements)
  | .int64Array set, .int64Value value => setContains set value
  | .int64Array set, .int64Array actual => actual.any (setContains set)
  | _, _ => false

/-- `evaluate`. -/
def evaluate (op : GdiOp) (actual expected : PropertyValue) : Bool :=
  if op = .anyIn then anyInMatches expected actual
  else
    match compareValues actual expected with
    | none =>
      match op with
      | .equal => actual.equals expected
      | .notEqual => !actual.equals expected
      | _ => false
    | some order =>
      match op with
      | .equal => decide (order = 0)
      | .notEqual => decide (order ≠ 0)
      | .greater => decide (0 < order)
      | .greaterOrEqual => decide (0 ≤ order)
      | .less => decide (order < 0)
      | .lessOrEqual => decide (order ≤ 0)
      | .anyIn => false

/-! ## The index of a set -/

section Index

variable {α κ : Type} [DecidableEq α] [LinearOrder κ]

/-- `std::lower_bound`, and whether it points at the element. -/
def probeIndex (key : α → κ) (index : List α) (x : α) : Bool :=
  index.find? (fun e => decide (key x ≤ key e)) == some x

end Index

/-- The probe index of a membership condition. -/
inductive AnyInIndex where
  | none
  | strings (sorted : List Bytes)
  | integers (sorted : List (BitVec 64))
  deriving DecidableEq

/-! ## Conditions -/

/-- One condition: a label membership test, or a property comparison. -/
inductive ConstraintCondition where
  | label (label : LabelId) (op : GdiOp)
  | property (property : PropNameId) (op : GdiOp) (value : PropertyValue) (count : BitVec 32)
      (anyInSet : AnyInIndex)
  deriving DecidableEq

/-- An AND-ed list of conditions. -/
structure Constraint where
  conditions : List ConstraintCondition := []
  deriving DecidableEq

namespace ConstraintCondition

/-- `on_label`. -/
def onLabel (label : LabelId) (op : GdiOp) : ConstraintCondition := .label label op

/-- `matches_value` of a property condition. -/
def matchesValue (op : GdiOp) (value : PropertyValue) (anyInSet : AnyInIndex)
    (actual : PropertyValue) : Bool :=
  if op ≠ .anyIn then evaluate op actual value
  else
    match anyInSet with
    | .strings sorted =>
      match actual with
      | .string text => probeIndex textKey sorted text
      | .stringArray block => block.elements.any fun e => probeIndex textKey sorted e
      | _ => false
    | .integers sorted =>
      match actual with
      | .int64Value value => probeIndex BitVec.toInt sorted value
      | .int64Array values => values.any fun e => probeIndex BitVec.toInt sorted e
      | _ => false
    | .none => anyInMatches value actual

/-- A label condition with another operation than membership and its negation. -/
def isLabelOrdering : ConstraintCondition → Bool
  | .label _ op => decide (op ≠ .equal) && decide (op ≠ .notEqual)
  | .property .. => false

end ConstraintCondition

/-- `has_label`. -/
def hasLabel (labels : List LabelId) (label : LabelId) : Bool :=
  decide (label ≠ kNoLabel) && labels.contains label

/-- One condition of `matches_probe`: a property condition needs the property. -/
def ConstraintCondition.holds (labels : List LabelId)
    (probe : PropNameId → Option PropertyValue) : ConstraintCondition → Bool
  | label l .equal => hasLabel labels l
  | label l .notEqual => !hasLabel labels l
  | label _ _ => false
  | property name op value _ anyInSet =>
    match probe name with
    | none => false
    | some actual => matchesValue op value anyInSet actual

/-- `matches_probe`. -/
def matchesProbe (constraint : Constraint) (labels : List LabelId)
    (probe : PropNameId → Option PropertyValue) : Bool :=
  constraint.conditions.all (·.holds labels probe)

end KimixNative.GraphDb
