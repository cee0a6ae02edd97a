import KimixNative.GraphDb.Status
import KimixNative.Lib.Table

/-!
# The typed property model

A vertex or an edge carries a bag of property values under interned names. A value
is a tagged payload: scalars are inline, the two block kinds (`stringArray` and
`dataArray`) own one canonical byte block. No block reaches a value without passing
its validator, so the block constructors take subtypes: a value with a malformed
block cannot be built. Doubles are carried as their 64-bit patterns.
-/

namespace KimixNative.GraphDb

/-- A GDI datatype, by its code. Only the codes named below are produced by values;
any other byte may stand in a declaration and round-trips verbatim. -/
structure GdiDataType where
  code : Byte
  deriving DecidableEq, Repr

namespace GdiDataType

def char : GdiDataType := ⟨100⟩
def byte : GdiDataType := ⟨104⟩
def int64 : GdiDataType := ⟨112⟩
def double : GdiDataType := ⟨114⟩
/-- The element type of a self-describing array. -/
def data : GdiDataType := ⟨200⟩

end GdiDataType

/-- Property container type: one value or an array. A declaration read from outside
may carry a byte that names neither. -/
inductive GdiContainerType where
  | single
  | array
  | unnamed (code : Byte) (stray : 2 ≤ code.toNat)
  deriving DecidableEq

/-- What an array declaration's `count` means. -/
inductive GdiSizeType where
  | fixed
  | max
  | unlimited
  | unnamed (code : Byte) (stray : 3 ≤ code.toNat)
  deriving DecidableEq

/-- Which payload a value carries. -/
inductive PropertyKind where
  | none
  | int64Value
  | doubleValue
  | string
  | blob
  | int64Array
  | doubleArray
  | stringArray
  | dataArray
  deriving DecidableEq, Repr

namespace PropertyKind

/-- The wire value of a kind. -/
def code : PropertyKind → Byte
  | .none => 0
  | .int64Value => 1
  | .doubleValue => 2
  | .string => 3
  | .blob => 4
  | .int64Array => 5
  | .doubleArray => 6
  | .stringArray => 7
  | .dataArray => 8

end PropertyKind

/-- `is_data_array_element_kind`, on the flag byte of a block: the four scalar
payload kinds and nothing else. -/
def dataArrayElementKind? (flag : Byte) : Option PropertyKind :=
  if flag = PropertyKind.int64Value.code then some .int64Value
  else if flag = PropertyKind.doubleValue.code then some .doubleValue
  else if flag = PropertyKind.string.code then some .string
  else if flag = PropertyKind.blob.code then some .blob
  else none

/-- `read_sized_element` (and its text twin `read_string_array_element`): one
`[u32 length][bytes]` group, with the bytes that follow it. -/
def readSizedElement (at_ : Bytes) : Option (Bytes × Bytes) :=
  if at_.length < 4 then none
  else
    let length := leNat (at_.take 4)
    let bytes := at_.drop 4
    if bytes.length < length then none
    else some (bytes.take length, bytes.drop length)

/-- Walk `count` sized elements and return what is left. -/
def skipElements : Nat → Bytes → Option Bytes
  | 0, at_ => some at_
  | count + 1, at_ =>
    match readSizedElement at_ with
    | none => none
    | some (_, next) => skipElements count next

/-- `string_array_block_validate`: the element walk must consume the block exactly.
The answer is the declared element count. -/
def stringArrayBlockValidate (block : Bytes) : Option Nat :=
  if block.length < 4 then none
  else
    let count := leNat (block.take 4)
    match skipElements count (block.drop 4) with
    | some [] => some count
    | _ => none

/-- `data_array_block_validate`: header of flag, three zero bytes and count, then
either fixed-width elements or sized groups, consumed exactly. -/
def dataArrayBlockValidate (block : Bytes) : Option (PropertyKind × Nat) :=
  match block with
  | flag :: r0 :: r1 :: r2 :: c0 :: c1 :: c2 :: c3 :: elements =>
    match dataArrayElementKind? flag with
    | none => none
    | some kind =>
      if r0 = 0 ∧ r1 = 0 ∧ r2 = 0 then
        let count := leNat [c0, c1, c2, c3]
        match kind with
        | .int64Value | .doubleValue =>
          if count * 8 = elements.length then some (kind, count) else none
        | _ =>
          match skipElements count elements with
          | some [] => some (kind, count)
          | _ => none
      else none
  | _ => none

/-- A canonical string-array block. -/
def StringArrayBlock := { block : Bytes // (stringArrayBlockValidate block).isSome }

/-- A canonical data-array block. -/
def DataArrayBlock := { block : Bytes // (dataArrayBlockValidate block).isSome }

instance : DecidableEq StringArrayBlock := inferInstanceAs (DecidableEq (Subtype _))

instance : DecidableEq DataArrayBlock := inferInstanceAs (DecidableEq (Subtype _))

/-- A property value. -/
inductive PropertyValue where
  | none
  | int64Value (value : BitVec 64)
  | doubleValue (bits : BitVec 64)
  | string (text : Bytes)
  | blob (bytes : Bytes)
  | int64Array (values : List (BitVec 64))
  | doubleArray (bits : List (BitVec 64))
  | stringArray (block : StringArrayBlock)
  | dataArray (block : DataArrayBlock)
  deriving DecidableEq

namespace PropertyValue

/-- The kind tag of a value. -/
def kind : PropertyValue → PropertyKind
  | .none => .none
  | .int64Value _ => .int64Value
  | .doubleValue _ => .doubleValue
  | .string _ => .string
  | .blob _ => .blob
  | .int64Array _ => .int64Array
  | .doubleArray _ => .doubleArray
  | .stringArray _ => .stringArray
  | .dataArray _ => .dataArray

/-- Number of elements of an array value, 0 for a scalar. The block kinds read the
count their own block declares. -/
def elementCount : PropertyValue → Nat
  | .int64Array values => values.length
  | .doubleArray bits => bits.length
  | .stringArray block => leNat (block.1.take 4)
  | .dataArray block => leNat ((block.1.drop 4).take 4)
  | _ => 0

/-- The GDI datatype of a value's payload. -/
def dataType : PropertyValue → GdiDataType
  | .int64Value _ | .int64Array _ => .int64
  | .doubleValue _ | .doubleArray _ => .double
  | .string _ | .stringArray _ => .char
  | .blob _ => .byte
  | .dataArray _ => .data
  | .none => .int64

/-- True for the four array kinds. -/
def isArray : PropertyValue → Bool
  | .int64Array _ | .doubleArray _ | .stringArray _ | .dataArray _ => true
  | _ => false

/-- `matches_declaration`: the write-time check of container, datatype and length. -/
def matchesDeclaration (v : PropertyValue) (container : GdiContainerType) (data : GdiDataType)
    (sizeType : GdiSizeType) (count : BitVec 32) : Bool :=
  if v.kind = .none then false
  else if v.isArray ≠ decide (container = .array) then false
  else if v.dataType ≠ data then false
  else if v.isArray = false then decide (sizeType = .fixed)
  else
    match sizeType with
    | .fixed => decide (v.elementCount = count.toNat)
    | .max => decide (v.elementCount ≤ count.toNat)
    | .unlimited => true
    | .unnamed _ _ => false

end PropertyValue

/-- One `(id, value)` pair of a property list. -/
structure PropertyEntry where
  name : PropNameId
  value : PropertyValue
  deriving DecidableEq

abbrev PropertyList := List PropertyEntry

/-- Interned name to value. -/
abbrev PropertyBag := Table PropNameId PropertyValue

namespace PropertyBag

/-- A bag copied out as a list (`copy_bag`, `EdgeTable::record`). -/
def toPropertyList (bag : PropertyBag) : PropertyList := bag.toList.map fun e => ⟨e.1, e.2⟩

/-- The bag an `emplace` loop over a property list builds: the first value of a
repeated name stays. -/
def ofPropertyList (list : PropertyList) : PropertyBag :=
  Table.ofList (list.map fun e => (e.name, e.value))

theorem find?_ofPropertyList (list : PropertyList) (name : PropNameId) :
    (ofPropertyList list).find? name = (list.map fun e => (e.name, e.value)).lookup name :=
  Table.find?_ofList _ _

@[simp] theorem find?_ofPropertyList_toPropertyList (bag : PropertyBag) (name : PropNameId) :
    (ofPropertyList (toPropertyList bag)).find? name = bag.find? name := by
  have h : (toPropertyList bag).map (fun e => (e.name, e.value)) = bag.toList := by
    simp [toPropertyList, List.map_map, Function.comp_def]
  rw [find?_ofPropertyList, h, Table.lookup_toList]

end PropertyBag

/-- A property type's declaration. -/
structure PropertyTypeInfo where
  nameId : PropNameId := kNoPropName
  name : Bytes := []
  container : GdiContainerType := .single
  data : GdiDataType := .int64
  count : BitVec 32 := 1
  sizeType : GdiSizeType := .fixed
  deriving DecidableEq

end KimixNative.GraphDb
