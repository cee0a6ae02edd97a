import KimixNative.GraphDb.Database
import KimixNative.GraphDb.Query

/-!
# Aggregates

An aggregate reduces the vertices that satisfy a constraint to one value. Every shard is scanned
on its own, with integer and double sums in separate buckets, and the partial results are merged
in shard order. Which vertices a shard holds, and in which order it hands them out, is left open:
a scan order is any division of the vertices among the shards.

Where the carried values are of the declared kind the result is the aggregate of the vertices as
a whole, whatever the scan order; an integer sum is that of the integers as long as it fits into
64 bits.
-/

namespace KimixNative.GraphDb

/-- Which reduction is applied. -/
inductive GdiAggregate where
  | count
  | min
  | max
  | sum
  | avg
  | unnamed (code : Int)
  deriving DecidableEq

/-- One aggregate request. -/
structure AggregateSpec where
  constraint : Constraint := {}
  property : PropNameId := kNoPropName
  function : GdiAggregate := .count

/-- The aggregate outcome. -/
structure AggregateResult where
  matched : Nat := 0
  valued : Nat := 0
  hasValue : Bool := false
  value : PropertyValue := .none
  deriving DecidableEq

/-- The arithmetic of doubles. -/
structure DoubleArithmetic where
  add : BitVec 64 → BitVec 64 → BitVec 64
  div : BitVec 64 → BitVec 64 → BitVec 64
  ofNat : Nat → BitVec 64

/-- One shard's share of an aggregate. -/
structure AggregatePartial where
  matched : Nat := 0
  valued : Nat := 0
  intSum : BitVec 64 := 0
  doubleSum : BitVec 64 := 0
  hasExtreme : Bool := false
  extreme : PropertyValue := .none
  status : GdiStatus := .ok

def kGraphShardCount : Nat := 64

/-- `_shard_of`: the top six bits of the mix. -/
def Graph.shardOf (guid : Guid) : Nat := (guidMix guid).toNat >>> (64 - 6)

theorem Graph.shardOf_lt (guid : Guid) : Graph.shardOf guid < kGraphShardCount := by
  have hlt := (guidMix guid).isLt
  rw [Graph.shardOf, Nat.shiftRight_eq_div_pow]
  exact Nat.div_lt_of_lt_mul hlt

namespace PropertyValue

/-- `as_int64`. -/
def asInt64 : PropertyValue → BitVec 64
  | .int64Value value => value
  | _ => 0

/-- `as_double`. -/
def asDouble : PropertyValue → BitVec 64
  | .doubleValue bits => bits
  | _ => 0

end PropertyValue

/-- Whether a value with this order to the extreme so far replaces it. -/
def takes (function : GdiAggregate) (order : Int) : Bool :=
  if function = .min then decide (order < 0) else decide (0 < order)

/-- `aggregate_accumulate`. -/
def aggregateAccumulate (d : DoubleArithmetic) (p : AggregatePartial) (function : GdiAggregate)
    (value : PropertyValue) : AggregatePartial :=
  match function with
  | .min | .max =>
    if p.hasExtreme = false then { p with extreme := value, hasExtreme := true }
    else
      match compareValues value p.extreme with
      | none => { p with status := .errorDatatype }
      | some order => if takes function order then { p with extreme := value } else p
  | .sum | .avg =>
    if value.kind = .int64Value then { p with intSum := p.intSum + value.asInt64 }
    else { p with doubleSum := d.add p.doubleSum value.asDouble }
  | .count => p
  | .unnamed _ => { p with status := .errorArgument }

namespace Database

/-- The constraint test of a scan: an empty constraint is not asked. -/
def scanMatches (constraint : Constraint) (v : Vertex) : Bool :=
  constraint.conditions = [] || matchesProbe constraint v.labels v.properties.find?

/-- The visit of one vertex by `scan_shard`. -/
def scanVertex (d : DoubleArithmetic) (spec : AggregateSpec) (p : AggregatePartial) (v : Vertex) :
    AggregatePartial :=
  if scanMatches spec.constraint v = false then p
  else
    let counted := { p with matched := p.matched + 1 }
    if spec.function = .count then counted
    else
      match v.properties.find? spec.property with
      | none => counted
      | some value =>
        aggregateAccumulate d { counted with valued := counted.valued + 1 } spec.function value

/-- `scan_shard`. -/
def scanShard (d : DoubleArithmetic) (spec : AggregateSpec) (shard : List Vertex) :
    AggregatePartial :=
  shard.foldl (scanVertex d spec) {}

/-- The totals of the merge; an error ends it. -/
structure MergedAggregate where
  matched : Nat := 0
  valued : Nat := 0
  intTotal : BitVec 64 := 0
  doubleTotal : BitVec 64 := 0
  hasExtreme : Bool := false
  extreme : PropertyValue := .none
  status : GdiStatus := .ok

/-- One partial of the merge. -/
def mergePartial (d : DoubleArithmetic) (function : GdiAggregate) (m : MergedAggregate)
    (p : AggregatePartial) : MergedAggregate :=
  if m.status.isError then m
  else if p.status.isError then { m with status := p.status }
  else
    let added :=
      { m with
        matched := m.matched + p.matched
        valued := m.valued + p.valued
        intTotal := m.intTotal + p.intSum
        doubleTotal := d.add m.doubleTotal p.doubleSum }
    if p.hasExtreme = false then added
    else if m.hasExtreme = false then { added with extreme := p.extreme, hasExtreme := true }
    else
      match compareValues p.extreme m.extreme with
      | none => { added with status := .errorDatatype }
      | some order => if takes function order then { added with extreme := p.extreme } else added

/-- What the legality matrix allows for a declaration. -/
def reductionLegal (function : GdiAggregate) (declaration : PropertyTypeInfo) : Bool :=
  let scalar := decide (declaration.container = .single)
  let numeric := decide (declaration.data = .int64) || decide (declaration.data = .double)
  if function = .min ∨ function = .max then
    scalar && (numeric || decide (declaration.data = .char))
  else scalar && numeric

/-- The checks of `aggregate_vertices` before the scan. -/
def aggregateStatus (db : Database) (spec : AggregateSpec) : GdiStatus :=
  if spec.function matches .unnamed _ then .errorArgument
  else if spec.constraint.conditions.any (·.isLabelOrdering) then .errorOp
  else if spec.function = .count then .ok
  else if spec.property = kNoPropName then .errorArgument
  else if db.schema.hasPropertyType spec.property = false then .errorPropertyType
  else if reductionLegal spec.function (db.schema.propertyType spec.property) = false then .errorOp
  else .ok

/-- The payload of a finished aggregate. -/
def aggregatePayload (d : DoubleArithmetic) (function : GdiAggregate) (declared : GdiDataType)
    (m : MergedAggregate) : Bool × PropertyValue :=
  match function with
  | .count => if 0 < m.matched then (true, .int64Value (BitVec.ofNat 64 m.matched)) else (false, .none)
  | .min | .max => if m.hasExtreme then (true, m.extreme) else (false, .none)
  | .sum =>
    if 0 < m.valued then
      (true, if declared = .double then .doubleValue m.doubleTotal else .int64Value m.intTotal)
    else (false, .none)
  | .avg =>
    if 0 < m.valued then
      (true, .doubleValue (d.div (d.add (doubleOfInt64 m.intTotal) m.doubleTotal)
        (d.ofNat m.valued)))
    else (false, .none)
  | .unnamed _ => (false, .none)

/-- A division of the vertices among the shards, with an order for each. -/
structure ScanOrder (g : Graph) where
  shards : List (List Vertex)
  perm : shards.flatten.Perm (g.vertices.toList.map Prod.snd)

theorem flatMap_filter_perm {α : Type} (key : α → Nat) (l : List α) (n : Nat) :
    ((List.range n).flatMap fun i => l.filter fun x => decide (key x = i)).Perm
      (l.filter fun x => decide (key x < n)) := by
  induction n with
  | zero => simp
  | succ n ih =>
    have hsplit := List.filter_append_perm (fun x => decide (key x < n))
      (l.filter fun x => decide (key x < n + 1))
    rw [List.filter_filter, List.filter_filter] at hsplit
    have hlow : (l.filter fun x => decide (key x < n) && decide (key x < n + 1)) =
        l.filter fun x => decide (key x < n) :=
      List.filter_congr fun x _ => by simp only [← Bool.decide_and]; congr 1; simp; omega
    have hlast : (l.filter fun x => !decide (key x < n) && decide (key x < n + 1)) =
        l.filter fun x => decide (key x = n) :=
      List.filter_congr fun x _ => by
        simp only [← decide_not, ← Bool.decide_and]; congr 1; simp; omega
    rw [hlow, hlast] at hsplit
    rw [List.range_succ, List.flatMap_append, List.flatMap_singleton]
    exact (ih.append_right _).trans hsplit

/-- The shards of the graph: a vertex lies in the shard of its guid. -/
def shardScan (g : Graph) : ScanOrder g where
  shards := (List.range kGraphShardCount).map fun i =>
    (g.vertices.toList.filter fun p => decide (Graph.shardOf p.1 = i)).map Prod.snd
  perm := by
    have hperm := (flatMap_filter_perm (fun p : Guid × Vertex => Graph.shardOf p.1)
      g.vertices.toList kGraphShardCount).map Prod.snd
    rw [List.filter_eq_self.mpr fun p _ => decide_eq_true (Graph.shardOf_lt p.1)] at hperm
    rwa [List.flatMap_def, List.map_flatten, List.map_map] at hperm

/-- `aggregate_vertices`. -/
def aggregateVertices (d : DoubleArithmetic) (db : Database) (scan : ScanOrder db.graph)
    (spec : AggregateSpec) : GdiStatus × AggregateResult :=
  if (db.aggregateStatus spec).isError then (db.aggregateStatus spec, {})
  else
    let m := (scan.shards.map (scanShard d spec)).foldl (mergePartial d spec.function) {}
    if m.status.isError then (m.status, { matched := m.matched, valued := m.valued })
    else
      let declared := (db.schema.propertyType spec.property).data
      let payload := aggregatePayload d spec.function declared m
      (.ok, { matched := m.matched, valued := m.valued, hasValue := payload.1, value := payload.2 })

end Database

/-! ## The order of values -/

/-- The order of two integers or of two texts. -/
def PropertyValue.Le : PropertyValue → PropertyValue → Prop
  | .int64Value a, .int64Value b => a.toInt ≤ b.toInt
  | .string a, .string b => textKey a ≤ textKey b
  | _, _ => False

/-- The value a reduction prefers comes first. -/
def Precedes (function : GdiAggregate) (v w : PropertyValue) : Prop :=
  if function = .min then v.Le w else w.Le v

/-- The values are those of one order, as the reduction needs. -/
def Reducible (function : GdiAggregate) (values : List PropertyValue) : Prop :=
  match function with
  | .count => True
  | .min | .max => (∀ v ∈ values, ∃ z, v = .int64Value z) ∨ ∀ v ∈ values, ∃ t, v = .string t
  | .sum => ∀ v ∈ values, ∃ z, v = .int64Value z
  | .avg => False
  | .unnamed _ => False

theorem Reducible.mono {function : GdiAggregate} {values values' : List PropertyValue}
    (h : Reducible function values) (hsub : values' ⊆ values) : Reducible function values' := by
  cases function with
  | count => exact trivial
  | sum => exact fun v hv => h v (hsub hv)
  | min => exact h.imp (fun h v hv => h v (hsub hv)) fun h v hv => h v (hsub hv)
  | max => exact h.imp (fun h v hv => h v (hsub hv)) fun h v hv => h v (hsub hv)
  | avg => exact h
  | unnamed code => exact h

/-- A function that prefers a smallest or a largest value. -/
def Extremal (function : GdiAggregate) : Prop := function = .min ∨ function = .max

theorem takes_threeWay {α : Type} [LinearOrder α] {function : GdiAggregate}
    (hf : Extremal function) {a b : α} {less greater : Bool} (hless : less = true ↔ a < b)
    (hgreater : greater = true ↔ b < a) :
    (takes function (threeWay less greater) = true → if function = .min then a ≤ b else b ≤ a) ∧
    (takes function (threeWay less greater) = false → if function = .min then b ≤ a else a ≤ b) := by
  rcases lt_trichotomy a b with hlt | rfl | hlt
  · obtain rfl := hless.mpr hlt
    rcases hf with rfl | rfl <;> simp [takes, threeWay, hlt.le]
  · obtain rfl : less = false := Bool.eq_false_iff.mpr fun h => lt_irrefl a (hless.mp h)
    obtain rfl : greater = false := Bool.eq_false_iff.mpr fun h => lt_irrefl a (hgreater.mp h)
    rcases hf with rfl | rfl <;> simp [takes, threeWay]
  · obtain rfl : less = false := Bool.eq_false_iff.mpr fun h => lt_asymm hlt (hless.mp h)
    obtain rfl := hgreater.mpr hlt
    rcases hf with rfl | rfl <;> simp [takes, threeWay, hlt.le]

section Order

variable {function : GdiAggregate} {values : List PropertyValue} {u v w : PropertyValue}

/-- Values of one order compare, and the one that is taken precedes. -/
theorem Reducible.compare (hf : Extremal function) (h : Reducible function values)
    (hv : v ∈ values) (hw : w ∈ values) :
    ∃ order, compareValues v w = some order ∧
      (takes function order = true → Precedes function v w) ∧
      (takes function order = false → Precedes function w v) := by
  have hkinds : (∀ v ∈ values, ∃ z, v = .int64Value z) ∨ ∀ v ∈ values, ∃ t, v = .string t := by
    rcases hf with rfl | rfl <;> exact h
  rcases hkinds with hint | htext
  · obtain ⟨a, rfl⟩ := hint v hv
    obtain ⟨b, rfl⟩ := hint w hw
    exact ⟨_, rfl, takes_threeWay hf decide_eq_true_iff decide_eq_true_iff⟩
  · obtain ⟨a, rfl⟩ := htext v hv
    obtain ⟨b, rfl⟩ := htext w hw
    exact ⟨_, rfl, takes_threeWay hf decide_eq_true_iff decide_eq_true_iff⟩

theorem PropertyValue.Le.trans (h : u.Le v) (h' : v.Le w) : u.Le w := by
  cases u <;> cases v <;> cases w <;> first | exact h.elim | exact h'.elim | exact le_trans h h'

theorem PropertyValue.Le.antisymm (h : v.Le w) (h' : w.Le v) : v = w := by
  cases v <;> cases w <;> first | exact h.elim | skip
  · exact congrArg _ (BitVec.eq_of_toInt_eq (le_antisymm h h'))
  · exact congrArg _ (textKey_injective (le_antisymm h h'))

theorem Precedes.trans (h : Precedes function u v) (h' : Precedes function v w) :
    Precedes function u w := by
  rw [Precedes] at *
  split_ifs at * with hmin
  · exact h.trans h'
  · exact h'.trans h

theorem Precedes.antisymm (h : Precedes function v w) (h' : Precedes function w v) : v = w := by
  rw [Precedes] at *
  split_ifs at * with hmin
  · exact h.antisymm h'
  · exact h'.antisymm h

theorem Reducible.precedes_self (hf : Extremal function) (h : Reducible function values)
    (hv : v ∈ values) : Precedes function v v := by
  obtain ⟨order, -, htake, hkeep⟩ := h.compare hf hv hv
  cases ht : takes function order with
  | true => exact htake ht
  | false => exact hkeep ht

end Order

/-! ## Reductions of lists of values -/

/-- The sum of the integers, in 64 bits. -/
def int64Sum (values : List PropertyValue) : BitVec 64 :=
  values.foldr (fun v total => v.asInt64 + total) 0#64

/-- The sum of the integers. -/
def exactSum (values : List PropertyValue) : Int :=
  values.foldr (fun v total => v.asInt64.toInt + total) 0

theorem int64Sum_append (values values' : List PropertyValue) :
    int64Sum (values ++ values') = int64Sum values + int64Sum values' := by
  induction values with
  | nil => exact (BitVec.zero_add _).symm
  | cons v rest ih => exact (congrArg (v.asInt64 + ·) ih).trans (BitVec.add_assoc ..).symm

theorem exactSum_perm {values values' : List PropertyValue} (h : values.Perm values') :
    exactSum values = exactSum values' := by
  induction h with
  | nil => rfl
  | cons v _ ih => exact congrArg (v.asInt64.toInt + ·) ih
  | swap v w rest => exact Int.add_left_comm ..
  | trans _ _ ih ih' => exact ih.trans ih'

/-- The 64-bit sum is the sum of the integers, reduced to 64 bits. -/
theorem toInt_int64Sum (values : List PropertyValue) :
    (int64Sum values).toInt = (exactSum values).bmod (2 ^ 64) := by
  induction values with
  | nil => rfl
  | cons v rest ih =>
    have hsum : exactSum (v :: rest) = v.asInt64.toInt + exactSum rest := rfl
    have hbits : int64Sum (v :: rest) = v.asInt64 + int64Sum rest := rfl
    rw [hbits, BitVec.toInt_add, ih, Int.add_bmod_bmod, hsum]

/-- The buckets hold the reduction of the values. -/
structure Reduced (function : GdiAggregate) (values : List PropertyValue) (intSum : BitVec 64)
    (hasExtreme : Bool) (extreme : PropertyValue) : Prop where
  sum : function = .sum → intSum = int64Sum values
  none : Extremal function → hasExtreme = false → values = []
  some : hasExtreme = true →
    Extremal function ∧ extreme ∈ values ∧ ∀ w ∈ values, Precedes function extreme w

namespace Reduced

variable {function : GdiAggregate} {values values' : List PropertyValue} {intSum intSum' : BitVec 64}
  {hasExtreme hasExtreme' : Bool} {extreme extreme' : PropertyValue}

theorem nil (function : GdiAggregate) (extreme : PropertyValue) :
    Reduced function [] 0 false extreme :=
  ⟨fun _ => rfl, fun _ _ => rfl, fun h => by cases h⟩

theorem count (values : List PropertyValue) (intSum : BitVec 64) (extreme : PropertyValue) :
    Reduced .count values intSum false extreme :=
  ⟨nofun, fun hf => absurd hf (by simp [Extremal]), fun h => by cases h⟩

theorem integer (z : BitVec 64) (extreme : PropertyValue) :
    Reduced .sum [.int64Value z] z false extreme :=
  ⟨fun _ => (BitVec.add_zero z).symm, fun hf => absurd hf (by simp [Extremal]),
    fun h => by cases h⟩

theorem single (hf : Extremal function) {v : PropertyValue} (hreducible : Reducible function [v])
    (intSum : BitVec 64) : Reduced function [v] intSum true v := by
  refine ⟨(fun hsum => by rcases hf with rfl | rfl <;> cases hsum), (fun _ h => by cases h),
    fun _ => ⟨hf, List.mem_singleton_self v, ?_⟩⟩
  intro w hw
  obtain rfl := List.mem_singleton.mp hw
  exact hreducible.precedes_self hf hw

/-- Only the extreme matters to a smallest or a largest value. -/
theorem congr_sum (h : Reduced function values intSum hasExtreme extreme)
    (hf : Extremal function) (intSum' : BitVec 64) :
    Reduced function values intSum' hasExtreme extreme :=
  ⟨(fun hsum => by rcases hf with rfl | rfl <;> cases hsum), h.none, h.some⟩

/-- The empty side of a merge. -/
theorem append_none (h : Reduced function values intSum hasExtreme extreme)
    (h' : Reduced function values' intSum' false extreme') :
    Reduced function (values ++ values') (intSum + intSum') hasExtreme extreme := by
  refine ⟨fun hf => ?_, fun hf hnone => ?_, fun hsome => ?_⟩
  · rw [int64Sum_append, h.sum hf, h'.sum hf]
  · rw [h.none hf hnone, h'.none hf rfl, List.append_nil]
  · rw [h'.none (h.some hsome).1 rfl, List.append_nil]
    exact h.some hsome

theorem none_append (h : Reduced function values intSum false extreme)
    (h' : Reduced function values' intSum' hasExtreme' extreme') :
    Reduced function (values ++ values') (intSum + intSum') hasExtreme' extreme' := by
  refine ⟨fun hf => ?_, fun hf hnone => ?_, fun hsome => ?_⟩
  · rw [int64Sum_append, h.sum hf, h'.sum hf]
  · rw [h.none hf rfl, h'.none hf hnone, List.nil_append]
  · rw [h.none (h'.some hsome).1 rfl, List.nil_append]
    exact h'.some hsome

/-- The extreme of one part precedes the values of both, if it precedes the other extreme. -/
theorem precedes_append (h : Reduced function values intSum true extreme)
    (h' : Reduced function values' intSum' true extreme')
    (hprec : Precedes function extreme extreme') :
    ∀ w ∈ values ++ values', Precedes function extreme w := by
  intro w hw
  rcases List.mem_append.mp hw with hw | hw
  · exact (h.some rfl).2.2 w hw
  · exact hprec.trans ((h'.some rfl).2.2 w hw)

/-- The extremes of two parts compare, and the one that is taken is that of both. -/
theorem append (h : Reduced function values intSum true extreme)
    (h' : Reduced function values' intSum' true extreme')
    (hreducible : Reducible function (values ++ values')) :
    ∃ order, compareValues extreme' extreme = Option.some order ∧
      Reduced function (values ++ values') (intSum + intSum') true
        (if takes function order then extreme' else extreme) := by
  obtain ⟨hf, hmem, -⟩ := h.some rfl
  obtain ⟨-, hmem', -⟩ := h'.some rfl
  obtain ⟨order, hcompare, htake, hkeep⟩ := hreducible.compare hf
    (List.mem_append_right values hmem') (List.mem_append_left values' hmem)
  refine ⟨order, hcompare, fun hsum => ?_, (fun _ h => by cases h), fun _ => ⟨hf, ?_⟩⟩
  · rw [int64Sum_append, h.sum hsum, h'.sum hsum]
  · split
    · next ht =>
        refine ⟨List.mem_append_right values hmem', fun w hw => ?_⟩
        exact h'.precedes_append h (htake ht) w (List.mem_append.mpr (List.mem_append.mp hw).symm)
    · next ht =>
        exact ⟨List.mem_append_left values' hmem,
          h.precedes_append h' (hkeep (Bool.eq_false_iff.mpr ht))⟩

end Reduced

namespace Database

/-- The vertices that satisfy the constraint. -/
def matchedIn (constraint : Constraint) (vertices : List Vertex) : List Vertex :=
  vertices.filter fun v => matchesProbe constraint v.labels v.properties.find?

/-- The values of the property they carry. -/
def carriedIn (spec : AggregateSpec) (vertices : List Vertex) : List PropertyValue :=
  (matchedIn spec.constraint vertices).filterMap (·.properties.find? spec.property)

theorem scanMatches_eq (constraint : Constraint) (v : Vertex) :
    scanMatches constraint v = matchesProbe constraint v.labels v.properties.find? := by
  by_cases hempty : constraint.conditions = []
  · simp [scanMatches, matchesProbe, hempty]
  · simp [scanMatches, hempty]

variable {v : PropertyValue} {m : MergedAggregate}

section Scan

variable {d : DoubleArithmetic} {spec : AggregateSpec}

theorem carriedIn_append (vs ws : List Vertex) :
    carriedIn spec (vs ++ ws) = carriedIn spec vs ++ carriedIn spec ws := by
  rw [carriedIn, matchedIn, List.filter_append, List.filterMap_append]
  rfl

theorem matchedIn_append (constraint : Constraint) (vs ws : List Vertex) :
    matchedIn constraint (vs ++ ws) = matchedIn constraint vs ++ matchedIn constraint ws :=
  List.filter_append ..

/-- What is counted and reduced of the vertices. -/
structure Tallied (spec : AggregateSpec) (vertices : List Vertex) (matched valued : Nat)
    (intSum : BitVec 64) (hasExtreme : Bool) (extreme : PropertyValue) : Prop where
  matched : matched = (matchedIn spec.constraint vertices).length
  valued : valued = if spec.function = .count then 0 else (carriedIn spec vertices).length
  reduced : Reduced spec.function (carriedIn spec vertices) intSum hasExtreme extreme

/-- A partial result of some vertices, without an error. -/
def Scanned (spec : AggregateSpec) (vertices : List Vertex)
    (p : AggregatePartial) : Prop :=
  p.status = .ok ∧
    Tallied spec vertices p.matched p.valued p.intSum p.hasExtreme p.extreme

/-- One value is reduced, and nothing else changes. -/
structure Accumulated (function : GdiAggregate) (values : List PropertyValue)
    (p p' : AggregatePartial) : Prop where
  status : p'.status = p.status
  matched : p'.matched = p.matched
  valued : p'.valued = p.valued
  reduced : Reduced function values p'.intSum p'.hasExtreme p'.extreme

variable {p : AggregatePartial}

variable {function : GdiAggregate} {values : List PropertyValue}

theorem accumulate_extremal (hf : Extremal function)
    (h : Reduced function values p.intSum p.hasExtreme p.extreme)
    (hreducible : Reducible function (values ++ [v])) :
    Accumulated function (values ++ [v]) p (aggregateAccumulate d p function v) := by
  have hsingle := Reduced.single hf (hreducible.mono (List.subset_append_right values [v])) 0
  cases hhas : p.hasExtreme with
  | false =>
    rw [hhas] at h
    have happend := (h.none_append hsingle).congr_sum hf p.intSum
    rcases hf with rfl | rfl <;> simp only [aggregateAccumulate, hhas, if_true] <;>
      exact ⟨rfl, rfl, rfl, happend⟩
  | true =>
    rw [hhas] at h
    obtain ⟨order, hcompare, happend⟩ := h.append hsingle hreducible
    have hresult : aggregateAccumulate d p function v =
        if takes function order then { p with extreme := v } else p := by
      rcases hf with rfl | rfl <;> simp [aggregateAccumulate, hhas, hcompare]
    rw [hresult]
    replace happend := happend.congr_sum hf p.intSum
    cases ht : takes function order with
    | true => exact ⟨rfl, rfl, rfl, by simpa [ht, hhas] using happend⟩
    | false => exact ⟨rfl, rfl, rfl, by simpa [ht, hhas] using happend⟩

theorem accumulate_accumulated (h : Reduced function values p.intSum p.hasExtreme p.extreme)
    (hreducible : Reducible function (values ++ [v])) :
    Accumulated function (values ++ [v]) p (aggregateAccumulate d p function v) := by
  cases function with
  | min => exact accumulate_extremal (Or.inl rfl) h hreducible
  | max => exact accumulate_extremal (Or.inr rfl) h hreducible
  | count =>
    cases hhas : p.hasExtreme with
    | false => exact ⟨rfl, rfl, rfl, hhas ▸ Reduced.count _ _ _⟩
    | true => exact absurd (h.some hhas).1 (by simp [Extremal])
  | sum =>
    obtain ⟨z, rfl⟩ := hreducible v (by simp)
    exact ⟨rfl, rfl, rfl, h.append_none (Reduced.integer z .none)⟩
  | avg => exact hreducible.elim
  | unnamed code => exact hreducible.elim

theorem scanVertex_scanned {vertices : List Vertex} {v : Vertex} (h : Scanned spec vertices p)
    (hreducible : Reducible spec.function (carriedIn spec (vertices ++ [v]))) :
    Scanned spec (vertices ++ [v]) (scanVertex d spec p v) := by
  obtain ⟨hstatus, hmatched, hvalued, hreduced⟩ := h
  rw [carriedIn_append] at hreducible
  rw [Scanned, scanVertex, scanMatches_eq]
  cases hprobe : matchesProbe spec.constraint v.labels v.properties.find? with
  | false =>
    have hnone : matchedIn spec.constraint [v] = [] := by simp [matchedIn, hprobe]
    have hempty : carriedIn spec [v] = [] := by rw [carriedIn, hnone, List.filterMap_nil]
    rw [if_pos rfl]
    exact ⟨hstatus, by rw [matchedIn_append, hnone, List.append_nil, hmatched],
      by rw [carriedIn_append, hempty, List.append_nil, hvalued],
      by rwa [carriedIn_append, hempty, List.append_nil]⟩
  | true =>
    have hone : matchedIn spec.constraint [v] = [v] := by simp [matchedIn, hprobe]
    have hcount : (matchedIn spec.constraint (vertices ++ [v])).length = p.matched + 1 := by
      rw [matchedIn_append, hone, List.length_append, hmatched, List.length_singleton]
    rw [if_neg (by simp)]
    dsimp only
    by_cases hf : spec.function = .count
    · rw [if_pos hf]
      refine ⟨hstatus, hcount.symm, by rw [hvalued, if_pos hf, if_pos hf], ?_⟩
      rw [hf] at hreduced ⊢
      dsimp only
      cases hhas : p.hasExtreme with
      | false => exact Reduced.count _ _ _
      | true => exact absurd (hreduced.some hhas).1 (by simp [Extremal])
    · rw [if_neg hf]
      rw [if_neg hf] at hvalued
      cases hfind : v.properties.find? spec.property with
      | none =>
        have hempty : carriedIn spec [v] = [] := by
          simp [carriedIn, hone, hfind]
        exact ⟨hstatus, hcount.symm,
          by rw [carriedIn_append, hempty, List.append_nil, if_neg hf, hvalued],
          by rwa [carriedIn_append, hempty, List.append_nil]⟩
      | some value =>
        have hvalue : carriedIn spec [v] = [value] := by
          simp [carriedIn, hone, hfind]
        rw [hvalue] at hreducible
        obtain ⟨hstatus', hmatched', hvalued', hreduced'⟩ :=
          accumulate_accumulated (d := d) (p := { p with
            matched := p.matched + 1, valued := p.valued + 1 }) hreduced hreducible
        refine ⟨hstatus'.trans hstatus, hmatched'.trans hcount.symm, ?_, ?_⟩
        · rw [carriedIn_append, hvalue, List.length_append, ← hvalued, if_neg hf]
          exact hvalued'
        · rw [carriedIn_append, hvalue]
          exact hreduced'

/-- A shard's partial result is that of its vertices. -/
theorem scanShard_scanned {shard : List Vertex}
    (hreducible : Reducible spec.function (carriedIn spec shard)) :
    Scanned spec shard (scanShard d spec shard) := by
  induction shard using List.reverseRecOn with
  | nil => exact ⟨rfl, rfl, (ite_self 0).symm, Reduced.nil _ _⟩
  | append_singleton vertices v ih =>
    have hbefore := ih (hreducible.mono (by
      rw [carriedIn_append]
      exact List.subset_append_left _ _))
    rw [scanShard, List.foldl_append]
    exact scanVertex_scanned hbefore hreducible

/-- Merged totals of some vertices, without an error. -/
def Merged (spec : AggregateSpec) (vertices : List Vertex)
    (m : MergedAggregate) : Prop :=
  m.status = .ok ∧
    Tallied spec vertices m.matched m.valued m.intTotal m.hasExtreme m.extreme

/-- One partial result is merged. -/
theorem mergePartial_merged {vertices shard : List Vertex} (h : Merged spec vertices m)
    (hp : Scanned spec shard p)
    (hreducible : Reducible spec.function (carriedIn spec (vertices ++ shard))) :
    Merged spec (vertices ++ shard) (mergePartial d spec.function m p) := by
  obtain ⟨hstatus, hmatched, hvalued, hreduced⟩ := h
  obtain ⟨hpstatus, hpmatched, hpvalued, hpreduced⟩ := hp
  rw [carriedIn_append] at hreducible
  have hcount : (matchedIn spec.constraint (vertices ++ shard)).length = m.matched + p.matched := by
    rw [matchedIn_append, List.length_append, hmatched, hpmatched]
  have hcarried : m.valued + p.valued =
      if spec.function = .count then 0 else (carriedIn spec (vertices ++ shard)).length := by
    rw [carriedIn_append, List.length_append, hvalued, hpvalued]
    split <;> simp
  rw [← carriedIn_append] at hreducible
  rw [mergePartial, if_neg (by simp [hstatus, GdiStatus.isError]),
    if_neg (by simp [hpstatus, GdiStatus.isError])]
  cases hphas : p.hasExtreme with
  | false =>
    rw [hphas] at hpreduced
    refine ⟨hstatus, hcount.symm, hcarried, ?_⟩
    rw [carriedIn_append]
    exact hreduced.append_none hpreduced
  | true =>
    rw [hphas] at hpreduced
    cases hhas : m.hasExtreme with
    | false =>
      rw [hhas] at hreduced
      refine ⟨hstatus, hcount.symm, hcarried, ?_⟩
      rw [carriedIn_append]
      exact hreduced.none_append hpreduced
    | true =>
      rw [hhas] at hreduced
      obtain ⟨order, hcompare, happend⟩ := hreduced.append hpreduced
        (carriedIn_append vertices shard ▸ hreducible)
      rw [← carriedIn_append] at happend
      simp only [Bool.true_eq_false, if_false, hcompare]
      cases ht : takes spec.function order with
      | true => exact ⟨hstatus, hcount.symm, hcarried, by simpa [ht, hhas] using happend⟩
      | false => exact ⟨hstatus, hcount.symm, hcarried, by simpa [ht, hhas] using happend⟩

/-- The merge of the shards is the result of all their vertices. -/
theorem mergePartials_merged {shards : List (List Vertex)}
    (hreducible : Reducible spec.function (carriedIn spec shards.flatten)) :
    Merged spec shards.flatten
      ((shards.map (scanShard d spec)).foldl (mergePartial d spec.function) {}) := by
  induction shards using List.reverseRecOn with
  | nil => exact ⟨rfl, rfl, (ite_self 0).symm, Reduced.nil _ _⟩
  | append_singleton shards shard ih =>
    rw [List.flatten_append, List.flatten_singleton] at hreducible ⊢
    rw [List.map_append, List.foldl_append]
    rw [carriedIn_append] at hreducible
    have hbefore := ih (hreducible.mono (List.subset_append_left _ _))
    have hshard := scanShard_scanned (d := d)
      (hreducible.mono (List.subset_append_right _ _))
    exact mergePartial_merged hbefore hshard (carriedIn_append _ _ ▸ hreducible)

end Scan

/-! ## The aggregate of the whole graph -/

/-- Every vertex of the graph. -/
def allVertices (g : Graph) : List Vertex := g.vertices.toList.map Prod.snd

/-- The declaration is one whose values the reduction counts, orders or adds as integers or
texts. -/
def Covered (db : Database) (spec : AggregateSpec) : Prop :=
  let declaration := db.schema.propertyType spec.property
  let declared := spec.property ≠ kNoPropName ∧ db.schema.hasPropertyType spec.property = true ∧
    declaration.container = .single
  match spec.function with
  | .count => True
  | .min | .max => declared ∧ (declaration.data = .int64 ∨ declaration.data = .char)
  | .sum => declared ∧ declaration.data = .int64
  | .avg => False
  | .unnamed _ => False

/-- The carried values match the declaration, as a validated write leaves them. -/
def WellTyped (db : Database) (spec : AggregateSpec) : Prop :=
  spec.function ≠ .count →
    ∀ v ∈ carriedIn spec (allVertices db.graph),
      v.matchesDeclaration (db.schema.propertyType spec.property).container
        (db.schema.propertyType spec.property).data
        (db.schema.propertyType spec.property).sizeType
        (db.schema.propertyType spec.property).count = true

/-- The mathematical aggregate. -/
structure IsAggregate (db : Database) (spec : AggregateSpec) (r : AggregateResult) : Prop where
  matched : r.matched = (matchedIn spec.constraint (allVertices db.graph)).length
  valued : r.valued =
    if spec.function = .count then 0 else (carriedIn spec (allVertices db.graph)).length
  count : spec.function = .count →
    (r.hasValue, r.value) =
      if 0 < r.matched then (true, .int64Value (BitVec.ofNat 64 r.matched)) else (false, .none)
  empty : spec.function ≠ .count → carriedIn spec (allVertices db.graph) = [] →
    (r.hasValue, r.value) = (false, .none)
  extreme : Extremal spec.function → carriedIn spec (allVertices db.graph) ≠ [] →
    r.hasValue = true ∧ r.value ∈ carriedIn spec (allVertices db.graph) ∧
      ∀ w ∈ carriedIn spec (allVertices db.graph), Precedes spec.function r.value w
  sum : spec.function = .sum → carriedIn spec (allVertices db.graph) ≠ [] →
    r.hasValue = true ∧
      ∃ z, r.value = .int64Value z ∧ z.toInt = exactSum (carriedIn spec (allVertices db.graph))

variable {count : BitVec 32} {sizeType : GdiSizeType}

theorem matchesDeclaration_int64 (h : v.matchesDeclaration .single .int64 sizeType count = true) :
    ∃ z, v = .int64Value z := by
  cases v with
  | int64Value z => exact ⟨z, rfl⟩
  | _ => simp [PropertyValue.matchesDeclaration, PropertyValue.kind, PropertyValue.isArray,
      PropertyValue.dataType, GdiDataType.int64, GdiDataType.double, GdiDataType.char,
      GdiDataType.byte] at h

theorem matchesDeclaration_char (h : v.matchesDeclaration .single .char sizeType count = true) :
    ∃ t, v = .string t := by
  cases v with
  | string t => exact ⟨t, rfl⟩
  | _ => simp [PropertyValue.matchesDeclaration, PropertyValue.kind, PropertyValue.isArray,
      PropertyValue.dataType, GdiDataType.int64, GdiDataType.double, GdiDataType.char,
      GdiDataType.byte] at h

section Whole

variable {d : DoubleArithmetic} {db : Database} {spec : AggregateSpec}

theorem aggregateStatus_ok (hcovered : db.Covered spec)
    (hconstraint : spec.constraint.conditions.any (·.isLabelOrdering) = false) :
    db.aggregateStatus spec = .ok := by
  obtain ⟨constraint, property, function⟩ := spec
  cases function with
  | count => simp [aggregateStatus, hconstraint]
  | min =>
    obtain ⟨⟨hname, hhas, hsingle⟩, hdata⟩ := hcovered
    rcases hdata with hdata | hdata <;>
      simp [aggregateStatus, hconstraint, reductionLegal, hname, hhas, hsingle, hdata]
  | max =>
    obtain ⟨⟨hname, hhas, hsingle⟩, hdata⟩ := hcovered
    rcases hdata with hdata | hdata <;>
      simp [aggregateStatus, hconstraint, reductionLegal, hname, hhas, hsingle, hdata]
  | sum =>
    obtain ⟨⟨hname, hhas, hsingle⟩, hdata⟩ := hcovered
    simp [aggregateStatus, hconstraint, reductionLegal, hname, hhas, hsingle, hdata]
  | avg => exact hcovered.elim
  | unnamed code => exact hcovered.elim

theorem reducible_of_wellTyped (hcovered : db.Covered spec) (htyped : db.WellTyped spec) :
    Reducible spec.function (carriedIn spec (allVertices db.graph)) := by
  obtain ⟨constraint, property, function⟩ := spec
  have hordered : function = .min ∨ function = .max →
      (db.schema.propertyType property).container = .single ∧
        ((db.schema.propertyType property).data = .int64 ∨
          (db.schema.propertyType property).data = .char) →
      (∀ v ∈ carriedIn ⟨constraint, property, function⟩ (allVertices db.graph),
        ∃ z, v = .int64Value z) ∨
      ∀ v ∈ carriedIn ⟨constraint, property, function⟩ (allVertices db.graph),
        ∃ t, v = .string t := by
    rintro hf ⟨hsingle, hdata⟩
    have hvalues := htyped (by rcases hf with rfl | rfl <;> simp)
    rcases hdata with hdata | hdata
    · refine Or.inl fun v hv => ?_
      have hv' := hvalues v hv
      rw [hsingle, hdata] at hv'
      exact matchesDeclaration_int64 hv'
    · refine Or.inr fun v hv => ?_
      have hv' := hvalues v hv
      rw [hsingle, hdata] at hv'
      exact matchesDeclaration_char hv'
  cases function with
  | count => exact trivial
  | min => exact hordered (Or.inl rfl) ⟨hcovered.1.2.2, hcovered.2⟩
  | max => exact hordered (Or.inr rfl) ⟨hcovered.1.2.2, hcovered.2⟩
  | sum =>
    intro v hv
    have hv' := htyped (by simp) v hv
    rw [hcovered.1.2.2, hcovered.2] at hv'
    exact matchesDeclaration_int64 hv'
  | avg => exact hcovered.elim
  | unnamed code => exact hcovered.elim

theorem matchedIn_perm {constraint : Constraint} {vs ws : List Vertex} (h : vs.Perm ws) :
    (matchedIn constraint vs).Perm (matchedIn constraint ws) := h.filter _

theorem carriedIn_perm (spec : AggregateSpec) {vs ws : List Vertex} (h : vs.Perm ws) :
    (carriedIn spec vs).Perm (carriedIn spec ws) := (matchedIn_perm h).filterMap _

/-- Totals do not depend on the order of the vertices. -/
theorem Merged.perm {vs ws : List Vertex} (h : Merged spec vs m) (hperm : vs.Perm ws) :
    Merged spec ws m := by
  obtain ⟨hstatus, hmatched, hvalued, hreduced⟩ := h
  have hcarried := carriedIn_perm spec hperm
  refine ⟨hstatus, hmatched.trans (matchedIn_perm hperm).length_eq, ?_, ?_, ?_, ?_⟩
  · rw [hvalued, hcarried.length_eq]
  · intro hf
    refine (hreduced.sum hf).trans (BitVec.eq_of_toInt_eq ?_)
    rw [toInt_int64Sum, toInt_int64Sum, exactSum_perm hcarried]
  · intro hf hnone
    have hnil := hreduced.none hf hnone
    rw [hnil] at hcarried
    exact hcarried.nil_eq.symm
  · intro hsome
    obtain ⟨hf, hmem, hprec⟩ := hreduced.some hsome
    exact ⟨hf, hcarried.subset hmem, fun w hw => hprec w (hcarried.symm.subset hw)⟩

/-- The payload of totals without an error. -/
def payloadResult (d : DoubleArithmetic) (db : Database) (spec : AggregateSpec)
    (m : MergedAggregate) : AggregateResult where
  matched := m.matched
  valued := m.valued
  hasValue := (aggregatePayload d spec.function (db.schema.propertyType spec.property).data m).1
  value := (aggregatePayload d spec.function (db.schema.propertyType spec.property).data m).2

theorem Merged.count_isAggregate (h : Merged spec (allVertices db.graph) m)
    (hf : spec.function = .count) : db.IsAggregate spec (payloadResult d db spec m) := by
  refine ⟨h.2.matched, h.2.valued, fun _ => ?_, fun hne => absurd hf hne,
    fun hext => absurd (hf ▸ hext) (by simp [Extremal]), fun hsum => by simp [hf] at hsum⟩
  simp only [payloadResult, hf, aggregatePayload]

theorem Merged.extreme_isAggregate (h : Merged spec (allVertices db.graph) m)
    (hf : Extremal spec.function) : db.IsAggregate spec (payloadResult d db spec m) := by
  have hpayload : aggregatePayload d spec.function (db.schema.propertyType spec.property).data m =
      if m.hasExtreme then (true, m.extreme) else (false, .none) := by
    rcases hf with hf | hf <;> rw [hf] <;> rfl
  refine ⟨h.2.matched, h.2.valued, fun hcount => ?_, fun _ hempty => ?_, fun _ hne => ?_,
    fun hsum => ?_⟩
  · exact absurd (hcount ▸ hf) (by simp [Extremal])
  · have hhas : m.hasExtreme = false := by
      by_contra hsome
      have hmem := (h.2.reduced.some (by simpa using hsome)).2.1
      simp [hempty] at hmem
    simp only [payloadResult, hpayload, hhas, Bool.false_eq_true, if_false]
  · have hhas : m.hasExtreme = true := by
      by_contra hnone
      exact hne (h.2.reduced.none hf (by simpa using hnone))
    simp only [payloadResult, hpayload, hhas, if_true]
    exact ⟨trivial, (h.2.reduced.some hhas).2⟩
  · exact absurd (hsum ▸ hf) (by simp [Extremal])

theorem Merged.sum_isAggregate (h : Merged spec (allVertices db.graph) m)
    (hf : spec.function = .sum) (hint : (db.schema.propertyType spec.property).data = .int64)
    (hlow : -2 ^ 63 ≤ exactSum (carriedIn spec (allVertices db.graph)))
    (hhigh : exactSum (carriedIn spec (allVertices db.graph)) < 2 ^ 63) :
    db.IsAggregate spec (payloadResult d db spec m) := by
  have hvalued : m.valued = (carriedIn spec (allVertices db.graph)).length := by
    rw [h.2.valued, hf, if_neg (by simp)]
  have hpayload : aggregatePayload d spec.function (db.schema.propertyType spec.property).data m =
      if 0 < m.valued then (true, .int64Value m.intTotal) else (false, .none) := by
    simp [hf, hint, aggregatePayload, GdiDataType.int64, GdiDataType.double]
  refine ⟨h.2.matched, h.2.valued, fun hcount => ?_, fun _ hempty => ?_, fun hext => ?_,
    fun _ hne => ?_⟩
  · simp [hf] at hcount
  · simp [payloadResult, hpayload, hvalued, hempty]
  · exact absurd (hf ▸ hext) (by simp [Extremal])
  · have hpos : 0 < m.valued := hvalued ▸ List.length_pos_iff.mpr hne
    simp only [payloadResult, hpayload, if_pos hpos]
    refine ⟨trivial, _, rfl, ?_⟩
    rw [h.2.reduced.sum hf, toInt_int64Sum]
    exact Int.bmod_eq_of_le (by simpa using hlow) (by simpa using hhigh)

/-- At most one result is the aggregate. -/
theorem IsAggregate.unique {r r' : AggregateResult} (hcovered : db.Covered spec)
    (h : db.IsAggregate spec r) (h' : db.IsAggregate spec r') : r = r' := by
  have hmatched : r.matched = r'.matched := h.matched.trans h'.matched.symm
  have hvalued : r.valued = r'.valued := h.valued.trans h'.valued.symm
  have hvalue : (r.hasValue, r.value) = (r'.hasValue, r'.value) := by
    by_cases hcount : spec.function = .count
    · rw [h.count hcount, h'.count hcount, hmatched]
    · by_cases hempty : carriedIn spec (allVertices db.graph) = []
      · rw [h.empty hcount hempty, h'.empty hcount hempty]
      · by_cases hext : Extremal spec.function
        · obtain ⟨hhas, hmem, hprec⟩ := h.extreme hext hempty
          obtain ⟨hhas', hmem', hprec'⟩ := h'.extreme hext hempty
          rw [hhas, hhas', (hprec r'.value hmem').antisymm (hprec' r.value hmem)]
        · have hsum : spec.function = .sum := by
            rw [Covered] at hcovered
            cases hf : spec.function <;> simp_all [Extremal]
          obtain ⟨hhas, z, hz, hexact⟩ := h.sum hsum hempty
          obtain ⟨hhas', z', hz', hexact'⟩ := h'.sum hsum hempty
          rw [hhas, hhas', hz, hz', BitVec.eq_of_toInt_eq (hexact.trans hexact'.symm)]
  obtain ⟨hhas, hval⟩ := Prod.mk.inj hvalue
  cases r
  cases r'
  simp_all

theorem aggregateVertices_eq (scan : ScanOrder db.graph) (hcovered : db.Covered spec)
    (hconstraint : spec.constraint.conditions.any (·.isLabelOrdering) = false)
    (htyped : db.WellTyped spec) :
    ∃ m, Merged spec (allVertices db.graph) m ∧
      aggregateVertices d db scan spec = (.ok, payloadResult d db spec m) := by
  have hreducible := reducible_of_wellTyped hcovered htyped
  have hperm : scan.shards.flatten.Perm (allVertices db.graph) := scan.perm
  have hmerged := mergePartials_merged (d := d)
    (hreducible.mono (carriedIn_perm spec hperm).subset)
  refine ⟨_, hmerged.perm hperm, ?_⟩
  have hok := congrArg GdiStatus.isError hmerged.1
  rw [aggregateVertices, aggregateStatus_ok hcovered hconstraint, if_neg (by simp [GdiStatus.isError])]
  exact if_neg (by rw [hok]; simp [GdiStatus.isError])

end Whole

/-- The aggregate is that of the vertices as a whole, whatever the shards hold and in whatever
order they are scanned. -/
theorem aggregateVertices_isAggregate (d : DoubleArithmetic) (db : Database)
    (spec : AggregateSpec) (hcovered : db.Covered spec)
    (hconstraint : spec.constraint.conditions.any (·.isLabelOrdering) = false)
    (htyped : db.WellTyped spec)
    (hfits : spec.function = .sum →
      -2 ^ 63 ≤ exactSum (carriedIn spec (allVertices db.graph)) ∧
        exactSum (carriedIn spec (allVertices db.graph)) < 2 ^ 63) :
    ∃ r, db.IsAggregate spec r ∧
      ∀ scan : ScanOrder db.graph, aggregateVertices d db scan spec = (.ok, r) := by
  have hone : ∀ scan : ScanOrder db.graph, ∃ r, db.IsAggregate spec r ∧
      aggregateVertices d db scan spec = (.ok, r) := by
    intro scan
    obtain ⟨m, hmerged, heq⟩ := aggregateVertices_eq (d := d) scan hcovered hconstraint htyped
    refine ⟨_, ?_, heq⟩
    by_cases hcount : spec.function = .count
    · exact hmerged.count_isAggregate hcount
    · by_cases hext : Extremal spec.function
      · exact hmerged.extreme_isAggregate hext
      · have hsum : spec.function = .sum ∧
            (db.schema.propertyType spec.property).data = .int64 := by
          rw [Covered] at hcovered
          cases hf : spec.function <;> simp_all [Extremal]
        obtain ⟨hlow, hhigh⟩ := hfits hsum.1
        exact hmerged.sum_isAggregate hsum.1 hsum.2 hlow hhigh
  obtain ⟨r, hr, -⟩ := hone ⟨[allVertices db.graph], by simp [allVertices]⟩
  refine ⟨r, hr, fun scan => ?_⟩
  obtain ⟨r', hr', heq⟩ := hone scan
  rw [heq, hr.unique hcovered hr']

/-- Three numbers under one declaration, in the shards of their guids. -/
theorem aggregateVertices_isAggregate_three :
    let db := run step (empty {} ⟨64, 128, 96, 48⟩)
      [.command (.createPropertyType { name := [66] }),
        .command (.createVertex ⟨0, []⟩ [] [⟨1, .int64Value 7⟩] 10),
        .command (.createVertex ⟨0, []⟩ [] [⟨1, .int64Value (-9)⟩] 11),
        .command (.createVertex ⟨0, []⟩ [] [] 12)]
    ∃ r, db.IsAggregate { property := 1, function := .sum } r ∧
      ∀ scan, aggregateVertices ⟨fun a _ => a, fun a _ => a, fun _ => 0⟩ db scan
        { property := 1, function := .sum } = (.ok, r) := by
  intro db
  have hcarried : carriedIn { property := 1, function := .sum } (allVertices db.graph) =
      [.int64Value (-9), .int64Value 7] := by decide +kernel
  have hdeclared : db.schema.propertyType 1 = { nameId := 1, name := [66] } := by decide +kernel
  refine aggregateVertices_isAggregate _ db { property := 1, function := .sum } ?_ rfl ?_ ?_
  · exact ⟨⟨by decide, by decide +kernel, by rw [hdeclared]⟩, by rw [hdeclared]⟩
  · intro _ v hv
    rw [hcarried] at hv
    rw [hdeclared]
    revert v
    decide
  · intro _
    rw [hcarried]
    decide

/-- Two numbers whose sum needs 65 bits, the ignored property of a count, and a merged-in vertex
whose text no check has seen. -/
theorem aggregateVertices_fails :
    let d : DoubleArithmetic := ⟨fun a _ => a, fun a _ => a, fun _ => 0⟩
    let large := run step (empty {} ⟨64, 128, 96, 48⟩)
      [.command (.createPropertyType { name := [66] }),
        .command (.createVertex ⟨0, []⟩ [] [⟨1, .int64Value (BitVec.intMax 64)⟩] 10),
        .command (.createVertex ⟨0, []⟩ [] [⟨1, .int64Value 1⟩] 11)]
    let mixed := run step large
      [.command (.getOrCreateVertex ⟨0, []⟩ [] [⟨1, .string [65]⟩] 12)]
    (aggregateVertices d large (shardScan large.graph) { property := 1, function := .sum } =
        (.ok, ⟨2, 2, true, .int64Value (BitVec.intMin 64)⟩) ∧
      exactSum (carriedIn { property := 1 } (allVertices large.graph)) = 2 ^ 63) ∧
    (aggregateVertices d large (shardScan large.graph) { property := 1 } =
        (.ok, ⟨2, 0, true, .int64Value 2⟩) ∧
      (carriedIn { property := 1 } (allVertices large.graph)).length = 2) ∧
    (aggregateVertices d mixed (shardScan mixed.graph) { property := 1, function := .min }).1 =
      .errorDatatype := by
  decide +kernel

end Database

end KimixNative.GraphDb
