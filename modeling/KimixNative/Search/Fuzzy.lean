import KimixNative.Search.FreqBound
import KimixNative.Lib.Merge
import KimixNative.Lib.Run
import Mathlib.Data.Prod.Lex
import Mathlib.Algebra.Order.Ring.Rat

/-!
# Fuzzy expansion

`SymmetricDeleteIndex` stores under every text that one or two deletions leave of a term the
numbers of the terms that leave it. A query is expanded by looking up what deletions leave of the
query; the terms found are checked one by one, sorted, and kept in a cache.

The set of numbers found is a hash set: in which order it is gone through is left to `HashOrder`.
-/

namespace KimixNative.Search

/-- `fuzzy_candidate`. The score is kept as a fraction: scores of different distances are
different doubles, in the same order. -/
structure FuzzyCandidate where
  term : Bytes
  score : Rat
  deriving DecidableEq

/-- `kCacheSize`. -/
def kCacheSize : Nat := 4096

/-- `SymmetricDeleteIndex`. The cache is an `lru_cache`, the entry used last in front. -/
structure SymmetricDeleteIndex where
  terms : List Bytes := []
  termIds : Table Bytes Nat := ∅
  deletes1 : Table Bytes (List Nat) := ∅
  deletes2 : Table Bytes (List Nat) := ∅
  cache : List (Bytes × List FuzzyCandidate) := []

/-- The order in which the iteration over a hash set of term numbers visits them. -/
structure HashOrder where
  visit : List Nat → List Nat
  perm : ∀ ids, (visit ids).Perm ids

/-- The hash set happens to be visited in insertion order. -/
def HashOrder.insertion : HashOrder := ⟨id, fun ids => .refl ids⟩

/-! ### Delete variants -/

/-- `insert` of a hash set. -/
def setInsert {α : Type} [DecidableEq α] (set : List α) (v : α) : List α :=
  if v ∈ set then set else set ++ [v]

/-- What one deletion leaves of a text. -/
def singleDeletes (t : Bytes) : List Bytes := (List.range t.length).map t.eraseIdx

/-- One step of the loop: what one more deletion leaves is added. -/
def extendDeletes (deletes : List Bytes) : List Bytes :=
  ((deletes.flatMap singleDeletes).foldl setInsert []).foldl setInsert deletes

/-- `generate_deletes`. -/
def generateDeletes (term : Bytes) (maxEdits : Nat) : List Bytes :=
  if maxEdits = 0 ∨ term = [] then [term]
  else if maxEdits = 1 then (singleDeletes term).foldl setInsert [term]
  else extendDeletes^[maxEdits] [term]

namespace SymmetricDeleteIndex

/-- `deletes[v].push_back(id)`. -/
def pushId (deletes : Table Bytes (List Nat)) (v : Bytes) (id : Nat) : Table Bytes (List Nat) :=
  deletes.insert v ((deletes.find? v).getD [] ++ [id])

/-- The loop body of `add_term` for one variant. -/
def addVariant (term : Bytes) (maxEdits id : Nat) (idx : SymmetricDeleteIndex) (v : Bytes) :
    SymmetricDeleteIndex :=
  if v = term then idx
  else
    { idx with
      deletes1 :=
        if 2 ≤ term.length ∧ v.length = term.length - 1 then pushId idx.deletes1 v id
        else idx.deletes1
      deletes2 :=
        if 2 ≤ maxEdits ∧ (if 2 ≤ term.length then term.length - 2 else 0) ≤ v.length then
          pushId idx.deletes2 v id
        else idx.deletes2 }

/-- `add_term`. -/
def addTerm (idx : SymmetricDeleteIndex) (term : Bytes) (maxEdits : Nat) : SymmetricDeleteIndex :=
  let id := idx.terms.length
  let named :=
    { idx with
      terms := idx.terms ++ [term]
      termIds := if (idx.termIds.find? term).isSome then idx.termIds else idx.termIds.insert term id }
  let variants := generateDeletes term (if maxEdits ≤ 2 then maxEdits else 2)
  { variants.foldl (addVariant term maxEdits id) named with cache := [] }

/-- `has_term`. -/
def hasTerm (idx : SymmetricDeleteIndex) (term : Bytes) : Bool := (idx.termIds.find? term).isSome

/-- `reset`. -/
def reset (_ : SymmetricDeleteIndex) : SymmetricDeleteIndex := {}

/-! ### The candidates -/

/-- `map`: the level of a bound, or the first level where the second is empty. -/
def levelMap (idx : SymmetricDeleteIndex) (maxEdits : Nat) : Table Bytes (List Nat) :=
  if maxEdits = 1 then idx.deletes1
  else if maxEdits = 2 ∧ idx.deletes2.keys = [] then idx.deletes1
  else idx.deletes2

/-- The variants of a query in the order in which they are looked up. -/
def queryVariants (query : Bytes) (maxEdits : Nat) : List Bytes :=
  [query] ++ (List.range query.length).map query.eraseIdx ++
    (if maxEdits = 2 then
      (List.range query.length).flatMap fun p =>
        (List.range' (p + 1) (query.length - (p + 1))).map fun q => (query.eraseIdx q).eraseIdx p
    else [])

/-- `gather_variant`. -/
def gatherVariant (map : Table Bytes (List Nat)) (ids : List Nat) (variant : Bytes) : List Nat :=
  ((map.find? variant).getD []).foldl setInsert ids

/-- `candidate_ids`. -/
def candidateIds (idx : SymmetricDeleteIndex) (query : Bytes) (maxEdits : Nat) : List Nat :=
  let ids := (queryVariants query maxEdits).foldl (gatherVariant (idx.levelMap maxEdits)) []
  match idx.termIds.find? query with
  | some id => setInsert ids id
  | none => ids

end SymmetricDeleteIndex

/-! ### The gates -/

/-- `static_cast<int32_t>(max_edits)`. -/
def asInt32 (maxEdits : Nat) : Int := (BitVec.ofNat 32 maxEdits).toInt

/-- `|len diff| > max_edits`. -/
def lengthsApart (query term : Bytes) (maxEdits : Nat) : Bool :=
  if term.length > query.length then decide (term.length - query.length > maxEdits)
  else decide (query.length - term.length > maxEdits)

/-- The first characters differ. -/
def headsApart (query term : Bytes) : Bool :=
  decide (1 ≤ term.length ∧ term.head? ≠ query.head?)

/-- The frequency filter discards the term. -/
def frequencyDiscards (query term : Bytes) (maxEdits : Nat) : Bool :=
  decide (query.length ≤ 64 ∧ asInt32 maxEdits < freqLowerBound query term)

/-- The distance check. -/
def distanceAccepts (query term : Bytes) (maxEdits : Nat) : Bool :=
  decide (damerauLevenshtein query term (asInt32 maxEdits) ≤ asInt32 maxEdits)

/-- A term that passes the gates, with its score. -/
def verify (query term : Bytes) (maxEdits : Nat) : Option FuzzyCandidate :=
  if lengthsApart query term maxEdits then none
  else if headsApart query term then none
  else if frequencyDiscards query term maxEdits then none
  else if distanceAccepts query term maxEdits then
    some ⟨term, 1 / (1 + (damerauLevenshtein query term (asInt32 maxEdits) : Rat))⟩
  else none

/-- The comparison of the sort: score descending, then term ascending. -/
def FuzzyCandidate.before (a b : FuzzyCandidate) : Bool :=
  if a.score ≠ b.score then decide (a.score > b.score)
  else decide (a.term.map BitVec.toNat < b.term.map BitVec.toNat)

namespace SymmetricDeleteIndex

/-- The loop over the candidates, which ends when `result` is full. -/
def verifyLoop (terms : List Bytes) (query : Bytes) (maxEdits maxExpansions : Nat) :
    List Nat → List FuzzyCandidate → List FuzzyCandidate
  | [], result => result
  | id :: rest, result =>
    if result.length ≥ maxExpansions then result
    else
      verifyLoop terms query maxEdits maxExpansions rest
        (result ++ (verify query (terms.getD id []) maxEdits).toList)

/-- What `expand` computes where the cache has no entry. -/
def expandCold (S : Sorter) (order : HashOrder) (idx : SymmetricDeleteIndex) (query : Bytes)
    (maxEdits maxExpansions : Nat) : List FuzzyCandidate :=
  let result := verifyLoop idx.terms query maxEdits maxExpansions
    (order.visit (idx.candidateIds query maxEdits)) []
  let sorted := S.sort FuzzyCandidate.before result
  if sorted.length > maxExpansions then sorted.take maxExpansions else sorted

/-! ### The cache -/

/-- The unit separator between the parts of a key. -/
def unitSeparator : Byte := 0x1F#8

/-- `cache_key`. -/
def cacheKey (query : Bytes) (maxEdits maxExpansions : Nat) : Bytes :=
  query ++ [unitSeparator] ++ Text.decimal maxEdits ++ [unitSeparator] ++
    Text.decimal maxExpansions

/-- `lru_cache::put`. -/
def cachePut (cache : List (Bytes × List FuzzyCandidate)) (key : Bytes)
    (value : List FuzzyCandidate) : List (Bytes × List FuzzyCandidate) :=
  ((key, value) :: cache.filter fun entry => entry.1 ≠ key).take kCacheSize

/-- `lru_cache::get`: the entry moves to the front. -/
def cacheGet (cache : List (Bytes × List FuzzyCandidate)) (key : Bytes) :
    Option (List FuzzyCandidate × List (Bytes × List FuzzyCandidate)) :=
  (cache.lookup key).map fun value =>
    (value, (key, value) :: cache.filter fun entry => entry.1 ≠ key)

/-- `expand`: the index with its cache, and `out`. -/
def expand (S : Sorter) (order : HashOrder) (idx : SymmetricDeleteIndex) (query : Bytes)
    (maxEdits maxExpansions : Nat) : SymmetricDeleteIndex × List FuzzyCandidate :=
  if maxEdits = 0 ∨ query = [] then
    (idx, if query ≠ [] ∧ idx.hasTerm query then [⟨query, 1⟩] else [])
  else if maxExpansions = 0 then (idx, [])
  else
    match cacheGet idx.cache (cacheKey query maxEdits maxExpansions) with
    | some (value, cache) => ({ idx with cache }, value)
    | none =>
      let result := expandCold S order idx query maxEdits maxExpansions
      ({ idx with cache := cachePut idx.cache (cacheKey query maxEdits maxExpansions) result },
        result)

/-! ### Runs -/

/-- A call on an index. -/
inductive Call where
  | addTerm (term : Bytes) (maxEdits : Nat)
  | expand (S : Sorter) (order : HashOrder) (query : Bytes) (maxEdits maxExpansions : Nat)
  | reset

/-- The index after a call. -/
def step (idx : SymmetricDeleteIndex) : Call → SymmetricDeleteIndex
  | .addTerm term maxEdits => idx.addTerm term maxEdits
  | .expand S order query maxEdits maxExpansions =>
    (idx.expand S order query maxEdits maxExpansions).1
  | .reset => idx.reset

end SymmetricDeleteIndex

/-! ### The frequency filter -/

/-- What the distance check accepts is within the bound, which is not negative then. -/
theorem distanceAccepts_iff (query term : Bytes) (maxEdits : Nat) :
    distanceAccepts query term maxEdits = true ↔
      damerauLevenshtein query term (-1) ≤ asInt32 maxEdits := by
  rw [distanceAccepts, decide_eq_true_eq]
  obtain ⟨d, hd⟩ := exists_damerauLevenshtein_eq query term
  rw [hd, hd, capped_unbounded, capped]
  split
  · next hover => omega
  · rfl

end KimixNative.Search
