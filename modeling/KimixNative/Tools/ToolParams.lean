import KimixNative.Text.Utf8

/-!
# The parameters of a tool call

`ToolParams` is the body of a JSON object. The names of its members come from a model that may
have got them wrong, so that a parse entry point declares for each argument the other names it
accepts. A lookup prefers the canonical name, then the declared names as written, then the
declared names up to case and the characters `_`, `-` and blank.

A map is the list of its members, each key once; no lookup depends on their order.
-/

namespace KimixNative.Tools

open Text

/-- A double, known by what `format` writes for it. -/
structure Real where
  text : Bytes
  ascii : isAscii text = true

/-- `ValueElement`. The alias table of a nested object is empty. -/
inductive ValueElement where
  | null
  | bool (b : Bool)
  | int (i : Int)
  | uint (u : Nat)
  | real (d : Real)
  | string (s : Bytes)
  | array (elements : List ValueElement)
  | object (values : List (Bytes × ValueElement))

namespace ValueElement

def isNull : ValueElement → Bool
  | null => true
  | _ => false

def isString : ValueElement → Bool
  | string _ => true
  | _ => false

def isArray : ValueElement → Bool
  | array _ => true
  | _ => false

end ValueElement

/-- The members of an object. -/
abbrev ValueMap := List (Bytes × ValueElement)

/-- `param_alias`, the alternates as the list of their names. -/
structure ParamAlias where
  canonical : Bytes
  alternates : List Bytes

/-! ### Names of arguments -/

/-- `alias_fold`. -/
def aliasFold (c : Byte) : Byte :=
  if 0x41 ≤ c.toNat ∧ c.toNat ≤ 0x5A then c - 0x41#8 + 0x61#8 else c

/-- `alias_ignorable`. -/
def aliasIgnorable (c : Byte) : Bool := c == 0x5F#8 || c == 0x2D#8 || c == 0x20#8

/-- `alias_name_equals`. -/
def aliasNameEquals (a b : Bytes) : Bool :=
  (a.filter (!aliasIgnorable ·)).map aliasFold == (b.filter (!aliasIgnorable ·)).map aliasFold

/-- The order of `string_view`. -/
def keyLess (a b : Bytes) : Bool := List.lex a b fun x y => decide (x.toNat < y.toNat)

structure ToolParams where
  values : ValueMap := []
  aliasMap : List (Bytes × List Bytes) := []

variable {v : ValueElement} {params : ToolParams}

variable {key : Bytes}

variable {values : ValueMap} {names : List Bytes}

namespace ToolParams

/-- `add_alias`. -/
def addAlias (params : ToolParams) (decl : ParamAlias) : ToolParams :=
  if decl.canonical = [] ∨ decl.alternates = [] then params
  else
    let record := (params.aliasMap.lookup decl.canonical).getD []
    let names := decl.alternates.foldl (fun names name =>
      if name.isEmpty || names.any (aliasNameEquals · name) then names else names ++ [name]) record
    { params with
      aliasMap := (decl.canonical, names) ::
        params.aliasMap.filter fun entry => entry.1 != decl.canonical }

/-- `with_aliases`. -/
def withAliases (params : ToolParams) (decls : List ParamAlias) : ToolParams :=
  decls.foldl addAlias params

/-- `get_exact`. -/
def getExact (params : ToolParams) (key : Bytes) : Option ValueElement := params.values.lookup key

/-- The least key that a declared name matches. -/
def leastMatch (params : ToolParams) (alternates : List Bytes) : Option Bytes :=
  params.values.foldl (fun best entry =>
    if !entry.2.isNull && alternates.any (aliasNameEquals entry.1) &&
        best.all (keyLess entry.1) then some entry.1 else best) none

/-- `get_alias`. -/
def getAlias (params : ToolParams) (key : Bytes) : Option ValueElement :=
  (params.aliasMap.lookup key).bind fun alternates =>
    (alternates.findSome? fun name => (params.getExact name).filter fun v => !v.isNull).or
      ((params.leastMatch alternates).bind params.getExact)

/-- `get`. -/
def get (params : ToolParams) (key : Bytes) : Option ValueElement :=
  let hit := params.getExact key
  if hit.any fun v => !v.isNull then hit else (params.getAlias key).or hit

/-- `td_first_present`. -/
def firstPresent (params : ToolParams) (names : List Bytes) : Option ValueElement :=
  names.findSome? params.get

theorem withAliases_values (params : ToolParams) (decls : List ParamAlias) :
    (params.withAliases decls).values = params.values := by
  induction decls generalizing params with
  | nil => rfl
  | cons decl decls ih =>
    rw [withAliases, List.foldl_cons, ← withAliases, ih, addAlias]
    split <;> rfl

theorem mem_of_lookup (h : values.lookup key = some v) : (key, v) ∈ values := by
  induction values with
  | nil => cases h
  | cons entry values ih =>
    rw [List.lookup_cons] at h
    by_cases hkey : key = entry.1
    · subst hkey
      rw [beq_self_eq_true] at h
      obtain rfl := Option.some.inj h
      exact List.mem_cons_self
    · rw [beq_eq_false_iff_ne.mpr hkey] at h
      exact List.mem_cons_of_mem _ (ih h)

/-- What a lookup finds is one of the members. -/
theorem mem_of_getExact (h : params.getExact key = some v) :
    ∃ k, (k, v) ∈ params.values := ⟨key, mem_of_lookup h⟩

theorem mem_of_getAlias (h : params.getAlias key = some v) : ∃ k, (k, v) ∈ params.values := by
  obtain ⟨alternates, -, hv⟩ := Option.bind_eq_some_iff.mp h
  rw [Option.or_eq_some_iff] at hv
  rcases hv with hv | ⟨-, hv⟩
  · obtain ⟨name, -, hname⟩ := List.exists_of_findSome?_eq_some hv
    exact mem_of_getExact (Option.filter_eq_some_iff.mp hname).1
  · obtain ⟨best, -, hbest⟩ := Option.bind_eq_some_iff.mp hv
    exact mem_of_getExact hbest

theorem mem_of_get (h : params.get key = some v) : ∃ k, (k, v) ∈ params.values := by
  simp only [get] at h
  split at h
  · exact mem_of_getExact h
  · rw [Option.or_eq_some_iff] at h
    exact h.elim mem_of_getAlias fun h => mem_of_getExact h.2

theorem mem_of_firstPresent (h : params.firstPresent names = some v) :
    ∃ k, (k, v) ∈ params.values := by
  obtain ⟨name, -, hname⟩ := List.exists_of_findSome?_eq_some h
  exact mem_of_get hname

end ToolParams

/-! ### Texts -/

/-- Every text of the value is valid UTF-8. -/
inductive ValueElement.Utf8 : ValueElement → Prop
  | null : Utf8 .null
  | bool (b : Bool) : Utf8 (.bool b)
  | int (i : Int) : Utf8 (.int i)
  | uint (u : Nat) : Utf8 (.uint u)
  | real (d : Real) : Utf8 (.real d)
  | string {s : Bytes} (h : ValidUtf8 s) : Utf8 (.string s)
  | array {elements : List ValueElement} (h : ∀ v ∈ elements, Utf8 v) : Utf8 (.array elements)
  | object {values : ValueMap} (keys : ∀ entry ∈ values, ValidUtf8 entry.1)
      (h : ∀ entry ∈ values, Utf8 entry.2) : Utf8 (.object values)

/-- Every text of an object is valid UTF-8. -/
def ValueMap.Utf8 (values : ValueMap) : Prop := (ValueElement.object values).Utf8

theorem ValueMap.Utf8.value (h : values.Utf8) {k : Bytes} (hmem : (k, v) ∈ values) : v.Utf8 := by
  cases h with
  | object keys h => exact h _ hmem

theorem ToolParams.utf8_of_get (h : params.values.Utf8) (hget : params.get key = some v) :
    v.Utf8 := by
  obtain ⟨k, hmem⟩ := mem_of_get hget
  exact h.value hmem

theorem ToolParams.utf8_of_firstPresent (h : params.values.Utf8)
    (hget : params.firstPresent names = some v) : v.Utf8 := by
  obtain ⟨k, hmem⟩ := mem_of_firstPresent hget
  exact h.value hmem

end KimixNative.Tools
