import Wovyr.Json.Value

/-!
This module contains the schemas of tool parameters and their normal form for the strict modes of the
providers.
-/

namespace Wovyr.Provider

abbrev Fields := List (String × Value)

def unsupportedInStrict : List String :=
  ["minimum", "maximum", "exclusiveMinimum", "exclusiveMaximum", "multipleOf", "minLength", "maxLength", "pattern",
    "format", "minItems", "maxItems", "uniqueItems", "minProperties", "maxProperties", "patternProperties", "default"]

def subschemaKeys : List String :=
  ["items", "not", "if", "then", "else"]

def subschemaListKeys : List String :=
  ["anyOf", "allOf", "oneOf"]

def subschemaMapKeys : List String :=
  ["properties", "$defs", "definitions"]

inductive Keyword where
  | unsupported
  | schema
  | schemaList
  | schemaMap
  | other
deriving DecidableEq

def keyword (key : String) : Keyword :=
  if key ∈ unsupportedInStrict then .unsupported
  else if key ∈ subschemaKeys then .schema
  else if key ∈ subschemaListKeys then .schemaList
  else if key ∈ subschemaMapKeys then .schemaMap
  else .other

-- A key that is there keeps its place.
def insert (key : String) (value : Value) : Fields → Fields
  | [] => [(key, value)]
  | (k, v) :: fields => if key = k then (key, value) :: fields else (k, v) :: insert key value fields

def isObjectSchema (fields : Fields) : Bool :=
  fields.lookup "type" == some (.string "object") || (fields.lookup "properties").isSome

def propertyNames (fields : Fields) : List Value :=
  match fields.lookup "properties" with
  | some (.object props) => props.map fun prop => .string prop.1
  | _ => []

def close (fields : Fields) : Fields :=
  if isObjectSchema fields then
    let fields := insert "additionalProperties" (.bool false) fields
    insert "required" (.array (propertyNames fields)) fields
  else
    fields

mutual

def normalizeStrict : Value → Value
  | .object fields => .object (close (normalizeFields fields))
  | other => other

def normalizeFields : Fields → Fields
  | [] => []
  | (key, value) :: fields =>
    match keyword key with
    | .unsupported => normalizeFields fields
    | .schema => (key, normalizeStrict value) :: normalizeFields fields
    | .schemaList => (key, normalizeArray value) :: normalizeFields fields
    | .schemaMap => (key, normalizeObject value) :: normalizeFields fields
    | .other => (key, value) :: normalizeFields fields

def normalizeArray : Value → Value
  | .array items => .array (normalizeItems items)
  | other => other

def normalizeItems : List Value → List Value
  | [] => []
  | item :: items => normalizeStrict item :: normalizeItems items

def normalizeObject : Value → Value
  | .object entries => .object (normalizeEntries entries)
  | other => other

def normalizeEntries : Fields → Fields
  | [] => []
  | (name, sub) :: entries => (name, normalizeStrict sub) :: normalizeEntries entries

end

-- An object schema has no properties but those it declares, and requires them all.
def Closed (fields : Fields) : Prop :=
  isObjectSchema fields = true →
    fields.lookup "additionalProperties" = some (.bool false)
      ∧ ∃ names, fields.lookup "required" = some (.array names) ∧ ∀ name ∈ propertyNames fields, name ∈ names

def InOrder (fields : Fields) : Prop :=
  isObjectSchema fields = true →
    fields.lookup "additionalProperties" = some (.bool false)
      ∧ fields.lookup "required" = some (.array (propertyNames fields))

section

variable (rule : Fields → Prop)

mutual

-- No keyword is unsupported, and every object follows the rule.
def Follows : Value → Prop
  | .object fields => rule fields ∧ FollowsFields fields
  | _ => True

def FollowsFields : Fields → Prop
  | [] => True
  | (key, value) :: fields =>
    (match keyword key with
      | .unsupported => False
      | .schema => Follows value
      | .schemaList => FollowsArray value
      | .schemaMap => FollowsObject value
      | .other => True) ∧ FollowsFields fields

def FollowsArray : Value → Prop
  | .array items => FollowsItems items
  | _ => True

def FollowsItems : List Value → Prop
  | [] => True
  | item :: items => Follows item ∧ FollowsItems items

def FollowsObject : Value → Prop
  | .object entries => FollowsEntries entries
  | _ => True

def FollowsEntries : Fields → Prop
  | [] => True
  | (_, sub) :: entries => Follows sub ∧ FollowsEntries entries

end

end

-- What the validators of the strict modes accept.
def Strict : Value → Prop :=
  Follows Closed

-- Strict, and what is required stands in the order of the properties.
def Ordered : Value → Prop :=
  Follows InOrder

theorem lookup_cons_eq (k' : String) (v : Value) (fields : Fields) (k : String)
    : ((k', v) :: fields).lookup k = if k = k' then some v else fields.lookup k := by
  by_cases h : k = k'
  . subst h
    simp
  . rw [List.lookup_cons, beq_false_of_ne h, if_neg h]

theorem insert_cons (key : String) (value : Value) (field : String × Value) (fields : Fields)
    : insert key value (field :: fields)
      = if key = field.1 then (key, value) :: fields else field :: insert key value fields := rfl

theorem lookup_insert (key : String) (value : Value) (fields : Fields) (k : String)
    : (insert key value fields).lookup k = if k = key then some value else fields.lookup k := by
  induction fields with
  | nil => exact lookup_cons_eq key value [] k
  | cons field fields ih =>
    rw [insert_cons]
    split
    . next heq =>
      subst heq
      rw [lookup_cons_eq, lookup_cons_eq]
      split <;> rfl
    . next hne =>
      rw [lookup_cons_eq, lookup_cons_eq, ih]
      split
      . next hk => rw [if_neg (hk ▸ Ne.symm hne)]
      . rfl

theorem insert_of_lookup {key : String} {value : Value} {fields : Fields}
    (h : fields.lookup key = some value) : insert key value fields = fields := by
  induction fields with
  | nil => cases h
  | cons field fields ih =>
    rw [lookup_cons_eq] at h
    rw [insert_cons]
    split at h
    . next heq =>
      cases h
      rw [if_pos heq, heq]
    . next hne => rw [if_neg hne, ih h]

section

variable {rule : Fields → Prop}

theorem followsFields_insert {key : String} (hkey : keyword key = .other) (value : Value)
    {fields : Fields} (h : FollowsFields rule fields) : FollowsFields rule (insert key value fields) := by
  induction fields with
  | nil => exact ⟨by rw [hkey]; trivial, trivial⟩
  | cons field fields ih =>
    obtain ⟨k, v⟩ := field
    rw [FollowsFields] at h
    rw [insert_cons]
    split
    . exact ⟨by rw [hkey]; trivial, h.2⟩
    . exact ⟨h.1, ih h.2⟩

theorem inOrder_close (fields : Fields) : InOrder (close fields) := by
  unfold close
  split
  . intro _
    simp [propertyNames, lookup_insert]
  . next h => exact fun hobject => absurd hobject h

theorem closed_close (fields : Fields) : Closed (close fields) := by
  intro hobject
  obtain ⟨hadditional, hrequired⟩ := inOrder_close fields hobject
  exact ⟨hadditional, _, hrequired, fun _ hname => hname⟩

theorem followsFields_close {fields : Fields} (h : FollowsFields rule fields)
    : FollowsFields rule (close fields) := by
  unfold close
  split
  . exact followsFields_insert (by decide) _ (followsFields_insert (by decide) _ h)
  . exact h

theorem close_of_inOrder {fields : Fields} (h : InOrder fields) : close fields = fields := by
  unfold close
  split
  . next hobject =>
    obtain ⟨hadditional, hrequired⟩ := h hobject
    dsimp only
    rw [insert_of_lookup hadditional, insert_of_lookup hrequired]
  . rfl

def Fixed (rule : Fields → Prop) : Prop :=
  ∀ fields, rule fields → close fields = fields

variable (hclose : ∀ fields, rule (close fields))

include hclose

set_option linter.unusedSectionVars false

mutual

theorem normalizeStrict_spec (schema : Value)
    : Follows rule (normalizeStrict schema)
        ∧ (Fixed rule → Follows rule schema → normalizeStrict schema = schema) := by
  match schema with
  | .object fields =>
    obtain ⟨hstrict, hself⟩ := normalizeFields_spec fields
    refine ⟨⟨hclose _, followsFields_close hstrict⟩, ?_⟩
    intro hfixed h
    rw [normalizeStrict, hself hfixed h.2, hfixed _ h.1]
  | .null | .bool _ | .int _ | .float _ | .string _ | .array _ => exact ⟨trivial, fun _ _ => rfl⟩

theorem normalizeFields_spec (fields : Fields)
    : FollowsFields rule (normalizeFields fields)
        ∧ (Fixed rule → FollowsFields rule fields → normalizeFields fields = fields) := by
  match fields with
  | [] => exact ⟨trivial, fun _ _ => rfl⟩
  | (key, value) :: fields =>
    obtain ⟨hfields, hself⟩ := normalizeFields_spec fields
    rw [normalizeFields, FollowsFields]
    cases hkey : keyword key with
    | unsupported => exact ⟨hfields, fun _ h => h.1.elim⟩
    | other => exact ⟨⟨by rw [hkey]; trivial, hfields⟩, fun hfixed h => by rw [hself hfixed h.2]⟩
    | schema =>
      obtain ⟨hstrict, hvalue⟩ := normalizeStrict_spec value
      exact ⟨⟨by rw [hkey]; exact hstrict, hfields⟩, fun hfixed h => by rw [hvalue hfixed h.1, hself hfixed h.2]⟩
    | schemaList =>
      obtain ⟨hstrict, hvalue⟩ := normalizeArray_spec value
      exact ⟨⟨by rw [hkey]; exact hstrict, hfields⟩, fun hfixed h => by rw [hvalue hfixed h.1, hself hfixed h.2]⟩
    | schemaMap =>
      obtain ⟨hstrict, hvalue⟩ := normalizeObject_spec value
      exact ⟨⟨by rw [hkey]; exact hstrict, hfields⟩, fun hfixed h => by rw [hvalue hfixed h.1, hself hfixed h.2]⟩

theorem normalizeArray_spec (value : Value)
    : FollowsArray rule (normalizeArray value)
        ∧ (Fixed rule → FollowsArray rule value → normalizeArray value = value) := by
  match value with
  | .array items =>
    obtain ⟨hstrict, hself⟩ := normalizeItems_spec items
    exact ⟨hstrict, fun hfixed h => congrArg Value.array (hself hfixed h)⟩
  | .null | .bool _ | .int _ | .float _ | .string _ | .object _ => exact ⟨trivial, fun _ _ => rfl⟩

theorem normalizeItems_spec (items : List Value)
    : FollowsItems rule (normalizeItems items)
        ∧ (Fixed rule → FollowsItems rule items → normalizeItems items = items) := by
  match items with
  | [] => exact ⟨trivial, fun _ _ => rfl⟩
  | item :: items =>
    obtain ⟨hstrict, hitem⟩ := normalizeStrict_spec item
    obtain ⟨hitems, hself⟩ := normalizeItems_spec items
    exact ⟨⟨hstrict, hitems⟩, fun hfixed h => by rw [normalizeItems, hitem hfixed h.1, hself hfixed h.2]⟩

theorem normalizeObject_spec (value : Value)
    : FollowsObject rule (normalizeObject value)
        ∧ (Fixed rule → FollowsObject rule value → normalizeObject value = value) := by
  match value with
  | .object entries =>
    obtain ⟨hstrict, hself⟩ := normalizeEntries_spec entries
    exact ⟨hstrict, fun hfixed h => congrArg Value.object (hself hfixed h)⟩
  | .null | .bool _ | .int _ | .float _ | .string _ | .array _ => exact ⟨trivial, fun _ _ => rfl⟩

theorem normalizeEntries_spec (entries : Fields)
    : FollowsEntries rule (normalizeEntries entries)
        ∧ (Fixed rule → FollowsEntries rule entries → normalizeEntries entries = entries) := by
  match entries with
  | [] => exact ⟨trivial, fun _ _ => rfl⟩
  | (_, sub) :: entries =>
    obtain ⟨hstrict, hsub⟩ := normalizeStrict_spec sub
    obtain ⟨hentries, hself⟩ := normalizeEntries_spec entries
    exact ⟨⟨hstrict, hentries⟩, fun hfixed h => by rw [normalizeEntries, hsub hfixed h.1, hself hfixed h.2]⟩

end

end

def normalizeAs (key : String) : Value → Value :=
  match keyword key with
  | .schema => normalizeStrict
  | .schemaList => normalizeArray
  | .schemaMap => normalizeObject
  | .unsupported | .other => id

theorem normalizeFields_cons (key : String) (value : Value) (fields : Fields)
    : normalizeFields ((key, value) :: fields)
        = if keyword key = .unsupported then normalizeFields fields
          else (key, normalizeAs key value) :: normalizeFields fields := by
  rw [normalizeFields, normalizeAs]
  cases keyword key <;> rfl

theorem lookup_normalizeFields (fields : Fields) (key : String)
    : (normalizeFields fields).lookup key
        = if keyword key = .unsupported then none else (fields.lookup key).map (normalizeAs key) := by
  induction fields with
  | nil => simp [normalizeFields]
  | cons field fields ih =>
    obtain ⟨k, v⟩ := field
    rw [normalizeFields_cons, lookup_cons_eq]
    by_cases hk : key = k
    . subst hk
      split
      . next h => rw [ih, if_pos h]
      . rw [lookup_cons_eq, if_pos rfl, if_pos rfl, Option.map_some]
    . rw [if_neg hk, ← ih]
      split
      . rfl
      . rw [lookup_cons_eq, if_neg hk]

theorem lookup_close {key : String} (hadditional : key ≠ "additionalProperties") (hrequired : key ≠ "required")
    (fields : Fields) : (close fields).lookup key = fields.lookup key := by
  unfold close
  split
  . rw [lookup_insert, lookup_insert, if_neg hrequired, if_neg hadditional]
  . rfl

/--
The normal form is strict, and the schemas that are their own normal form are the strict ones that list what is
required in the order of the properties. A keyword that strict validators take keeps its value, with the schemas in it
in normal form.
-/
theorem normalizeStrict_projects (schema : Value)
    : Strict (normalizeStrict schema) ∧ normalizeStrict (normalizeStrict schema) = normalizeStrict schema
      ∧ (normalizeStrict schema = schema ↔ Ordered schema)
      ∧ ∀ fields, schema = .object fields →
          ∃ fields', normalizeStrict schema = .object fields'
            ∧ ∀ key, key ≠ "additionalProperties" → key ≠ "required" →
                fields'.lookup key
                  = if keyword key = .unsupported then none else (fields.lookup key).map (normalizeAs key) := by
  have hfixed : Fixed InOrder := fun _ => close_of_inOrder
  obtain ⟨hordered, hself⟩ := normalizeStrict_spec inOrder_close schema
  refine ⟨(normalizeStrict_spec closed_close schema).1, (normalizeStrict_spec inOrder_close _).2 hfixed hordered,
    ⟨fun h => h ▸ hordered, hself hfixed⟩, ?_⟩
  rintro fields rfl
  refine ⟨close (normalizeFields fields), rfl, ?_⟩
  intro key hadditional hrequired
  rw [lookup_close hadditional hrequired, lookup_normalizeFields]

end Wovyr.Provider
