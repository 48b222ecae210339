import Mathlib.Data.List.Sort
import Mathlib.Data.String.Basic
import Mathlib.Tactic.Ring
import Wovyr.Json.Text

/-!
This module contains values whose objects have their fields in the order of the keys, and the
canonicalisation that the TypeScript SDK applies to a value before it hashes it.
-/

namespace Wovyr.Json

def byKey (a b : String × Value) : Prop :=
  a.1 ≤ b.1

instance : DecidableRel byKey :=
  fun a b => inferInstanceAs (Decidable (a.1 ≤ b.1))

instance : Std.Total byKey where
  total a b := le_total a.1 b.1

instance : IsTrans (String × Value) byKey where
  trans _ _ _ := le_trans

def sortFields (fields : List (String × Value)) : List (String × Value) :=
  fields.insertionSort byKey

mutual

def canonicalize : Value → Value
  | .array vs => .array (canonicalizeList vs)
  | .object fields => .object (sortFields (canonicalizeFields fields))
  | v => v

def canonicalizeList : List Value → List Value
  | [] => []
  | v :: vs => canonicalize v :: canonicalizeList vs

def canonicalizeFields : List (String × Value) → List (String × Value)
  | [] => []
  | (k, v) :: fields => (k, canonicalize v) :: canonicalizeFields fields

end

def canonicalStringify (fmt : Rat → List Char) (v : Value) : List Char :=
  render fmt (canonicalize v)

theorem perm_sortFields (fields : List (String × Value)) : (sortFields fields).Perm fields :=
  List.perm_insertionSort byKey fields

theorem pairwise_sortFields (fields : List (String × Value))
    : (sortFields fields).Pairwise byKey :=
  List.pairwise_insertionSort byKey fields

theorem sortFields_eq_self {fields : List (String × Value)} (h : fields.Pairwise byKey)
    : sortFields fields = fields :=
  h.insertionSort_eq

theorem canonicalizeList_eq_self {vs : List Value} (h : ∀ v ∈ vs, canonicalize v = v)
    : canonicalizeList vs = vs := by
  induction vs with
  | nil => rfl
  | cons v vs ih =>
    rw [List.forall_mem_cons] at h
    rw [canonicalizeList, h.1, ih h.2]

theorem canonicalizeFields_eq_self {fields : List (String × Value)}
    (h : ∀ f ∈ fields, canonicalize f.2 = f.2) : canonicalizeFields fields = fields := by
  induction fields with
  | nil => rfl
  | cons f fields ih =>
    obtain ⟨k, v⟩ := f
    rw [List.forall_mem_cons] at h
    rw [canonicalizeFields, h.1, ih h.2]

theorem canonicalize_object_sortFields {fields : List (String × Value)}
    (h : ∀ f ∈ fields, canonicalize f.2 = f.2)
    : canonicalize (.object (sortFields fields)) = .object (sortFields fields) := by
  have hsorted : ∀ f ∈ sortFields fields, canonicalize f.2 = f.2 := by
    intro f hf
    exact h f ((perm_sortFields fields).mem_iff.mp hf)
  rw [canonicalize, canonicalizeFields_eq_self hsorted]
  rw [sortFields_eq_self (pairwise_sortFields fields)]

mutual

def floats : Value → List Rat
  | .float q => [q]
  | .array vs => floatsList vs
  | .object fields => floatsFields fields
  | _ => []

def floatsList : List Value → List Rat
  | [] => []
  | v :: vs => floats v ++ floatsList vs

def floatsFields : List (String × Value) → List Rat
  | [] => []
  | (_, v) :: fields => floats v ++ floatsFields fields

end

theorem floatsFields_eq_flatMap (fields : List (String × Value))
    : floatsFields fields = fields.flatMap fun f => floats f.2 := by
  induction fields with
  | nil => rfl
  | cons f fields ih => simp [floatsFields, ih]

theorem floats_sortFields (fields : List (String × Value))
    : (floats (.object (sortFields fields))).Perm (floatsFields fields) := by
  rw [floats, floatsFields_eq_flatMap, floatsFields_eq_flatMap]
  exact (perm_sortFields fields).flatMap_right _

section

variable {f g : Rat → List Char} {k : Nat}

/-
Where one side writes every float of a value with `k` characters more than the other, its text is
longer by `k` characters for each float.
-/
mutual

theorem length_render (v : Value) (h : ∀ q ∈ floats v, (f q).length = (g q).length + k)
    : (render f v).length = (render g v).length + k * (floats v).length := by
  match v with
  | .null | .bool true | .bool false | .int _ | .string _ | .array [] | .object [] =>
    simp [render, floats, floatsList, floatsFields]
  | .float q => simpa [render, floats] using h q
  | .array (v :: vs) =>
    simp only [floats, floatsList, List.forall_mem_append] at h
    have hv := length_render v h.1
    have hvs := length_renderTail vs h.2
    simp only [render, floats, floatsList, List.length_cons, List.length_append, hv, hvs]
    ring
  | .object ((_, v) :: fields) =>
    simp only [floats, floatsFields, List.forall_mem_append] at h
    have hv := length_render v h.1
    have hfields := length_renderFields fields h.2
    simp only [render, floats, floatsFields, List.length_cons, List.length_append, hv, hfields]
    ring

theorem length_renderTail (vs : List Value)
    (h : ∀ q ∈ floatsList vs, (f q).length = (g q).length + k)
    : (renderTail f vs).length = (renderTail g vs).length + k * (floatsList vs).length := by
  match vs with
  | [] => simp [renderTail, floatsList]
  | v :: vs =>
    simp only [floatsList, List.forall_mem_append] at h
    have hv := length_render v h.1
    have hvs := length_renderTail vs h.2
    simp only [renderTail, floatsList, List.length_cons, List.length_append, hv, hvs]
    ring

theorem length_renderFields (fields : List (String × Value))
    (h : ∀ q ∈ floatsFields fields, (f q).length = (g q).length + k)
    : (renderFields f fields).length
        =
      (renderFields g fields).length + k * (floatsFields fields).length := by
  match fields with
  | [] => simp [renderFields, floatsFields]
  | (_, v) :: fields =>
    simp only [floatsFields, List.forall_mem_append] at h
    have hv := length_render v h.1
    have hfields := length_renderFields fields h.2
    simp only [renderFields, floatsFields, List.length_cons, List.length_append, hv, hfields]
    ring

end

mutual

theorem render_congr (v : Value) (h : ∀ q ∈ floats v, f q = g q) : render f v = render g v := by
  match v with
  | .null | .bool true | .bool false | .int _ | .string _ | .array [] | .object [] => simp [render]
  | .float q => simpa [render, floats] using h q
  | .array (v :: vs) =>
    simp only [floats, floatsList, List.forall_mem_append] at h
    rw [render, render, render_congr v h.1, renderTail_congr vs h.2]
  | .object ((_, v) :: fields) =>
    simp only [floats, floatsFields, List.forall_mem_append] at h
    rw [render, render, render_congr v h.1, renderFields_congr fields h.2]

theorem renderTail_congr (vs : List Value) (h : ∀ q ∈ floatsList vs, f q = g q)
    : renderTail f vs = renderTail g vs := by
  match vs with
  | [] => rfl
  | v :: vs =>
    simp only [floatsList, List.forall_mem_append] at h
    rw [renderTail, renderTail, render_congr v h.1, renderTail_congr vs h.2]

theorem renderFields_congr (fields : List (String × Value))
    (h : ∀ q ∈ floatsFields fields, f q = g q) : renderFields f fields = renderFields g fields := by
  match fields with
  | [] => rfl
  | (_, v) :: fields =>
    simp only [floatsFields, List.forall_mem_append] at h
    rw [renderFields, renderFields, render_congr v h.1, renderFields_congr fields h.2]

end

end

end Wovyr.Json
