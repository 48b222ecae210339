import Mathlib.Data.List.Induction

/-!
This module contains what writes leave in a store: the last one to a place is what is found there.
-/

namespace Overwrite

variable {α : Type u} {β : Type v} {γ : Type w} [DecidableEq α] (place : γ → α) (value : γ → β)

def apply (store : α → Option β) (writes : List γ) : α → Option β :=
  writes.foldl (fun store w => Function.update store (place w) (some (value w))) store

def last (writes : List γ) (x : α) : Option γ :=
  writes.reverse.find? fun w => place w = x

variable {place value}

theorem apply_append (store : α → Option β) (writes writes' : List γ)
    : apply place value store (writes ++ writes') = apply place value (apply place value store writes) writes' := by
  unfold apply
  rw [List.foldl_append]

theorem apply_map {δ : Type x} {f : δ → γ} (store : α → Option β) (writes : List δ)
    : apply place value store (writes.map f) = apply (place ∘ f) (value ∘ f) store writes := by
  unfold apply
  rw [List.foldl_map]
  rfl

theorem last_snoc (writes : List γ) (w : γ) (x : α)
    : last place (writes ++ [w]) x = if place w = x then some w else last place writes x := by
  unfold last
  rw [List.reverse_append, List.reverse_singleton, List.singleton_append, List.find?_cons]
  by_cases h : place w = x <;> simp [h]

theorem apply_eq (store : α → Option β) (writes : List γ) (x : α)
    : apply place value store writes x
        = match last place writes x with
          | some w => some (value w)
          | none => store x := by
  induction writes using List.reverseRecOn with
  | nil => rfl
  | append_singleton writes w ih =>
    rw [apply_append, last_snoc]
    show Function.update (apply place value store writes) (place w) (some (value w)) x = _
    by_cases h : place w = x
    . subst h
      simp
    . rw [Function.update_of_ne (Ne.symm h), ih, if_neg h]

theorem mem_of_last {writes : List γ} {x : α} {w : γ} (h : last place writes x = some w) : w ∈ writes :=
  List.mem_reverse.mp (List.mem_of_find?_eq_some h)

theorem place_of_last {writes : List γ} {x : α} {w : γ} (h : last place writes x = some w) : place w = x := by
  have hplace := List.find?_some h
  simpa using hplace

theorem exists_last {writes : List γ} {w : γ} (h : w ∈ writes)
    : ∃ w', last place writes (place w) = some w' := by
  apply Option.isSome_iff_exists.mp
  unfold last
  rw [List.find?_isSome]
  exact ⟨w, List.mem_reverse.mpr h, by simp⟩

end Overwrite
