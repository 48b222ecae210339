import Mathlib.Algebra.Order.Ring.Int
import Mathlib.Data.List.Basic

/-!
This module contains computations that can fail, and lists of them, of which the first failure is the failure
of all of them.
-/

theorem bind_eq_ok (x : Except ε α) (f : α → Except ε β) (b : β)
    : (x >>= f) = .ok b ↔ ∃ a, x = .ok a ∧ f a = .ok b := by
  cases x <;> simp [bind, Except.bind]

namespace Fallible

variable {ε α β : Type} {f : α → Except ε β} {xs : List α} {ys : List β}

theorem mapM_cons (x : α) (xs : List α)
    : (x :: xs).mapM f
        =
      match f x with
      | .ok y => (xs.mapM f).map (y :: ·)
      | .error e => .error e := by
  rw [List.mapM_cons]
  cases f x with
  | error e => rfl
  | ok y =>
    show (xs.mapM f).bind _ = _
    cases xs.mapM f with
    | error e => rfl
    | ok ys => rfl

theorem exists_of_mapM (h : xs.mapM f = .ok ys) : ∀ y ∈ ys, ∃ x ∈ xs, f x = .ok y := by
  induction xs generalizing ys with
  | nil =>
    cases h
    simp
  | cons x xs ih =>
    rw [mapM_cons] at h
    cases hx : f x with
    | error e => simp [hx] at h
    | ok y =>
      rw [hx] at h
      cases hrest : xs.mapM f with
      | error e => simp [hrest, Except.map] at h
      | ok ys' =>
        simp only [hrest, Except.map, Except.ok.injEq] at h
        subst h
        intro z hz
        rcases List.mem_cons.mp hz with rfl | hz
        . exact ⟨x, List.mem_cons_self, hx⟩
        . obtain ⟨w, hw, hfw⟩ := ih hrest z hz
          exact ⟨w, List.mem_cons_of_mem _ hw, hfw⟩

theorem mapM_error_iff : (∃ e, xs.mapM f = .error e) ↔ ∃ x ∈ xs, ∃ e, f x = .error e := by
  induction xs with
  | nil => simp [pure, Except.pure]
  | cons x xs ih =>
    rw [mapM_cons]
    cases hx : f x with
    | error e => simp [hx]
    | ok y =>
      simp only [List.exists_mem_cons_iff, hx, reduceCtorEq, exists_false, false_or, ← ih]
      cases xs.mapM f with
      | error e => simp [Except.map]
      | ok ys => simp [Except.map]

theorem filter_mapM {p : α → Bool} {q : β → Bool} (hpq : ∀ x y, f x = .ok y → q y = p x)
    (hok : ∀ x ∈ xs, p x = false → ∃ y, f x = .ok y)
    : (xs.mapM f).map (List.filter q) = (xs.filter p).mapM f := by
  induction xs with
  | nil => rfl
  | cons x xs ih =>
    have hrest := ih fun z hz => hok z (List.mem_cons_of_mem _ hz)
    rw [mapM_cons]
    cases hp : p x with
    | true =>
      rw [List.filter_cons_of_pos hp, mapM_cons, ← hrest]
      cases hx : f x with
      | error e => rfl
      | ok y =>
        have hq := hpq x y hx
        cases xs.mapM f with
        | error e => rfl
        | ok ys => simp [Except.map, hq, hp]
    | false =>
      obtain ⟨y, hx⟩ := hok x List.mem_cons_self hp
      have hq := hpq x y hx
      rw [List.filter_cons_of_neg (by simp [hp]), ← hrest, hx]
      cases xs.mapM f with
      | error e => rfl
      | ok ys => simp [Except.map, hq, hp]

theorem mapM_map {γ : Type} {g : γ → α} {h : γ → β} {zs : List γ} (hf : ∀ z ∈ zs, f (g z) = .ok (h z))
    : (zs.map g).mapM f = .ok (zs.map h) := by
  induction zs with
  | nil => rfl
  | cons z zs ih =>
    rw [List.map_cons, mapM_cons, hf z List.mem_cons_self, ih fun y hy => hf y (List.mem_cons_of_mem _ hy)]
    rfl

theorem mapM_perm {xs' : List α} (hperm : xs.Perm xs') (h : xs.mapM f = .ok ys)
    : ∃ ys', xs'.mapM f = .ok ys' ∧ ys.Perm ys' := by
  have hcons (x : α) (xs : List α) (ys : List β) : (x :: xs).mapM f = .ok ys
      ↔ ∃ y rest, f x = .ok y ∧ xs.mapM f = .ok rest ∧ ys = y :: rest := by
    rw [mapM_cons]
    cases f x with
    | error e => simp
    | ok y =>
      cases xs.mapM f with
      | error e => simp [Except.map]
      | ok rest => simp [Except.map, eq_comm]
  induction hperm generalizing ys with
  | nil => exact ⟨ys, h, .refl _⟩
  | cons x _ ih =>
    obtain ⟨y, rest, hx, hrest, rfl⟩ := (hcons _ _ _).mp h
    obtain ⟨rest', hrest', hperm⟩ := ih hrest
    exact ⟨y :: rest', (hcons _ _ _).mpr ⟨y, rest', hx, hrest', rfl⟩, hperm.cons y⟩
  | swap x x' xs =>
    obtain ⟨y', rest', hx', hrest', rfl⟩ := (hcons _ _ _).mp h
    obtain ⟨y, rest, hx, hrest, rfl⟩ := (hcons _ _ _).mp hrest'
    refine ⟨y :: y' :: rest, ?_, .swap y y' rest⟩
    exact (hcons _ _ _).mpr ⟨y, _, hx, (hcons _ _ _).mpr ⟨y', rest, hx', hrest, rfl⟩, rfl⟩
  | trans _ _ ih ih' =>
    obtain ⟨ys', hys', hperm⟩ := ih h
    obtain ⟨ys'', hys'', hperm'⟩ := ih' hys'
    exact ⟨ys'', hys'', hperm.trans hperm'⟩

end Fallible
