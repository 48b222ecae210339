import Mathlib.Algebra.Order.Ring.Int

/-!
This module contains lists of tasks, of which one goes on or ends where it stands.
-/

namespace Tasks

open List

variable {α : Type u} {xs : List α} {k : Nat} {x : α}

theorem split (h : xs[k]? = some x)
    : ∃ as bs, xs = as ++ x :: bs ∧ (∀ y, xs.set k y = as ++ y :: bs) ∧ xs.eraseIdx k = as ++ bs := by
  obtain ⟨hk, rfl⟩ := List.getElem?_eq_some_iff.mp h
  refine ⟨xs.take k, xs.drop (k + 1), ?_, ?_, eraseIdx_eq_take_drop_succ xs k⟩
  . rw [getElem_cons_drop, take_append_drop]
  . intro y
    rw [set_eq_take_append_cons_drop, if_pos hk]

theorem mem (h : xs[k]? = some x) : x ∈ xs :=
  mem_of_getElem? h

theorem mem_set {y z : α} (h : z ∈ xs.set k y) : z ∈ xs ∨ z = y :=
  mem_or_eq_of_mem_set h

theorem mem_set_of_ne {y z : α} (h : xs[k]? = some x) (hz : z ∈ xs) (hne : z ≠ x) : z ∈ xs.set k y := by
  obtain ⟨as, bs, hxs, hset, -⟩ := split h
  rw [hset]
  rw [hxs] at hz
  rcases mem_append.mp hz with has | hbs
  . exact mem_append_left _ has
  . rcases mem_cons.mp hbs with rfl | hbs
    . exact absurd rfl hne
    . exact mem_append_right _ (mem_cons_of_mem _ hbs)

theorem mem_eraseIdx_of_ne {z : α} (h : xs[k]? = some x) (hz : z ∈ xs) (hne : z ≠ x)
    : z ∈ xs.eraseIdx k := by
  obtain ⟨as, bs, hxs, -, herase⟩ := split h
  rw [herase]
  rw [hxs] at hz
  rcases mem_append.mp hz with has | hbs
  . exact mem_append_left _ has
  . rcases mem_cons.mp hbs with rfl | hbs
    . exact absurd rfl hne
    . exact mem_append_right _ hbs

theorem countP_set {p : α → Bool} {y : α} (h : xs[k]? = some x) (hp : p y = p x)
    : (xs.set k y).countP p = xs.countP p := by
  obtain ⟨as, bs, hxs, hset, -⟩ := split h
  rw [hset, hxs, countP_append, countP_append, countP_cons, countP_cons, hp]

theorem countP_eraseIdx {p : α → Bool} (h : xs[k]? = some x) (hp : p x = false)
    : (xs.eraseIdx k).countP p = xs.countP p := by
  obtain ⟨as, bs, hxs, -, herase⟩ := split h
  rw [herase, hxs, countP_append, countP_append, countP_cons_of_neg]
  rw [hp]
  exact Bool.false_ne_true

theorem map_set {β : Type v} {f : α → β} {y : α} (h : xs[k]? = some x) (heq : f y = f x)
    : (xs.set k y).map f = xs.map f := by
  obtain ⟨as, bs, hxs, hset, -⟩ := split h
  rw [hset, hxs, map_append, map_append, map_cons, map_cons, heq]

theorem sum_set_lt {f : α → Nat} {y : α} (h : xs[k]? = some x) (hlt : f y < f x)
    : ((xs.set k y).map f).sum < (xs.map f).sum := by
  obtain ⟨as, bs, hxs, hset, -⟩ := split h
  rw [hset, hxs, map_append, map_append, sum_append, sum_append, map_cons, map_cons,
    sum_cons, sum_cons]
  omega

theorem sum_eraseIdx {f : α → Nat} (h : xs[k]? = some x)
    : ((xs.eraseIdx k).map f).sum + f x = (xs.map f).sum := by
  obtain ⟨as, bs, hxs, -, herase⟩ := split h
  rw [herase, hxs, map_append, map_append, sum_append, sum_append, map_cons, sum_cons]
  omega

end Tasks
