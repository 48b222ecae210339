import Mathlib.Data.List.Chain
import Mathlib.Data.List.Infix
import Mathlib.Data.List.TakeWhile

/-!
This module contains the groups of a list: the longest stretches whose members a predicate does not tell apart.
-/

namespace Groups

open List

variable {α : Type u} (p : α → Bool)

def groups : List α → List (List α)
  | [] => []
  | x :: xs => (x :: xs.takeWhile fun y => p y == p x) :: groups (xs.dropWhile fun y => p y == p x)
termination_by xs => xs.length
decreasing_by exact Nat.lt_succ_of_le (length_dropWhile_le _ _)

/--
Lists that are the groups of what they make up together.
-/
structure Grouped (gs : List (List α)) : Prop where
  ne_nil : ∀ g ∈ gs, g ≠ []
  uniform : ∀ g ∈ gs, ∀ a ∈ g, ∀ b ∈ g, p a = p b
  apart : gs.IsChain fun g g' => ∀ a ∈ g, ∀ b ∈ g', p a ≠ p b

variable {p} {xs : List α} {g : List α} {gs : List (List α)}

theorem flatten_groups (xs : List α) : (groups p xs).flatten = xs := by
  fun_induction groups p xs with
  | case1 => rfl
  | case2 x xs ih => rw [flatten_cons, ih, cons_append, takeWhile_append_dropWhile]

theorem eq_of_mem_takeWhile {x a : α} (h : a ∈ x :: xs.takeWhile fun y => p y == p x) : p a = p x := by
  cases mem_cons.mp h with
  | inl h => rw [h]
  | inr h =>
    have hp := mem_takeWhile_imp h
    exact beq_iff_eq.mp hp

theorem grouped_groups (xs : List α) : Grouped p (groups p xs) := by
  fun_induction groups p xs with
  | case1 => exact ⟨nofun, nofun, .nil⟩
  | case2 x xs ih =>
    refine ⟨?_, ?_, ?_⟩
    . intro g hg
      cases mem_cons.mp hg with
      | inl h =>
        rw [h]
        exact cons_ne_nil _ _
      | inr h => exact ih.ne_nil g h
    . intro g hg a ha b hb
      cases mem_cons.mp hg with
      | inl h =>
        rw [h] at ha hb
        rw [eq_of_mem_takeWhile ha, eq_of_mem_takeWhile hb]
      | inr h => exact ih.uniform g h a ha b hb
    . have hfirst := head?_dropWhile_not (fun y => p y == p x) xs
      cases hrest : xs.dropWhile fun y => p y == p x with
      | nil =>
        rw [groups]
        exact .singleton _
      | cons y ys =>
        rw [hrest] at ih hfirst
        rw [groups] at ih ⊢
        rw [isChain_cons_cons]
        refine ⟨?_, ih.apart⟩
        intro a ha b hb heq
        rw [eq_of_mem_takeWhile ha, eq_of_mem_takeWhile hb] at heq
        rw [head?_cons] at hfirst
        dsimp only at hfirst
        rw [← heq, beq_self_eq_true] at hfirst
        cases hfirst

namespace Grouped

theorem tail (h : Grouped p (g :: gs)) : Grouped p gs where
  ne_nil := fun g' hg' => h.ne_nil g' (mem_cons_of_mem g hg')
  uniform := fun g' hg' => h.uniform g' (mem_cons_of_mem g hg')
  apart := h.apart.tail

theorem head_ne (h : Grouped p (g :: gs)) {a b : α} (ha : a ∈ g) (hb : gs.flatten.head? = some b) : p a ≠ p b := by
  cases gs with
  | nil => cases hb
  | cons g' gs =>
    have hapart := (isChain_cons_cons.mp h.apart).1
    apply hapart a ha
    cases hg' : g' with
    | nil => exact absurd hg' (h.ne_nil g' (mem_cons_of_mem g mem_cons_self))
    | cons c cs =>
      rw [hg'] at hb
      cases hb
      exact mem_cons_self

theorem groups_flatten (h : Grouped p gs) : groups p gs.flatten = gs := by
  induction gs with
  | nil =>
    rw [flatten_nil, groups]
  | cons g gs ih =>
    cases hg : g with
    | nil => exact absurd hg (h.ne_nil g mem_cons_self)
    | cons x xs =>
      rw [hg] at h
      have hall : ∀ y ∈ xs, (p y == p x) = true := by
        intro y hy
        rw [beq_iff_eq]
        exact h.uniform _ mem_cons_self y (mem_cons_of_mem x hy) x mem_cons_self
      have hnone : (gs.flatten.takeWhile fun y => p y == p x) = []
          ∧ (gs.flatten.dropWhile fun y => p y == p x) = gs.flatten := by
        cases hrest : gs.flatten with
        | nil => exact ⟨rfl, rfl⟩
        | cons y ys =>
          have hne := h.head_ne mem_cons_self (b := y) (by rw [hrest]; rfl)
          have hfalse : (p y == p x) = false := by
            rw [beq_eq_false_iff_ne]
            exact hne.symm
          rw [takeWhile_cons_of_neg (by simp [hfalse]), dropWhile_cons_of_neg (by simp [hfalse])]
          exact ⟨rfl, rfl⟩
      rw [flatten_cons, cons_append, groups, takeWhile_append_of_pos hall, hnone.1, append_nil,
        dropWhile_append_of_pos hall, hnone.2, ih h.tail]

theorem map (h : Grouped p gs) {f : List α → List α} (hne : ∀ g ∈ gs, f g ≠ [])
    (hkind : ∀ g ∈ gs, ∀ b ∈ f g, ∃ a ∈ g, p b = p a) : Grouped p (gs.map f) where
  ne_nil := by
    intro _ hmem
    obtain ⟨g, hg, rfl⟩ := mem_map.mp hmem
    exact hne g hg
  uniform := by
    intro _ hmem a ha b hb
    obtain ⟨g, hg, rfl⟩ := mem_map.mp hmem
    obtain ⟨a', ha', hpa⟩ := hkind g hg a ha
    obtain ⟨b', hb', hpb⟩ := hkind g hg b hb
    rw [hpa, hpb]
    exact h.uniform g hg a' ha' b' hb'
  apart := by
    rw [isChain_map]
    apply List.IsChain.imp_of_mem_imp _ h.apart
    intro g g' hg hg' happart a ha b hb
    obtain ⟨a', ha', hpa⟩ := hkind g hg a ha
    obtain ⟨b', hb', hpb⟩ := hkind g' hg' b hb
    rw [hpa, hpb]
    exact happart a' ha' b' hb'

theorem infix_within (h : Grouped p gs) {w : List α} (hne : w ≠ []) (huniform : ∀ a ∈ w, ∀ b ∈ w, p a = p b)
    (hinside : w <:+: gs.flatten) : ∃ g ∈ gs, w <:+: g := by
  induction gs with
  | nil =>
    rw [flatten_nil, infix_nil] at hinside
    exact absurd hinside hne
  | cons g gs ih =>
    rw [flatten_cons, infix_append_iff] at hinside
    obtain hleft | hright | ⟨w₁, w₂, hw, hsuffix, hprefix⟩ := hinside
    . exact ⟨g, mem_cons_self, hleft⟩
    . obtain ⟨g', hg', hin⟩ := ih h.tail hright
      exact ⟨g', mem_cons_of_mem g hg', hin⟩
    . cases hw₁ : w₁ with
      | nil =>
        rw [hw₁, nil_append] at hw
        obtain ⟨g', hg', hin⟩ := ih h.tail (hw ▸ hprefix.isInfix)
        exact ⟨g', mem_cons_of_mem g hg', hin⟩
      | cons a as =>
        cases hw₂ : w₂ with
        | nil =>
          rw [hw₂, append_nil] at hw
          exact ⟨g, mem_cons_self, hw ▸ hsuffix.isInfix⟩
        | cons b bs =>
          -- It would go over the border, on whose two sides members are told apart.
          have hmem : a ∈ w₁ ∧ b ∈ w₂ := by
            rw [hw₁, hw₂]
            exact ⟨mem_cons_self, mem_cons_self⟩
          have hhead : gs.flatten.head? = some b := by
            obtain ⟨rest, hrest⟩ := hprefix
            rw [← hrest, hw₂]
            rfl
          have hsame : p a = p b := by
            apply huniform
            . rw [hw]
              exact mem_append_left _ hmem.1
            . rw [hw]
              exact mem_append_right _ hmem.2
          exact absurd hsame (h.head_ne (hsuffix.subset hmem.1) hhead)

end Groups.Grouped
