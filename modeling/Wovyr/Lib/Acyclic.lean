import Mathlib.Order.WellFoundedSet

/-!
This module contains relations without a cycle: how one changes around a single element, and in which
order its elements can be taken away.
-/

open Relation

def Acyclic {α : Type u} (r : α → α → Prop) : Prop :=
  ∀ a, ¬TransGen r a a

namespace Acyclic

variable {α : Type u} {r r' : α → α → Prop}

theorem mono (h : Acyclic r) (hsub : ∀ a b, r' a b → r a b) : Acyclic r' := by
  intro a hcycle
  exact h a (TransGen.mono hsub a a hcycle)

-- No path from an element whose predecessors can be gone through leads back to it.
theorem of_acc (h : ∀ a b, r a b → Acc r b) : Acyclic r := by
  intro a hcycle
  have hacc : Acc (TransGen r) a := by
    cases hcycle with
    | single hstep => exact (h _ _ hstep).transGen
    | tail _ hstep => exact (h _ _ hstep).transGen
  induction hacc with
  | intro a _ ih => exact ih a hcycle hcycle

theorem exists_unreferenced (h : Acyclic r) {s : Set α} (hfinite : s.Finite) (hs : s.Nonempty)
    : ∃ a ∈ s, ∀ b ∈ s, ¬r b a := by
  have horder : IsStrictOrder α (TransGen r) := { irrefl := h, trans := fun _ _ _ => .trans }
  have hmin := hfinite.wellFoundedOn (r := TransGen r)
  obtain ⟨a, -, ha⟩ := hmin.has_min Set.univ (hs.to_subtype.elim fun a => ⟨a, trivial⟩)
  refine ⟨a, a.property, ?_⟩
  intro b hb hr
  exact ha ⟨b, hb⟩ trivial (.single hr)

/-- The relation between the elements other than `c`. -/
def Off (c : α) (r : α → α → Prop) (a b : α) : Prop :=
  a ≠ c ∧ b ≠ c ∧ r a b

theorem off_of_transGen {c a : α} (hself : ¬r c c)
    (hback : ∀ a b, r c a → ReflTransGen (Off c r) a b → ¬r b c) (h : TransGen r c a)
    : a ≠ c ∧ ∃ b, r c b ∧ ReflTransGen (Off c r) b a := by
  induction h with
  | single hstep =>
    refine ⟨?_, _, hstep, .refl⟩
    rintro rfl
    exact hself hstep
  | @tail a b _ hstep ih =>
    obtain ⟨ha, first, hfirst, hpath⟩ := ih
    have hb : b ≠ c := by
      rintro rfl
      exact hback first a hfirst hpath hstep
    exact ⟨hb, first, hfirst, hpath.tail ⟨ha, hb, hstep⟩⟩

theorem off_or_through {c a b : α} (ha : a ≠ c) (h : TransGen r a b)
    : TransGen (Off c r) a b ∨ (TransGen r a c ∧ ReflTransGen r c b) := by
  induction h with
  | @single b hstep =>
    by_cases hb : b = c
    . subst hb
      exact .inr ⟨.single hstep, .refl⟩
    . exact .inl (.single ⟨ha, hb, hstep⟩)
  | @tail m b hpath hstep ih =>
    cases ih with
    | inr hthrough => exact .inr ⟨hthrough.1, hthrough.2.tail hstep⟩
    | inl hoff =>
      have hm : m ≠ c := by
        cases hoff with
        | single h => exact h.2.1
        | tail _ h => exact h.2.1
      by_cases hb : b = c
      . subst hb
        exact .inr ⟨hpath.tail hstep, .refl⟩
      . exact .inl (hoff.tail ⟨hm, hb, hstep⟩)

/--
A relation has no cycle if there is none between the elements other than `c`, and no path that leaves `c`
leads back to it.
-/
theorem of_off {c : α} (h : Acyclic (Off c r)) (hself : ¬r c c)
    (hback : ∀ a b, r c a → ReflTransGen (Off c r) a b → ¬r b c) : Acyclic r := by
  have hc : ¬TransGen r c c := fun hcycle => (off_of_transGen hself hback hcycle).1 rfl
  intro a hcycle
  by_cases ha : a = c
  . exact hc (ha ▸ hcycle)
  . cases off_or_through ha hcycle with
    | inl hoff => exact h a hoff
    | inr hthrough => exact hc (.trans_right hthrough.2 hthrough.1)

end Acyclic

/-- A list in which every element comes after all that it is related to. -/
def Topological {α : Type u} (r : α → α → Prop) (order : List α) : Prop :=
  ∀ before a after, order = before ++ a :: after → ∀ b, r a b → b ∈ before

namespace Topological

variable {α : Type u} {r : α → α → Prop} {order : List α} {a b : α}

theorem nil : Topological r [] := by
  intro before a after h
  simp at h

theorem snoc (h : Topological r order) (ha : ∀ b, r a b → b ∈ order) : Topological r (order ++ [a]) := by
  intro before c after heq b hr
  cases List.eq_nil_or_concat after with
  | inl hnil =>
    subst hnil
    have hsplit := List.append_inj' heq rfl
    cases hsplit.2
    rw [← hsplit.1]
    exact ha b hr
  | inr hconcat =>
    obtain ⟨front, last, hafter⟩ := hconcat
    rw [hafter, List.concat_eq_append, ← List.cons_append, ← List.append_assoc] at heq
    exact h before c front (List.append_inj' heq rfl).1 b hr

theorem closed (h : Topological r order) (ha : a ∈ order) (hr : r a b) : b ∈ order := by
  obtain ⟨before, after, heq⟩ := List.append_of_mem ha
  rw [heq]
  exact List.mem_append_left _ (h before a after heq b hr)

theorem reachable (h : Topological r order) (ha : a ∈ order) (hpath : ReflTransGen r a b) : b ∈ order := by
  induction hpath with
  | refl => exact ha
  | tail _ hstep ih => exact h.closed ih hstep

theorem acc (h : Topological r order) (ha : a ∈ order) : Acc (flip r) a := by
  have hgo (n : Nat) (before : List α) (a : α) (after : List α) (hlength : before.length = n)
      (heq : order = before ++ a :: after) : Acc (flip r) a := by
    induction n using Nat.strongRecOn generalizing before a after with
    | ind n ih =>
      constructor
      intro b hr
      obtain ⟨front, back, hbefore⟩ := List.append_of_mem (h before a after heq b hr)
      apply ih front.length _ front b (back ++ a :: after) rfl
      . rw [heq, hbefore]
        simp
      . rw [← hlength, hbefore]
        simp
  obtain ⟨before, after, heq⟩ := List.append_of_mem ha
  exact hgo before.length before a after rfl heq

theorem irrefl (h : Topological r order) (ha : a ∈ order) : ¬TransGen r a a := by
  intro hcycle
  have hacc : Acc (TransGen (flip r)) a := (h.acc ha).transGen
  have hback : TransGen (flip r) a a := Relation.transGen_swap.mpr hcycle
  induction hacc with
  | intro a _ ih => exact ih a hback (h.reachable ha hcycle.to_reflTransGen) hcycle hback

end Topological
