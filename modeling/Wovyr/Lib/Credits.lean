import Mathlib.Algebra.BigOperators.Ring.Finset
import Mathlib.Algebra.Order.BigOperators.Group.Finset
import Mathlib.Tactic.Linarith
import Mathlib.Tactic.Ring
import Wovyr.Lib.Map
import Wovyr.Lib.Run

/-!
This module contains turns that are taken by credit. With every turn each participant is credited
its weight, one with the greatest credit takes the turn, and it pays the sum of all weights for it.
-/

namespace Map

variable {α : Type u} {β : Type v} {M : Type w} {cmp : α → α → Ordering} [Std.TransCmp cmp]
  [Std.LawfulEqCmp cmp] [DecidableEq α] [AddCommMonoid M]

theorem mem_keys_toFinset {m : Std.ExtTreeMap α β cmp} {k : α} : k ∈ m.keys.toFinset ↔ ∃ v, m[k]? = some v := by
  rw [List.mem_toFinset, Std.ExtTreeMap.mem_keys, Std.ExtTreeMap.mem_iff_isSome_getElem?,
    Option.isSome_iff_exists]

theorem sum_values (m : Std.ExtTreeMap α β cmp) (f : β → M)
    : (m.values.map f).sum = ∑ k ∈ m.keys.toFinset, m[k]?.elim 0 f := by
  rw [List.sum_toFinset _ Std.ExtTreeMap.nodup_keys, values_eq, ← Std.ExtTreeMap.map_fst_toList_eq_keys,
    List.map_map, List.map_map]
  congr 1
  apply List.map_congr_left
  rintro ⟨k, v⟩ hmem
  have hfound : m[k]? = some v := Std.ExtTreeMap.mem_toList_iff_getElem?_eq_some.mp hmem
  show f v = m[k]?.elim 0 f
  rw [hfound, Option.elim_some]

end Map

namespace Credits

variable {ι : Type u} [DecidableEq ι] (s : Finset ι) (w : ι → Int)

def total : Int :=
  ∑ i ∈ s, w i

def turn (c : ι → Int) (p : ι) : ι → Int :=
  fun i => c i + w i - if i = p then total s w else 0

def Next (c : ι → Int) (p : ι) : Prop :=
  p ∈ s ∧ ∀ i ∈ s, c i + w i ≤ c p + w p

abbrev Turns : (ι → Int) → List ι → (ι → Int) → Prop :=
  Run (Guarded (Next s w) (turn s w))

def Level (c : ι → Int) : Prop :=
  ∀ i ∈ s, c i = 0

variable {s w} {c c' : ι → Int} {ps : List ι}

theorem Turns.mem (h : Turns s w c ps c') : ∀ p ∈ ps, p ∈ s := by
  induction h with
  | nil => nofun
  | cons hstep _ ih => exact List.forall_mem_cons.mpr ⟨hstep.1.1, ih⟩

theorem Turns.credit_eq (h : Turns s w c ps c') (i : ι)
    : c' i = c i + ps.length * w i - total s w * ps.count i := by
  induction h with
  | nil => simp
  | @cons c _ _ p ps hstep _ ih =>
    obtain ⟨-, rfl⟩ := hstep
    rw [ih, turn, List.length_cons, List.count_cons]
    by_cases hi : i = p
    . subst hi
      simp only [if_true, BEq.rfl]
      push_cast
      ring
    . have hp : (p == i) = false := beq_false_of_ne (Ne.symm hi)
      simp only [if_neg hi, hp, Bool.false_eq_true, if_false]
      push_cast
      ring

theorem sum_turn {p : ι} (hp : p ∈ s) : ∑ i ∈ s, turn s w c p i = ∑ i ∈ s, c i := by
  unfold turn
  rw [Finset.sum_sub_distrib, Finset.sum_add_distrib, Finset.sum_ite_eq', if_pos hp]
  unfold total
  omega

theorem Turns.count_le (hw : ∀ i ∈ s, 0 < w i) (h : Turns s w c ps c') (hsum : ∑ i ∈ s, c i = 0) {n : Nat}
    {a : ι → Nat} (hc : ∀ i ∈ s, c i = n * w i - total s w * a i) (ha : ∀ i ∈ s, (a i : Int) ≤ w i)
    (hlength : ((n + ps.length : Nat) : Int) ≤ total s w)
    : ∀ i ∈ s, ((a i + ps.count i : Nat) : Int) ≤ w i := by
  induction h generalizing n a with
  | nil => simpa using ha
  | @cons c _ _ p ps hstep _ ih =>
    obtain ⟨⟨hp, hmax⟩, rfl⟩ := hstep
    have hpos : 0 < c p + w p := by
      by_contra hnot
      have hle : ∀ i ∈ s, c i + w i ≤ 0 := fun i hi => le_trans (hmax i hi) (not_lt.mp hnot)
      have hnone : ∑ i ∈ s, (c i + w i) ≤ 0 := Finset.sum_nonpos hle
      have hsome : 0 < ∑ i ∈ s, w i := Finset.sum_pos hw ⟨p, hp⟩
      rw [Finset.sum_add_distrib, hsum] at hnone
      omega
    rw [List.length_cons] at hlength
    have hroom : ((a p : Int)) < w p := by
      by_contra hfull
      have heq : (a p : Int) = w p := le_antisymm (ha p hp) (not_lt.mp hfull)
      rw [hc p hp, heq] at hpos
      have hless : ((n : Int) + 1 - total s w) * w p ≤ 0 := by
        apply mul_nonpos_of_nonpos_of_nonneg
        . push_cast at hlength
          omega
        . exact le_of_lt (hw p hp)
      linarith
    have hrest := ih (n := n + 1) (a := fun i => a i + if i = p then 1 else 0) (by rw [sum_turn hp, hsum]) ?_ ?_ ?_
    . intro i hi
      have hcount := hrest i hi
      rw [List.count_cons]
      by_cases hip : i = p
      . subst hip
        simp only [if_true, BEq.rfl] at hcount ⊢
        push_cast at hcount ⊢
        omega
      . have hne : (p == i) = false := beq_false_of_ne (Ne.symm hip)
        simp only [if_neg hip, hne, Bool.false_eq_true, if_false] at hcount ⊢
        exact hcount
    . intro i hi
      rw [turn, hc i hi]
      split
      . push_cast
        ring
      . push_cast
        ring
    . intro i hi
      by_cases hip : i = p
      . subst hip
        simp only [if_true]
        push_cast
        omega
      . simp only [if_neg hip, Nat.add_zero]
        exact ha i hi
    . push_cast at hlength ⊢
      omega

theorem sum_count (h : ∀ p ∈ ps, p ∈ s) : ∑ i ∈ s, ps.count i = ps.length := by
  rw [← Multiset.coe_card, ← Multiset.sum_count_eq_card (s := s) (m := (ps : Multiset ι)) (by simpa using h)]
  simp

/-- One round of turns. -/
theorem Turns.round (hw : ∀ i ∈ s, 0 < w i) (h : Turns s w c ps c') (hc : Level s c)
    (hlength : (ps.length : Int) = total s w) : (∀ i ∈ s, (ps.count i : Int) = w i) ∧ Level s c' := by
  have hsum : ∑ i ∈ s, c i = 0 := Finset.sum_eq_zero hc
  have hle : ∀ i ∈ s, (ps.count i : Int) ≤ w i := by
    have hcount := h.count_le hw hsum (n := 0) (a := fun _ => 0) ?_ ?_ ?_
    . simpa using hcount
    . intro i hi
      simp [hc i hi]
    . intro i hi
      exact le_of_lt (hw i hi)
    . rw [Nat.zero_add]
      exact le_of_eq hlength
  have hall : ∑ i ∈ s, (ps.count i : Int) = ∑ i ∈ s, w i := by
    rw [← Nat.cast_sum, sum_count h.mem, hlength]
    rfl
  have heq : ∀ i ∈ s, (ps.count i : Int) = w i := (Finset.sum_eq_sum_iff_of_le hle).mp hall
  refine ⟨heq, ?_⟩
  intro i hi
  rw [h.credit_eq i, hc i hi, hlength, heq i hi]
  ring

/-- However many rounds there are, each of them gives every participant as many turns as its weight. -/
theorem Turns.rounds (hw : ∀ i ∈ s, 0 < w i) (h : Turns s w c ps c') (hc : Level s c) {n : Nat}
    (hn : (n : Int) = total s w)
    : (∀ k, (k + 1) * n ≤ ps.length → ∀ i ∈ s, (((ps.drop (k * n)).take n).count i : Int) = w i)
        ∧ (n ∣ ps.length → Level s c') := by
  induction hlength : ps.length using Nat.strong_induction_on generalizing ps c with
  | _ length ih =>
    by_cases hshort : ps.length < n
    . constructor
      . intro k hk
        have hle : n ≤ (k + 1) * n := Nat.le_mul_of_pos_left n (Nat.succ_pos k)
        omega
      . intro hdvd
        have hzero : length = 0 := Nat.eq_zero_of_dvd_of_lt hdvd (by omega)
        rw [hzero, List.length_eq_zero_iff] at hlength
        subst hlength
        cases h
        exact hc
    . by_cases hpos : n = 0
      . subst hpos
        constructor
        . intro k _ i hi
          have hsome : 0 < total s w := Finset.sum_pos hw ⟨i, hi⟩
          omega
        . intro _ i hi
          have hsome : 0 < total s w := Finset.sum_pos hw ⟨i, hi⟩
          omega
      . obtain ⟨m, hfirst, hlast⟩ := Run.of_append (by rwa [List.take_append_drop n ps])
        have htake : (ps.take n).length = n := by
          rw [List.length_take]
          omega
        obtain ⟨hcount, hlevel⟩ := Turns.round hw hfirst hc (by rw [htake, hn])
        have hrest := ih (length - n) (by omega) hlast hlevel (by rw [List.length_drop, hlength])
        constructor
        . intro k hk
          cases k with
          | zero => simpa using hcount
          | succ k =>
            have hblock : ps.drop ((k + 1) * n) = (ps.drop n).drop (k * n) := by
              rw [List.drop_drop, Nat.succ_mul, Nat.add_comm]
            rw [hblock]
            apply hrest.1 k
            rw [Nat.succ_mul] at hk
            omega
        . intro hdvd
          exact hrest.2 ((Nat.dvd_sub_iff_left (by omega) (Nat.dvd_refl n)).mpr hdvd)

end Credits
