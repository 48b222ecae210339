import Mathlib.Data.List.MinMax
import Wovyr.Lib.Map

/-!
This module contains maps whose values are stamped with when they were used, as lists in the order of the
stamps.
-/

namespace Recency

open List

variable {κ : Type u} {γ : Type v} {cmp : κ → κ → Ordering}

structure Stamped (stamp : γ → Nat) (m : Std.ExtTreeMap κ γ cmp) (tick : Nat) (xs : List (κ × γ))
    [Std.TransCmp cmp] : Prop where
  sorted : xs.Pairwise fun a b => stamp a.2 < stamp b.2
  mem : ∀ x, x ∈ xs ↔ m[x.1]? = some x.2
  le : ∀ x ∈ xs, stamp x.2 ≤ tick

def UsedSince (uses : List κ) (j k : κ) : Prop :=
  ∃ before since, uses = before ++ since ∧ k ∈ since ∧ j ∉ since

theorem UsedSince.snoc {uses : List κ} {j k k' : κ} (h : UsedSince uses j k) (hne : k' ≠ j)
    : UsedSince (uses ++ [k']) j k := by
  obtain ⟨before, since, rfl, hmem, hnot⟩ := h
  refine ⟨before, since ++ [k'], by rw [append_assoc], mem_append_left _ hmem, ?_⟩
  rw [mem_append, mem_singleton]
  exact fun h => h.elim hnot (Ne.symm hne)

theorem usedSince_last (uses : List κ) {j k : κ} (hne : k ≠ j) : UsedSince (uses ++ [k]) j k := by
  refine ⟨uses, [k], rfl, mem_cons_self, ?_⟩
  rw [mem_singleton]
  exact Ne.symm hne

namespace Stamped

variable [Std.TransCmp cmp] [Std.LawfulEqCmp cmp] [DecidableEq κ] {stamp : γ → Nat} {m : Std.ExtTreeMap κ γ cmp}
  {tick : Nat} {xs : List (κ × γ)}

omit [Std.LawfulEqCmp cmp] [DecidableEq κ] in
theorem empty : Stamped stamp (∅ : Std.ExtTreeMap κ γ cmp) tick [] where
  sorted := .nil
  mem x := by simp
  le := nofun

omit [Std.LawfulEqCmp cmp] [DecidableEq κ] in
theorem nodup (h : Stamped stamp m tick xs) : xs.Nodup := by
  apply h.sorted.imp
  intro a b hlt heq
  rw [heq] at hlt
  exact Nat.lt_irrefl _ hlt

omit [Std.LawfulEqCmp cmp] [DecidableEq κ] in
theorem keys (h : Stamped stamp m tick xs) : xs.Pairwise fun a b => a.1 ≠ b.1 := by
  apply h.sorted.imp_of_mem
  intro a b ha hb hlt heq
  have hfound := (h.mem a).mp ha
  rw [heq, (h.mem b).mp hb] at hfound
  rw [Option.some.inj hfound] at hlt
  exact Nat.lt_irrefl _ hlt

omit [DecidableEq κ] in
theorem perm (h : Stamped stamp m tick xs) : m.toList.Perm xs := by
  rw [perm_ext_iff_of_nodup (Map.nodup_toList m) h.nodup]
  intro x
  rw [h.mem, Std.ExtTreeMap.mem_toList_iff_getElem?_eq_some]

omit [DecidableEq κ] in
theorem size (h : Stamped stamp m tick xs) : m.size = xs.length := by
  rw [← Std.ExtTreeMap.length_toList]
  exact h.perm.length_eq

omit [Std.LawfulEqCmp cmp] in
theorem find (h : Stamped stamp m tick xs) (k : κ) : (xs.find? fun x => x.1 == k).map Prod.snd = m[k]? := by
  cases hfind : xs.find? fun x => x.1 == k with
  | some x =>
    have hkey : x.1 = k := by simpa using find?_some hfind
    rw [← hkey, Option.map_some]
    exact ((h.mem x).mp (mem_of_find?_eq_some hfind)).symm
  | none =>
    rw [find?_eq_none] at hfind
    cases hg : m[k]? with
    | none => rfl
    | some g => exact absurd (beq_self_eq_true k) (by simpa using hfind (k, g) ((h.mem (k, g)).mpr hg))

theorem erase (h : Stamped stamp m tick xs) (k : κ) : Stamped stamp (m.erase k) tick (xs.filter fun x => x.1 != k) where
  sorted := h.sorted.filter _
  mem x := by
    rw [mem_filter, h.mem, Map.getElem?_erase]
    by_cases hk : k = x.1
    . simp [hk]
    . simp [hk, Ne.symm hk]
  le x hx := h.le x (mem_filter.mp hx).1

omit [DecidableEq κ] in
theorem filter (h : Stamped stamp m tick xs) (p : γ → Bool)
    : Stamped stamp (m.filter fun _ g => p g) tick (xs.filter fun x => p x.2) where
  sorted := h.sorted.filter _
  mem x := by
    rw [mem_filter, h.mem, Std.ExtTreeMap.getElem?_filter']
    simp
  le x hx := h.le x (mem_filter.mp hx).1

theorem insert (h : Stamped stamp m tick xs) (k : κ) {g : γ} (hg : stamp g = tick + 1)
    : Stamped stamp (m.insert k g) (tick + 1) ((xs.filter fun x => x.1 != k) ++ [(k, g)]) where
  sorted := by
    rw [pairwise_append]
    refine ⟨h.sorted.filter _, pairwise_singleton _ _, ?_⟩
    intro a ha b hb
    have hle := h.le a (mem_filter.mp ha).1
    rw [mem_singleton.mp hb, hg]
    exact Nat.lt_succ_of_le hle
  mem x := by
    rw [mem_append, mem_filter, h.mem, Map.getElem?_insert, mem_singleton]
    by_cases hk : k = x.1
    . subst hk
      simp [Prod.ext_iff, eq_comm]
    . have hne : x ≠ (k, g) := fun heq => hk (by rw [heq])
      simp [hk, hne, Ne.symm hk]
  le x hx := by
    rcases mem_append.mp hx with hold | hnew
    . exact Nat.le_succ_of_le (h.le x (mem_filter.mp hold).1)
    . rw [mem_singleton.mp hnew]
      exact le_of_eq hg

omit [DecidableEq κ] in
theorem argmin (h : Stamped stamp m tick xs) : (m.toList.argmin fun x => stamp x.2) = xs.head? := by
  cases xs with
  | nil =>
    rw [perm_nil.mp h.perm]
    rfl
  | cons x xs =>
    cases hmin : m.toList.argmin fun x => stamp x.2 with
    | none =>
      have hmem := h.perm.mem_iff.mpr (mem_cons_self (a := x) (l := xs))
      rw [argmin_eq_none.mp hmin] at hmem
      cases hmem
    | some y =>
      have hy := h.perm.mem_iff.mp (argmin_mem hmin)
      rcases mem_cons.mp hy with heq | hlater
      . rw [heq]
        rfl
      . have hlt := (pairwise_cons.mp h.sorted).1 y hlater
        have hle := le_of_mem_argmin (h.perm.mem_iff.mpr mem_cons_self) hmin
        omega

theorem tail {x : κ × γ} (h : Stamped stamp m tick (x :: xs)) : Stamped stamp (m.erase x.1) tick xs := by
  have hrest : (x :: xs).filter (fun y => y.1 != x.1) = xs := by
    rw [filter_cons_of_neg (by simp), filter_eq_self]
    intro y hy
    simpa using Ne.symm ((pairwise_cons.mp h.keys).1 y hy)
  have herased := h.erase x.1
  rwa [hrest] at herased

end Recency.Stamped
