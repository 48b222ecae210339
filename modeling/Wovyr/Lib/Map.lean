import Mathlib.Algebra.Order.Ring.Int
import Std.Data.ExtTreeMap
import Mathlib.Data.List.Perm.Subperm

/-!
This module contains the lookup lemmas of ordered maps, stated with equality of the keys where the
comparison of the keys is lawful.
-/

namespace Map

open Std.ExtTreeMap

theorem values_eq {α : Type u} {β : Type v} {cmp : α → α → Ordering} [Std.TransCmp cmp]
    (m : Std.ExtTreeMap α β cmp) : m.values = m.toList.map Prod.snd := by
  cases m with
  | mk m =>
    induction m using Std.ExtDTreeMap.inductionOn with
    | mk m =>
      have hvalues := Std.DTreeMap.Internal.Impl.values_eq_map_snd (t := m.inner)
      have hlist := Std.DTreeMap.Internal.Impl.Const.toList_eq_toListModel_map (t := m.inner)
      show m.inner.values = (Std.DTreeMap.Internal.Impl.Const.toList m.inner).map Prod.snd
      rw [hvalues, hlist, List.map_map]
      rfl

variable {α : Type u} {β : Type v} {cmp : α → α → Ordering} [Std.TransCmp cmp] [Std.LawfulEqCmp cmp]
  [DecidableEq α]

theorem getElem?_insert (m : Std.ExtTreeMap α β cmp) (k k' : α) (v : β)
    : (m.insert k v)[k']? = if k = k' then some v else m[k']? := by
  rw [Std.ExtTreeMap.getElem?_insert]
  simp only [Std.LawfulEqCmp.compare_eq_iff_eq]

theorem getElem?_erase (m : Std.ExtTreeMap α β cmp) (k k' : α)
    : (m.erase k)[k']? = if k = k' then none else m[k']? := by
  rw [Std.ExtTreeMap.getElem?_erase]
  simp only [Std.LawfulEqCmp.compare_eq_iff_eq]

theorem getElem?_insert_of_ne (m : Std.ExtTreeMap α β cmp) {k k' : α} (v : β) (h : k ≠ k')
    : (m.insert k v)[k']? = m[k']? := by
  rw [getElem?_insert, if_neg h]

theorem of_insert {m : Std.ExtTreeMap α β cmp} {k k' : α} {v w : β} (h : (m.insert k v)[k']? = some w)
    : (k = k' ∧ v = w) ∨ m[k']? = some w := by
  rw [getElem?_insert] at h
  split at h
  . next hk => exact .inl ⟨hk, Option.some.inj h⟩
  . exact .inr h

theorem of_erase {m : Std.ExtTreeMap α β cmp} {k k' : α} {w : β} (h : (m.erase k)[k']? = some w)
    : m[k']? = some w := by
  rw [getElem?_erase] at h
  split at h
  . cases h
  . exact h

omit [DecidableEq α] in
theorem mem_values {m : Std.ExtTreeMap α β cmp} {v : β} : v ∈ m.values ↔ ∃ k : α, m[k]? = some v := by
  simp only [values_eq, List.mem_map, Prod.exists, mem_toList_iff_getElem?_eq_some,
    exists_eq_right]

omit [DecidableEq α] in
theorem size_le_of_subset {m : Std.ExtTreeMap α β cmp} {m' : Std.ExtTreeMap α γ cmp}
    (h : ∀ k, k ∈ m → k ∈ m') : m.size ≤ m'.size := by
  rw [← length_keys, ← length_keys]
  apply List.Subperm.length_le
  apply List.subperm_of_subset nodup_keys
  intro k hk
  exact mem_keys.mpr (h k (mem_keys.mp hk))

omit [Std.LawfulEqCmp cmp] [DecidableEq α] in
theorem nodup_toList (m : Std.ExtTreeMap α β cmp) : m.toList.Nodup := by
  have hkeys := @nodup_keys α β cmp m _
  rw [← map_fst_toList_eq_keys] at hkeys
  refine List.Pairwise.of_map Prod.fst ?_ hkeys
  intro a b hne heq
  exact hne (by rw [heq])

omit [DecidableEq α] in
theorem map_values_eq_keys {m : Std.ExtTreeMap α β cmp} {f : β → α} (h : ∀ k v, m[k]? = some v → f v = k)
    : m.values.map f = m.keys := by
  rw [values_eq, List.map_map, ← map_fst_toList_eq_keys]
  apply List.map_congr_left
  rintro ⟨k, v⟩ hmem
  exact h k v (mem_toList_iff_getElem?_eq_some.mp hmem)

theorem toList_insert_perm (m : Std.ExtTreeMap α β cmp) (k : α) (v : β)
    : (m.insert k v).toList.Perm ((k, v) :: (m.erase k).toList) := by
  apply (List.perm_ext_iff_of_nodup (nodup_toList _) ?_).mpr
  . rintro ⟨k', v'⟩
    simp only [List.mem_cons, mem_toList_iff_getElem?_eq_some, getElem?_insert,
      getElem?_erase, Prod.mk.injEq]
    by_cases h : k = k'
    . simp [h, eq_comm]
    . simp [h, Ne.symm h]
  . simp [nodup_toList, mem_toList_iff_getElem?_eq_some]

theorem toList_perm_erase {m : Std.ExtTreeMap α β cmp} {k : α} {v : β} (h : m[k]? = some v)
    : m.toList.Perm ((k, v) :: (m.erase k).toList) := by
  apply (List.perm_ext_iff_of_nodup (nodup_toList _) ?_).mpr
  . rintro ⟨k', v'⟩
    simp only [List.mem_cons, mem_toList_iff_getElem?_eq_some, getElem?_erase,
      Prod.mk.injEq]
    by_cases heq : k = k'
    . subst heq
      simp [h, eq_comm]
    . simp [heq, Ne.symm heq]
  . simp [nodup_toList, mem_toList_iff_getElem?_eq_some]

end Map
