import Wovyr.Lib.Map

/-!
This module contains maps that are bounded in two ways. An entry carries the time of its insertion
and expires, and where the map is full the entry that was inserted first makes room.
-/

structure Aging (β : Type) where
  entries : Std.ExtTreeMap String (β × Nat) := ∅
  order : List String := []

namespace Aging

structure Bounds where
  ttl : Nat
  maxEntries : Nat

variable {β : Type} (bounds : Bounds) (now : Nat)

def expired (entries : Std.ExtTreeMap String (β × Nat)) (key : String) : Bool :=
  (entries[key]?).all fun e => decide (now - e.2 > bounds.ttl)

def evictFrom (makeRoom : Bool) (entries : Std.ExtTreeMap String (β × Nat)) : List String → Aging β
  | [] => ⟨entries, []⟩
  | key :: order =>
    if expired bounds now entries key || (makeRoom && decide (entries.size ≥ bounds.maxEntries)) then
      evictFrom makeRoom (entries.erase key) order
    else
      ⟨entries, key :: order⟩

def evict (makeRoom : Bool) (a : Aging β) : Aging β :=
  evictFrom bounds now makeRoom a.entries a.order

def put (key : String) (value : β) (a : Aging β) : Aging β :=
  let a := a.evict bounds now true
  { entries := a.entries.insert key (value, now), order := a.order ++ [key] }

def get? (a : Aging β) (key : String) : Option β :=
  (a.entries[key]?).map Prod.fst

variable {bounds : Bounds} {now : Nat} {a : Aging β}

theorem evictFrom_le {makeRoom : Bool} {entries : Std.ExtTreeMap String (β × Nat)}
    {order : List String} {key : String} {e : β × Nat}
    (h : (evictFrom bounds now makeRoom entries order).entries[key]? = some e)
    : entries[key]? = some e := by
  induction order generalizing entries with
  | nil => exact h
  | cons front order ih =>
    unfold evictFrom at h
    split at h
    . have herase := ih h
      exact Map.of_erase herase
    . exact h

theorem evictFrom_keeps {makeRoom : Bool} {entries : Std.ExtTreeMap String (β × Nat)}
    {order : List String} {key : String} {e : β × Nat} (h : entries[key]? = some e)
    (hfresh : now - e.2 ≤ bounds.ttl) (hroom : makeRoom = true → entries.size < bounds.maxEntries)
    : (evictFrom bounds now makeRoom entries order).entries[key]? = some e := by
  induction order generalizing entries with
  | nil => exact h
  | cons front order ih =>
    unfold evictFrom
    split
    . next hevict =>
      have hne : front ≠ key := by
        rintro rfl
        unfold expired at hevict
        rw [h, Option.all_some, decide_eq_false (Nat.not_lt.mpr hfresh), Bool.false_or,
          Bool.and_eq_true, decide_eq_true_eq] at hevict
        exact absurd (hroom hevict.1) (Nat.not_lt.mpr hevict.2)
      apply ih
      . rw [Map.getElem?_erase, if_neg hne]
        exact h
      . intro hmake
        exact Nat.lt_of_le_of_lt Std.ExtTreeMap.size_erase_le (hroom hmake)
    . exact h

theorem getElem?_put_of_ne {key key' : String} {value : β} {e : β × Nat} (hne : key ≠ key')
    (h : a.entries[key']? = some e) (hfresh : now - e.2 ≤ bounds.ttl)
    (hroom : a.entries.size < bounds.maxEntries)
    : (a.put bounds now key value).entries[key']? = some e := by
  unfold put
  dsimp only
  rw [Map.getElem?_insert_of_ne _ _ hne]
  exact evictFrom_keeps h hfresh fun _ => hroom

theorem get?_put_eq_some {key key' : String} {value value' : β}
    (h : (a.put bounds now key value).get? key' = some value')
    : (key' = key ∧ value' = value) ∨ a.get? key' = some value' := by
  unfold put get? at h
  dsimp only at h
  rw [Map.getElem?_insert] at h
  split at h
  . next heq =>
    cases h
    exact Or.inl ⟨heq.symm, rfl⟩
  . right
    rw [Option.map_eq_some_iff] at h
    obtain ⟨e, he, rfl⟩ := h
    unfold get?
    rw [evictFrom_le he, Option.map_some]

structure Queued (a : Aging β) : Prop where
  nodup : a.order.Nodup
  keyed : ∀ key : String, (a.entries[key]?).isSome = true ↔ key ∈ a.order

theorem Queued.size (h : a.Queued) : a.entries.size = a.order.length := by
  rw [← Std.ExtTreeMap.length_keys]
  apply List.Perm.length_eq
  rw [List.perm_ext_iff_of_nodup Std.ExtTreeMap.nodup_keys h.nodup]
  intro key
  rw [← h.keyed key, Std.ExtTreeMap.mem_keys, Std.ExtTreeMap.isSome_getElem?_iff_mem]

theorem queued_empty : (⟨∅, []⟩ : Aging β).Queued := by
  refine ⟨List.nodup_nil, ?_⟩
  intro key
  simp

theorem Queued.tail {entries : Std.ExtTreeMap String (β × Nat)} {key : String} {order : List String}
    (h : Queued ⟨entries, key :: order⟩) : Queued ⟨entries.erase key, order⟩ := by
  obtain ⟨hkey, hnodup⟩ := List.nodup_cons.mp h.nodup
  refine ⟨hnodup, ?_⟩
  intro key'
  dsimp only
  rw [Map.getElem?_erase]
  split
  . next heq =>
    subst heq
    exact ⟨nofun, fun hmem => absurd hmem hkey⟩
  . next hne =>
    rw [h.keyed key', List.mem_cons]
    exact ⟨fun hmem => hmem.resolve_left fun heq => hne heq.symm, .inr⟩

/--
What eviction leaves of a queue: the keys from some place on with their entries, each of those before it having
expired or stood in the way.
-/
structure Evicted (bounds : Bounds) (now : Nat) (makeRoom : Bool) (a a' : Aging β) (n : Nat) : Prop where
  queued : a'.Queued
  le : n ≤ a.order.length
  order : a'.order = a.order.drop n
  kept : ∀ key ∈ a'.order, a'.entries[key]? = a.entries[key]?
  reason : ∀ i key, i < n → a.order[i]? = some key →
    expired bounds now a.entries key = true
      ∨ (makeRoom = true ∧ bounds.maxEntries ≤ a.order.length - i)

theorem evictFrom_evicted {makeRoom : Bool} {entries : Std.ExtTreeMap String (β × Nat)} {order : List String}
    (h : Queued ⟨entries, order⟩)
    : ∃ n, Evicted bounds now makeRoom ⟨entries, order⟩ (evictFrom bounds now makeRoom entries order) n := by
  induction order generalizing entries with
  | nil => exact ⟨0, h, Nat.zero_le _, rfl, fun _ _ => rfl, fun _ _ hi => absurd hi (Nat.not_lt_zero _)⟩
  | cons front order ih =>
    unfold evictFrom
    split
    . next hevict =>
      obtain ⟨n, hrest⟩ := ih h.tail
      obtain ⟨hfront, -⟩ := List.nodup_cons.mp h.nodup
      have hsame {key : String} (hkey : key ∈ order) : (entries.erase front)[key]? = entries[key]? := by
        rw [Map.getElem?_erase, if_neg]
        rintro rfl
        exact hfront hkey
      refine ⟨n + 1, hrest.queued, Nat.succ_le_succ hrest.le, hrest.order, ?_, ?_⟩
      . intro key hkey
        rw [hrest.kept key hkey]
        rw [hrest.order] at hkey
        exact hsame (List.mem_of_mem_drop hkey)
      . intro i key hi hkey
        cases i with
        | zero =>
          cases hkey
          rw [Bool.or_eq_true, Bool.and_eq_true, decide_eq_true_eq] at hevict
          have hsize := h.size
          dsimp only at hsize
          rw [hsize] at hevict
          exact hevict
        | succ i =>
          have hkey' : order[i]? = some key := hkey
          cases hrest.reason i key (Nat.lt_of_succ_lt_succ hi) hkey' with
          | inl hexpired =>
            left
            unfold expired at hexpired ⊢
            dsimp only at hexpired ⊢
            rw [← hsame (List.mem_of_getElem? hkey')]
            exact hexpired
          | inr hroom =>
            right
            rw [List.length_cons, Nat.add_sub_add_right]
            exact hroom
    . exact ⟨0, h, Nat.zero_le _, rfl, fun _ _ => rfl, fun _ _ hi => absurd hi (Nat.not_lt_zero _)⟩

theorem Queued.evict (h : a.Queued) (makeRoom : Bool)
    : ∃ n, Evicted bounds now makeRoom a (a.evict bounds now makeRoom) n :=
  evictFrom_evicted h

theorem Queued.push (h : a.Queued) {key : String} (hkey : key ∉ a.order) (value : β)
    : Queued ⟨a.entries.insert key (value, now), a.order ++ [key]⟩ := by
  refine ⟨?_, ?_⟩
  . rw [List.nodup_append]
    refine ⟨h.nodup, List.nodup_cons.mpr ⟨List.not_mem_nil, List.nodup_nil⟩, ?_⟩
    rintro key' hkey' _ hmem rfl
    rw [List.mem_singleton] at hmem
    exact hkey (hmem ▸ hkey')
  . intro key'
    rw [Map.getElem?_insert, List.mem_append, List.mem_singleton]
    split
    . next heq => exact ⟨fun _ => .inr heq.symm, fun _ => rfl⟩
    . next hne =>
      rw [h.keyed key']
      exact ⟨.inl, fun hmem => hmem.resolve_right fun heq => hne heq.symm⟩

end Aging
