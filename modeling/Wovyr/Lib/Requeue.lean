import Wovyr.Lib.Aging

/-!
This module contains what becomes of a bounded map when a key can be inserted again while it is in the queue. It
stands there twice then, and the place that counts is the last one.
-/

namespace Aging

open List

structure Item (β : Type) where
  key : String
  body : β
  insertedAtMs : Nat
deriving DecidableEq

namespace Item

variable {β : Type}

def lasts : List (Item β) → List (Item β)
  | [] => []
  | item :: items => if item.key ∈ items.map (·.key) then lasts items else item :: lasts items

theorem lasts_cons (item : Item β) (items : List (Item β))
    : lasts (item :: items)
      = if item.key ∈ items.map (·.key) then lasts items else item :: lasts items := rfl

theorem mem_keys_lasts {items : List (Item β)} {key : String}
    : key ∈ (lasts items).map (·.key) ↔ key ∈ items.map (·.key) := by
  induction items with
  | nil => exact Iff.rfl
  | cons item items ih =>
    rw [lasts_cons]
    split
    . next hagain =>
      rw [ih, map_cons, mem_cons]
      exact ⟨.inr, fun hmem => hmem.elim (fun heq => heq ▸ hagain) id⟩
    . rw [map_cons, mem_cons, ih, map_cons, mem_cons]

theorem nodup_lasts (items : List (Item β)) : ((lasts items).map (·.key)).Nodup := by
  induction items with
  | nil => exact nodup_nil
  | cons item items ih =>
    rw [lasts_cons]
    split
    . exact ih
    . next hlast =>
      rw [map_cons, nodup_cons, mem_keys_lasts]
      exact ⟨hlast, ih⟩

theorem lasts_map {f : Item β → Item β} (hf : ∀ item, (f item).key = item.key) (items : List (Item β))
    : lasts (items.map f) = (lasts items).map f := by
  have hkeys (items : List (Item β)) : (items.map f).map (·.key) = items.map (·.key) := by
    rw [map_map]
    exact map_congr_left fun item _ => hf item
  induction items with
  | nil => rfl
  | cons item items ih =>
    rw [map_cons, lasts_cons, lasts_cons, hkeys, hf, ih]
    split
    . rfl
    . rfl

theorem lasts_snoc (items : List (Item β)) (item : Item β)
    : lasts (items ++ [item]) = (lasts items).filter (·.key ≠ item.key) ++ [item] := by
  induction items with
  | nil => rfl
  | cons front items ih =>
    rw [cons_append, lasts_cons, lasts_cons]
    have hkeys : front.key ∈ (items ++ [item]).map (·.key) ↔ front.key ∈ items.map (·.key) ∨ front.key = item.key := by
      rw [map_append, mem_append, map_singleton, mem_singleton]
    rw [ih]
    by_cases hagain : front.key ∈ items.map (·.key)
    . rw [if_pos (hkeys.mpr (.inl hagain)), if_pos hagain]
    . rw [if_neg hagain, filter_cons]
      by_cases hsame : front.key = item.key
      . rw [if_pos (hkeys.mpr (.inr hsame)), if_neg (by simpa using hsame)]
      . rw [if_neg (fun hmem => (hkeys.mp hmem).elim hagain hsame), if_pos (by simpa using hsame), cons_append]

theorem lasts_cons_of_new {item : Item β} {items : List (Item β)} (h : item.key ∉ items.map (·.key))
    : lasts (item :: items) = item :: lasts items :=
  if_neg h

theorem filter_of_new {items : List (Item β)} {key : String} (h : key ∉ items.map (·.key))
    : items.filter (·.key ≠ key) = items := by
  rw [filter_eq_self]
  intro item hitem
  rw [decide_eq_true_eq]
  rintro rfl
  exact h (mem_map_of_mem hitem)

theorem length_le_filter {items : List (Item β)} (h : (items.map (·.key)).Nodup) (key : String)
    : items.length ≤ (items.filter (·.key ≠ key)).length + 1 := by
  induction items with
  | nil => exact Nat.zero_le _
  | cons item items ih =>
    rw [map_cons, nodup_cons] at h
    obtain ⟨hnew, hnodup⟩ := h
    rw [filter_cons, length_cons]
    split
    . rw [length_cons]
      exact Nat.succ_le_succ (ih hnodup)
    . next hsame =>
      obtain rfl : item.key = key := by simpa using hsame
      exact Nat.succ_le_succ (Nat.le_of_eq (congrArg length (filter_of_new hnew).symm))

end Item

open Item

variable {β : Type}

def push (a : Aging β) (item : Item β) : Aging β where
  entries := a.entries.insert item.key (item.body, item.insertedAtMs)
  order := a.order ++ [item.key]

def ofItems (items : List (Item β)) : Aging β :=
  items.foldl push {}

def items (a : Aging β) : List (Item β) :=
  a.order.filterMap fun key => (a.entries[key]?).map fun e => ⟨key, e.1, e.2⟩

structure Holds (a : Aging β) (items : List (Item β)) : Prop where
  order : a.order = items.map (·.key)
  entries : ∀ key e, a.entries[key]? = some e ↔
    ∃ item ∈ Item.lasts items, item.key = key ∧ e = (item.body, item.insertedAtMs)

variable {a : Aging β} {xs : List (Item β)}

theorem holds_empty : Holds ({} : Aging β) [] := by
  refine ⟨rfl, ?_⟩
  intro key e
  rw [Std.ExtTreeMap.getElem?_empty]
  exact ⟨nofun, nofun⟩

theorem Holds.find (h : a.Holds xs) {item : Item β} (hitem : item ∈ Item.lasts xs)
    : a.entries[item.key]? = some (item.body, item.insertedAtMs) :=
  (h.entries _ _).mpr ⟨item, hitem, rfl, rfl⟩

theorem Holds.isSome_iff (h : a.Holds xs) (key : String)
    : (a.entries[key]?).isSome = true ↔ key ∈ xs.map (·.key) := by
  rw [← mem_keys_lasts, Option.isSome_iff_exists, mem_map]
  constructor
  . rintro ⟨e, he⟩
    obtain ⟨item, hitem, hkey, -⟩ := (h.entries key e).mp he
    exact ⟨item, hitem, hkey⟩
  . rintro ⟨item, hitem, rfl⟩
    exact ⟨_, h.find hitem⟩

theorem Holds.size (h : a.Holds xs) : a.entries.size = (Item.lasts xs).length := by
  rw [← Std.ExtTreeMap.length_keys, ← length_map key]
  apply List.Perm.length_eq
  rw [perm_ext_iff_of_nodup Std.ExtTreeMap.nodup_keys (nodup_lasts xs)]
  intro key
  rw [mem_keys_lasts, ← h.isSome_iff, Std.ExtTreeMap.mem_keys, Std.ExtTreeMap.isSome_getElem?_iff_mem]

theorem Holds.push (h : a.Holds xs) (item : Item β) : (a.push item).Holds (xs ++ [item]) := by
  refine ⟨?_, ?_⟩
  . rw [map_append, ← h.order]
    rfl
  . intro key e
    unfold Aging.push
    dsimp only
    rw [Map.getElem?_insert, lasts_snoc]
    split
    . next heq =>
      subst heq
      constructor
      . intro he
        exact ⟨item, mem_append_right _ (mem_singleton_self _), rfl, (Option.some.inj he).symm⟩
      . rintro ⟨other, hother, hkey, rfl⟩
        cases mem_append.mp hother with
        | inl hold => exact absurd hkey (by simpa using (mem_filter.mp hold).2)
        | inr hnew => rw [mem_singleton.mp hnew]
    . next hne =>
      rw [h.entries]
      constructor
      . rintro ⟨other, hother, rfl, rfl⟩
        refine ⟨other, mem_append_left _ (mem_filter.mpr ⟨hother, ?_⟩), rfl, rfl⟩
        simpa using fun heq => hne heq.symm
      . rintro ⟨other, hother, rfl, rfl⟩
        cases mem_append.mp hother with
        | inl hold => exact ⟨other, (mem_filter.mp hold).1, rfl, rfl⟩
        | inr hnew => exact absurd (congrArg (·.key) (mem_singleton.mp hnew)).symm hne

theorem Holds.foldl (h : a.Holds xs) (more : List (Item β)) : (more.foldl Aging.push a).Holds (xs ++ more) := by
  induction more generalizing a xs with
  | nil =>
    rw [append_nil]
    exact h
  | cons item more ih =>
    rw [foldl_cons, append_cons]
    exact ih (h.push item)

theorem holds_ofItems (xs : List (Item β)) : (ofItems xs).Holds xs :=
  (holds_empty).foldl xs

theorem Holds.items (h : a.Holds xs) : Item.lasts a.items = Item.lasts xs := by
  let current (item : Item β) : Item β :=
    ((a.entries[item.key]?).map fun e => ⟨item.key, e.1, e.2⟩).getD item
  have hkey (item : Item β) : (current item).key = item.key := by
    unfold current
    cases a.entries[item.key]? <;> rfl
  have hitems : a.items = xs.map current := by
    unfold Aging.items
    rw [h.order, filterMap_map, ← filterMap_eq_map]
    apply filterMap_congr
    intro item hitem
    have hsome := (h.isSome_iff item.key).mpr (mem_map_of_mem hitem)
    obtain ⟨e, he⟩ := Option.isSome_iff_exists.mp hsome
    unfold current
    simp only [Function.comp_apply, he, Option.map_some, Option.getD_some]
  rw [hitems, lasts_map hkey]
  conv => rhs; rw [← map_id (Item.lasts xs)]
  apply map_congr_left
  intro item hitem
  unfold current
  rw [h.find hitem]
  rfl

variable {bounds : Bounds} {now : Nat} {makeRoom : Bool}

theorem evictFrom_order_length_le (entries : Std.ExtTreeMap String (β × Nat)) (order : List String)
    : (evictFrom bounds now makeRoom entries order).order.length ≤ order.length := by
  induction order generalizing entries with
  | nil => exact Nat.le_refl _
  | cons key order ih =>
    unfold evictFrom
    split
    . exact Nat.le_succ_of_le (ih _)
    . exact Nat.le_refl _

theorem evict_evict (a : Aging β) : (a.evict bounds now false).evict bounds now true = a.evict bounds now true := by
  unfold evict
  obtain ⟨entries, order⟩ := a
  dsimp only
  induction order generalizing entries with
  | nil => rfl
  | cons key order ih =>
    cases hexpired : expired bounds now entries key with
    | true =>
      have hpop (makeRoom : Bool) : evictFrom bounds now makeRoom entries (key :: order)
          = evictFrom bounds now makeRoom (entries.erase key) order := by
        conv => lhs; unfold evictFrom
        rw [hexpired]
        rfl
      rw [hpop, hpop]
      exact ih _
    | false =>
      have hstay : evictFrom bounds now false entries (key :: order) = ⟨entries, key :: order⟩ := by
        unfold evictFrom
        rw [hexpired]
        rfl
      rw [hstay]

/--
No key that an eviction gives up is in the queue again behind its place, from where the entry that it loses was
inserted.
-/
def Unrepeated (bounds : Bounds) (now : Nat) (makeRoom : Bool) (a : Aging β) : Prop :=
  ∀ i key, i + (a.evict bounds now makeRoom).order.length < a.order.length → a.order[i]? = some key →
    key ∉ a.order.drop (i + 1)

structure Released (bounds : Bounds) (now : Nat) (makeRoom : Bool) (a' : Aging β) (gone rest : List (Item β))
    : Prop where
  holds : a'.Holds rest
  lasts : Item.lasts (gone ++ rest) = gone ++ Item.lasts rest
  reason : ∀ front item back, gone = front ++ item :: back →
    bounds.ttl < now - item.insertedAtMs
      ∨ (makeRoom = true ∧ bounds.maxEntries ≤ (back ++ Item.lasts rest).length + 1)

theorem Holds.released_nil (h : a.Holds xs) : Released bounds now makeRoom a [] xs where
  holds := h
  lasts := rfl
  reason front item back heq := absurd heq (by simp)

theorem Holds.tail {entries : Std.ExtTreeMap String (β × Nat)} {key : String} {order : List String} {item : Item β}
    (h : Holds ⟨entries, key :: order⟩ (item :: xs)) (hlast : item.key ∉ xs.map (·.key))
    : Holds ⟨entries.erase item.key, order⟩ xs := by
  obtain ⟨rfl, horder⟩ := cons.inj h.order
  refine ⟨horder, ?_⟩
  intro key e
  dsimp only
  rw [Map.getElem?_erase]
  split
  . next heq =>
    subst heq
    refine ⟨nofun, ?_⟩
    rintro ⟨other, hother, hkey, -⟩
    exact absurd ((mem_keys_lasts).mp (hkey ▸ mem_map_of_mem hother)) hlast
  . next hne =>
    have hentries := h.entries key e
    dsimp only at hentries
    rw [hentries, lasts_cons_of_new hlast]
    constructor
    . rintro ⟨other, hother, rfl, rfl⟩
      cases mem_cons.mp hother with
      | inl heq => exact absurd (heq ▸ rfl) hne
      | inr hmem => exact ⟨other, hmem, rfl, rfl⟩
    . rintro ⟨other, hother, rfl, rfl⟩
      exact ⟨other, mem_cons_of_mem _ hother, rfl, rfl⟩

theorem evictFrom_released {entries : Std.ExtTreeMap String (β × Nat)} {order : List String}
    (h : Holds ⟨entries, order⟩ xs) (hunrepeated : Unrepeated bounds now makeRoom ⟨entries, order⟩)
    : ∃ gone rest, xs = gone ++ rest
        ∧ Released bounds now makeRoom (evictFrom bounds now makeRoom entries order) gone rest := by
  induction xs generalizing entries order with
  | nil =>
    obtain rfl : order = [] := h.order
    exact ⟨[], [], rfl, h.released_nil⟩
  | cons item xs ih =>
    obtain rfl : order = item.key :: xs.map (·.key) := h.order
    unfold Unrepeated evict at hunrepeated
    dsimp only at hunrepeated
    unfold evictFrom at hunrepeated ⊢
    split
    . next hevict =>
      rw [if_pos hevict] at hunrepeated
      have hle := @evictFrom_order_length_le β bounds now makeRoom
        (entries.erase item.key) (xs.map (·.key))
      have hlast : item.key ∉ xs.map (·.key) := by
        apply hunrepeated 0 item.key _ rfl
        rw [length_cons, Nat.zero_add]
        exact Nat.lt_succ_of_le hle
      obtain ⟨gone, rest, rfl, hreleased⟩ := ih (h.tail hlast) (by
        intro i key hi hkey
        apply hunrepeated (i + 1) key _ hkey
        rw [length_cons, Nat.succ_add]
        exact Nat.succ_lt_succ hi)
      refine ⟨item :: gone, rest, rfl, hreleased.holds, ?_, ?_⟩
      . rw [cons_append, lasts_cons_of_new hlast, hreleased.lasts, cons_append]
      . intro front other back heq
        cases front with
        | cons first front =>
          rw [cons_append] at heq
          exact hreleased.reason front other back (cons.inj heq).2
        | nil =>
          obtain ⟨rfl, rfl⟩ := cons.inj heq
          have hlasts := lasts_cons_of_new hlast
          rw [hreleased.lasts] at hlasts
          rw [Bool.or_eq_true, Bool.and_eq_true, decide_eq_true_eq] at hevict
          cases hevict with
          | inl hexpired =>
            left
            have hfind : entries[item.key]? = some (item.body, item.insertedAtMs) :=
              h.find (hlasts ▸ mem_cons_self)
            unfold expired at hexpired
            rw [hfind, Option.all_some, decide_eq_true_eq] at hexpired
            exact hexpired
          | inr hroom =>
            right
            have hsize : entries.size = _ := h.size
            rw [hsize, hlasts, length_cons] at hroom
            exact hroom
    . exact ⟨[], item :: xs, rfl, h.released_nil⟩

theorem Holds.evict (h : a.Holds xs) (hunrepeated : a.Unrepeated bounds now makeRoom)
    : ∃ gone rest, xs = gone ++ rest ∧ Released bounds now makeRoom (a.evict bounds now makeRoom) gone rest :=
  evictFrom_released h hunrepeated

/--
The items are those of the last insertions, where each key counts once. One was given up only if it was too old or
if there were enough after it.
-/
def Recent (bounds : Bounds) (now : Nat) (xs all : List (Item β)) : Prop :=
  ∃ gone, Item.lasts all = gone ++ Item.lasts xs ∧ ∀ front item back, gone = front ++ item :: back →
    bounds.ttl < now - item.insertedAtMs ∨ bounds.maxEntries ≤ (back ++ Item.lasts xs).length

variable {ys all gone rest : List (Item β)}

theorem recent_self (bounds : Bounds) (now : Nat) (xs : List (Item β)) : Recent bounds now xs xs :=
  ⟨[], rfl, fun front item back heq => absurd heq (by simp)⟩

theorem Recent.later (h : Recent bounds now xs all) {now' : Nat} (hle : now ≤ now') : Recent bounds now' xs all := by
  obtain ⟨gone, hlasts, hgone⟩ := h
  refine ⟨gone, hlasts, ?_⟩
  intro front item back heq
  cases hgone front item back heq with
  | inl hold => exact .inl (Nat.lt_of_lt_of_le hold (Nat.sub_le_sub_right hle _))
  | inr hmany => exact .inr hmany

theorem Recent.congr (h : Recent bounds now xs all) (heq : Item.lasts ys = Item.lasts xs)
    : Recent bounds now ys all := by
  unfold Recent
  rw [heq]
  exact h

theorem split_append {α : Type} {as bs front back : List α} {x : α} (h : as ++ bs = front ++ x :: back)
    : (∃ mid, as = front ++ x :: mid ∧ back = mid ++ bs) ∨ ∃ mid, bs = mid ++ x :: back ∧ front = as ++ mid := by
  rcases append_eq_append_iff.mp h with ⟨mid, hfront, hbs⟩ | ⟨mid, has, hback⟩
  . exact .inr ⟨mid, hbs, hfront⟩
  . cases mid with
    | nil => exact .inr ⟨[], hback.symm, by rw [has, append_nil, append_nil]⟩
    | cons y mid =>
      obtain ⟨rfl, hback'⟩ := cons.inj hback
      exact .inl ⟨mid, has, hback'⟩

theorem Recent.mem (h : Recent bounds now xs all) {earlier later : List (Item β)} {item : Item β}
    (hitem : Item.lasts all = earlier ++ item :: later) (hfew : later.length < bounds.maxEntries)
    (hyoung : now - item.insertedAtMs ≤ bounds.ttl) : item ∈ Item.lasts xs := by
  obtain ⟨gone, hlasts, hgone⟩ := h
  rcases split_append (hlasts.symm.trans hitem) with ⟨mid, heq, rfl⟩ | ⟨mid, heq, -⟩
  . cases hgone earlier item mid heq with
    | inl hold => exact absurd hold (Nat.not_lt.mpr hyoung)
    | inr hmany => exact absurd hmany (Nat.not_le.mpr hfew)
  . rw [heq]
    exact mem_append_right _ mem_cons_self

theorem Recent.expire {a' : Aging β} (h : Recent bounds now (gone ++ rest) all)
    (hreleased : Released bounds now false a' gone rest) : Recent bounds now rest all := by
  obtain ⟨old, hlasts, hold⟩ := h
  rw [hreleased.lasts] at hlasts hold
  refine ⟨old ++ gone, by rw [hlasts, append_assoc], ?_⟩
  intro front item back heq
  rcases split_append heq with ⟨mid, heq', rfl⟩ | ⟨mid, heq', -⟩
  . rw [append_assoc]
    exact hold front item mid heq'
  . exact (hreleased.reason mid item back heq').imp_right fun hroom => absurd hroom.1 Bool.false_ne_true

theorem Recent.insert (h : Recent bounds now xs all) (hlasts : Item.lasts xs = gone ++ Item.lasts rest)
    (hgone : ∀ front item back, gone = front ++ item :: back →
      bounds.ttl < now - item.insertedAtMs ∨ bounds.maxEntries ≤ (back ++ Item.lasts rest).length + 1)
    {item : Item β} (hnew : item.key ∈ xs.map (·.key) → gone = [])
    : Recent bounds now (rest ++ [item]) (all ++ [item]) := by
  obtain ⟨old, hall, hold⟩ := h
  rw [hlasts] at hall hold
  rw [← append_assoc] at hall
  refine ⟨(old ++ gone).filter (·.key ≠ item.key), ?_, ?_⟩
  . rw [lasts_snoc, lasts_snoc, hall, filter_append, append_assoc]
  intro front other back heq
  obtain ⟨before, after, hsplit, -, hafter⟩ := filter_eq_append_iff.mp heq
  obtain ⟨skipped, behind, rfl, -, -, rfl⟩ := filter_eq_cons_iff.mp hafter
  rw [← append_assoc] at hsplit
  have hlength : (behind.filter (·.key ≠ item.key) ++ Item.lasts (rest ++ [item])).length
      = ((behind ++ Item.lasts rest).filter (·.key ≠ item.key)).length + 1 := by
    rw [lasts_snoc, ← append_assoc, ← filter_append, length_append, length_singleton]
  rw [hlength]
  rcases split_append hsplit with ⟨mid, heq', rfl⟩ | ⟨mid, heq', -⟩
  . refine (hold _ other mid heq').imp_right fun hmany => Nat.le_trans hmany ?_
    rw [← append_assoc]
    apply length_le_filter
    have hnodup := nodup_lasts all
    rw [hall, hsplit, append_assoc, cons_append, map_append, map_cons] at hnodup
    exact (nodup_cons.mp (nodup_append.mp hnodup).2.1).2
  . refine (hgone mid other behind heq').imp_right fun hmany => Nat.le_trans hmany ?_
    have hkey : item.key ∉ xs.map (·.key) := by
      intro hmem
      rw [hnew hmem] at heq'
      exact absurd heq' (by simp)
    rw [← mem_keys_lasts, hlasts, heq', append_assoc, cons_append, map_append, map_cons]
      at hkey
    have hbehind : item.key ∉ (behind ++ Item.lasts rest).map (·.key) :=
      fun hmem => hkey (mem_append_right _ (mem_cons_of_mem _ hmem))
    exact Nat.succ_le_succ (Nat.le_of_eq (congrArg length (filter_of_new hbehind).symm))

theorem Recent.snoc (h : Recent bounds now xs all) (item : Item β)
    : Recent bounds now (xs ++ [item]) (all ++ [item]) := by
  have hlasts : Item.lasts xs = [] ++ Item.lasts xs := rfl
  exact h.insert hlasts (fun front other back heq => absurd heq (by simp)) fun _ => rfl

theorem Unrepeated.expired (h : a.Unrepeated bounds now true) : a.Unrepeated bounds now false := by
  intro i key hi
  have hle := @evictFrom_order_length_le β bounds now true (a.evict bounds now false).entries
    (a.evict bounds now false).order
  change ((a.evict bounds now false).evict bounds now true).order.length ≤ _ at hle
  rw [evict_evict] at hle
  exact h i key (by omega)

theorem Unrepeated.room (h : a.Unrepeated bounds now true) (hholds : a.Holds (gone ++ rest))
    (hrest : (a.evict bounds now false).Holds rest) : (a.evict bounds now false).Unrepeated bounds now true := by
  intro i key hi hkey
  have horder : a.order = gone.map (·.key) ++ (a.evict bounds now false).order := by
    rw [hholds.order, hrest.order, map_append]
  rw [evict_evict] at hi
  have hlast := h ((gone.map (·.key)).length + i) key
  rw [horder, length_append, Nat.add_assoc, Nat.add_assoc, drop_length_add_append,
    getElem?_append_right (Nat.le_add_right _ _), Nat.add_sub_cancel_left] at hlast
  exact hlast (Nat.add_lt_add_left hi _) hkey

theorem put_eq_push (a : Aging β) (key : String) (value : β)
    : a.put bounds now key value = (a.evict bounds now true).push ⟨key, value, now⟩ :=
  rfl

theorem Recent.put (h : Recent bounds now xs all) (hholds : a.Holds xs) (hunrepeated : a.Unrepeated bounds now true)
    {key : String} (hroom : key ∈ (a.evict bounds now false).order →
      (a.evict bounds now true).order = (a.evict bounds now false).order) (value : β)
    : ∃ ys, (a.put bounds now key value).Holds ys ∧ Recent bounds now ys (all ++ [⟨key, value, now⟩]) := by
  obtain ⟨expired, live, rfl, hexpired⟩ := hholds.evict hunrepeated.expired
  obtain ⟨gone, rest, rfl, hgone⟩ := hexpired.holds.evict (hunrepeated.room hholds hexpired.holds)
  rw [evict_evict] at hgone
  have hholds' : (a.put bounds now key value).Holds (rest ++ [⟨key, value, now⟩]) := by
    rw [put_eq_push]
    exact hgone.holds.push _
  refine ⟨_, hholds', ?_⟩
  apply (h.expire hexpired).insert hgone.lasts
  . intro front item back heq
    exact (hgone.reason front item back heq).imp_right And.right
  . intro hmem
    have hsame := congrArg length (hroom (hexpired.holds.order ▸ hmem))
    rw [hgone.holds.order, hexpired.holds.order, length_map, length_map, length_append] at hsame
    exact eq_nil_of_length_eq_zero (by omega)

theorem evictFrom_room (entries : Std.ExtTreeMap String (β × Nat)) (order : List String)
    : (evictFrom bounds now true entries order).order = []
        ∨ (evictFrom bounds now true entries order).entries.size < bounds.maxEntries := by
  induction order generalizing entries with
  | nil => exact .inl rfl
  | cons key order ih =>
    unfold evictFrom
    split
    . exact ih _
    . next hstays =>
      rw [Bool.or_eq_true, Bool.true_and, decide_eq_true_eq, not_or] at hstays
      exact .inr (Nat.lt_of_not_le hstays.2)

theorem Holds.size_put (h : a.Holds xs) (hunrepeated : a.Unrepeated bounds now true) (hmax : 0 < bounds.maxEntries)
    (key : String) (value : β) : (a.put bounds now key value).entries.size ≤ bounds.maxEntries := by
  obtain ⟨gone, rest, -, hgone⟩ := h.evict hunrepeated
  have hsize : (a.evict bounds now true).entries.size < bounds.maxEntries := by
    rcases evictFrom_room a.entries a.order with hnone | hroom
    . have hrest : rest = [] := map_eq_nil_iff.mp (hgone.holds.order.symm.trans hnone)
      rw [hgone.holds.size, hrest]
      exact hmax
    . exact hroom
  exact Nat.le_trans Std.ExtTreeMap.size_insert_le hsize

theorem Released.size_le {a' : Aging β} (h : Released bounds now makeRoom a' gone rest)
    (hholds : a.Holds (gone ++ rest)) : a'.entries.size ≤ a.entries.size := by
  rw [h.holds.size, hholds.size, h.lasts, length_append]
  exact Nat.le_add_left _ _

end Aging
