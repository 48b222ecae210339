import Wovyr.Lib.Recency
import Wovyr.Lib.Run
import Wovyr.Provider.Cache.View

/-!
This module contains proofs that the response cache answers like a list of what was stored in the order of
its last use, and about what an entry has to give way to.
-/

namespace Wovyr.Provider.Recent

variable (l : List (String × Item)) (key : String) (nowMs ttlMs : Nat)

def get : Option Item × List (String × Item) :=
  match l.find? fun x => x.1 == key with
  | some (_, i) =>
    if i.unexpired nowMs ttlMs then
      (some i, (l.filter fun x => x.1 != key) ++ [(key, i)])
    else
      (none, l.filter fun x => x.1 != key)
  | none => (none, l)

def insert (maxEntries : Nat) (i : Item) : List (String × Item) :=
  if maxEntries = 0 then
    l
  else
    let kept := ((l.filter fun x => x.2.unexpired nowMs ttlMs).filter fun x => x.1 != key) ++ [(key, i)]
    if maxEntries < kept.length then kept.tail else kept

end Recent

inductive CacheOp where
  | get (key : String) (nowMs ttlMs : Nat)
  | insert (key : String) (nowMs ttlMs : Nat) (response : ChatResponse) (producer : Nat)

namespace CacheOp

def nowMs : CacheOp → Nat
  | get _ nowMs _ | insert _ nowMs _ _ _ => nowMs

def ttlMs : CacheOp → Nat
  | get _ _ ttlMs | insert _ _ ttlMs _ _ => ttlMs

def onList (maxEntries : Nat) (l : List (String × Item)) : CacheOp → Option Item × List (String × Item)
  | get key nowMs ttlMs => Recent.get l key nowMs ttlMs
  | insert key nowMs ttlMs response producer =>
    (none, Recent.insert l key nowMs ttlMs maxEntries (ExactCache.stored nowMs response producer))

def inserts (key : String) : CacheOp → Option Item
  | get _ _ _ => none
  | insert key' nowMs _ response producer =>
    if key' = key then some (ExactCache.stored nowMs response producer) else none

theorem inserts_insert (key key' : String) (nowMs ttlMs : Nat) (response : ChatResponse) (producer : Nat)
    : (insert key' nowMs ttlMs response producer).inserts key
        = if key' = key then some (ExactCache.stored nowMs response producer) else none :=
  rfl

def lastInserted (key : String) (ops : List CacheOp) : Option Item :=
  ops.reverse.findSome? (inserts key)

end CacheOp

open CacheOp

namespace ExactCache

def new (maxEntries : Nat) : ExactCache :=
  { maxEntries }

def step (c : ExactCache) : CacheOp → Option Item × ExactCache
  | .get key nowMs ttlMs => ((c.get key nowMs ttlMs).1.map CacheEntry.item, (c.get key nowMs ttlMs).2)
  | .insert key nowMs ttlMs response producer => (none, c.insert key nowMs ttlMs response producer)

def after (c : ExactCache) (ops : List CacheOp) : ExactCache :=
  ops.foldl (fun c op => (c.step op).2) c

def usedBy (c : ExactCache) : CacheOp → List String
  | .get key nowMs ttlMs => if (c.get key nowMs ttlMs).1.isSome then [key] else []
  | .insert key _ _ _ _ => if c.maxEntries = 0 then [] else [key]

def uses (c : ExactCache) : List CacheOp → List String
  | [] => []
  | op :: ops => c.usedBy op ++ uses (c.step op).2 ops

def kept (c : ExactCache) (key : String) (nowMs ttlMs : Nat) (response : ChatResponse) (producer : Nat)
    : Std.ExtTreeMap String CacheEntry :=
  (c.sweep nowMs ttlMs).insert key { response, createdMs := nowMs, lastAccess := c.nextTick, producer }

-- An insertion drops a live entry of another key.
def Evicts (c : ExactCache) (key : String) : CacheOp → Prop
  | .get _ _ _ => False
  | .insert key' nowMs ttlMs response producer =>
    key' ≠ key ∧ key ∈ c.sweep nowMs ttlMs ∧ key ∉ (c.insert key' nowMs ttlMs response producer).entries

def Evicted (c : ExactCache) (key : String) (ops : List CacheOp) : Prop :=
  ∃ before op since, ops = before ++ op :: since ∧ (c.after before).Evicts key op
    ∧ ∀ o ∈ since, o.inserts key = none

-- What an insertion into `c` leaves, where the keys were used in the order of `uses`.
structure Makes (c : ExactCache) (uses : List String) (key : String) (nowMs ttlMs : Nat) (response : ChatResponse)
    (producer : Nat) : Prop where
  off : c.maxEntries = 0 → c.insert key nowMs ttlMs response producer = c
  fits : c.maxEntries ≠ 0 → (c.kept key nowMs ttlMs response producer).size ≤ c.maxEntries →
    (c.insert key nowMs ttlMs response producer).entries = c.kept key nowMs ttlMs response producer
  overflow : c.maxEntries ≠ 0 → c.maxEntries < (c.kept key nowMs ttlMs response producer).size →
    ∃ victim, victim ≠ key
      ∧ (c.insert key nowMs ttlMs response producer).entries
        = (c.kept key nowMs ttlMs response producer).erase victim
      ∧ victim ∈ c.kept key nowMs ttlMs response producer
      ∧ ∀ other ∈ c.kept key nowMs ttlMs response producer, other ≠ victim →
        Recency.UsedSince (uses ++ [key]) victim other

structure TtlLru (maxEntries : Nat) (ops : List CacheOp) : Prop where
  answers : answers step (new maxEntries) ops = answers (onList maxEntries) [] ops
  bounded : ∀ before rest, ops = before ++ rest → ((new maxEntries).after before).entries.size ≤ maxEntries
  last : ∀ before rest key nowMs ttlMs, ops = before ++ .get key nowMs ttlMs :: rest →
    (∀ op ∈ before, op.ttlMs = ttlMs) → ∀ i,
      (((new maxEntries).after before).get key nowMs ttlMs).1.map CacheEntry.item = some i
        ↔ maxEntries ≠ 0 ∧ lastInserted key before = some i ∧ nowMs - i.createdMs ≤ ttlMs
          ∧ ¬ (new maxEntries).Evicted key before
  makes : ∀ before rest key nowMs ttlMs response producer,
    ops = before ++ .insert key nowMs ttlMs response producer :: rest →
      ((new maxEntries).after before).Makes ((new maxEntries).uses before) key nowMs ttlMs response producer

abbrev Stamps (c : ExactCache) (xs : List (String × CacheEntry)) : Prop :=
  Recency.Stamped CacheEntry.lastAccess c.entries c.tick xs

def items (xs : List (String × CacheEntry)) : List (String × Item) :=
  xs.map fun x => (x.1, x.2.item)

structure Ordered (maxEntries : Nat) (uses : List String) (c : ExactCache) (xs : List (String × CacheEntry))
    : Prop where
  stamps : c.Stamps xs
  order : xs.Pairwise fun a b => Recency.UsedSince uses a.1 b.1
  same : c.maxEntries = maxEntries
  bounded : xs.length ≤ maxEntries

section

variable {c : ExactCache} {maxEntries n : Nat} {used : List String} {xs : List (String × CacheEntry)} {key : String}
  {nowMs ttlMs : Nat} {response : ChatResponse} {producer : Nat}

theorem items_filter_key (xs : List (String × CacheEntry)) (key : String)
    : items (xs.filter fun x => x.1 != key) = (items xs).filter fun x => x.1 != key := by
  unfold items
  rw [List.filter_map]
  rfl

theorem items_filter_item (xs : List (String × CacheEntry)) (p : Item → Bool)
    : items (xs.filter fun x => p x.2.item) = (items xs).filter fun x => p x.2 := by
  unfold items
  rw [List.filter_map]
  rfl

theorem find_items (xs : List (String × CacheEntry)) (key : String)
    : (items xs).find? (fun x => x.1 == key)
        = (xs.find? fun x => x.1 == key).map fun x => (x.1, x.2.item) := by
  unfold items
  rw [List.find?_map]
  rfl

theorem pairwise_used (h : xs.Pairwise fun a b => Recency.UsedSince used a.1 b.1) (e : CacheEntry)
    : ((xs.filter fun x => x.1 != key) ++ [(key, e)]).Pairwise fun a b =>
        Recency.UsedSince (used ++ [key]) a.1 b.1 := by
  rw [List.pairwise_append]
  refine ⟨?_, List.pairwise_singleton _ _, ?_⟩
  . apply (h.filter fun x => x.1 != key).imp_of_mem
    intro a b ha _ hsince
    have hne : a.1 ≠ key := by simpa using (List.mem_filter.mp ha).2
    exact hsince.snoc (Ne.symm hne)
  . intro a ha b hb
    have hne : a.1 ≠ key := by simpa using (List.mem_filter.mp ha).2
    rw [List.mem_singleton.mp hb]
    exact Recency.usedSince_last used (Ne.symm hne)

theorem nextTick_eq (h : c.tick + 1 < 2 ^ 64) : c.nextTick = c.tick + 1 := by
  unfold nextTick
  omega

theorem length_filter_key (xs : List (String × CacheEntry)) (hmem : ∃ e, (key, e) ∈ xs)
    : (xs.filter fun x => x.1 != key).length < xs.length := by
  obtain ⟨e, he⟩ := hmem
  apply List.length_filter_lt_length_iff_exists.mpr
  exact ⟨(key, e), he, by simp⟩

theorem usedBy_get
    : c.usedBy (.get key nowMs ttlMs) = if (c.get key nowMs ttlMs).1.isSome then [key] else [] :=
  rfl

theorem get_of_none (h : c.entries[key]? = none) : c.get key nowMs ttlMs = (none, c) := by
  unfold get
  rw [h]

theorem get_of_expired {e : CacheEntry} (h : c.entries[key]? = some e)
    (hold : e.item.unexpired nowMs ttlMs = false)
    : c.get key nowMs ttlMs = (none, { c with entries := c.entries.erase key }) := by
  have hage : nowMs - e.createdMs > ttlMs := not_le.mp (of_decide_eq_false hold)
  unfold get
  rw [h]
  exact if_pos hage

theorem get_of_live {e : CacheEntry} (h : c.entries[key]? = some e) (hlive : e.item.unexpired nowMs ttlMs = true)
    : c.get key nowMs ttlMs
        =
      (some e, { c with
        entries := c.entries.insert key { e with lastAccess := c.nextTick }
        tick := c.nextTick }) := by
  have hage : ¬ nowMs - e.createdMs > ttlMs := not_lt.mpr (of_decide_eq_true hlive)
  unfold get
  rw [h]
  exact if_neg hage

theorem ordered_get (h : Ordered maxEntries used c xs) (htick : c.tick + 1 < 2 ^ 64)
    : ∃ xs', Ordered maxEntries (used ++ c.usedBy (.get key nowMs ttlMs)) (c.get key nowMs ttlMs).2 xs'
        ∧ (c.get key nowMs ttlMs).1.map CacheEntry.item = (Recent.get (items xs) key nowMs ttlMs).1
        ∧ items xs' = (Recent.get (items xs) key nowMs ttlMs).2
        ∧ (c.get key nowMs ttlMs).2.tick ≤ c.tick + 1 := by
  have hfind := h.stamps.find key
  unfold Recent.get
  rw [find_items, usedBy_get]
  cases hx : xs.find? fun x => x.1 == key with
  | none =>
    rw [hx] at hfind
    rw [get_of_none hfind.symm]
    refine ⟨xs, ?_, rfl, rfl, Nat.le_succ _⟩
    simpa using h
  | some x =>
    rw [hx] at hfind
    have hkey : x.1 = key := by simpa using List.find?_some hx
    cases hlive : x.2.item.unexpired nowMs ttlMs with
    | false =>
      rw [get_of_expired hfind.symm hlive]
      simp only [Option.map_some, hlive, Bool.false_eq_true, if_false]
      refine ⟨xs.filter fun x => x.1 != key, ?_, rfl, items_filter_key xs key, Nat.le_succ _⟩
      constructor
      . exact h.stamps.erase key
      . simpa using h.order.filter _
      . exact h.same
      . exact Nat.le_trans (List.length_filter_le _ _) h.bounded
    | true =>
      rw [get_of_live hfind.symm hlive]
      simp only [Option.map_some, hlive, if_true]
      refine ⟨(xs.filter fun x => x.1 != key) ++ [(key, { x.2 with lastAccess := c.nextTick })], ?_, ?_, ?_, ?_⟩
      . constructor
        . show Recency.Stamped _ _ c.nextTick _
          rw [nextTick_eq htick]
          exact h.stamps.insert key rfl
        . exact pairwise_used h.order _
        . exact h.same
        . have hmem : (key, x.2) ∈ xs := by
            rw [← hkey]
            exact List.mem_of_find?_eq_some hx
          have hless := length_filter_key xs ⟨x.2, hmem⟩
          have hbounded := h.bounded
          rw [List.length_append, List.length_singleton]
          omega
      . trivial
      . rw [← items_filter_key]
        unfold items
        rw [List.map_append]
        rfl
      . rw [nextTick_eq htick]

theorem evict_eq {entries : Std.ExtTreeMap String CacheEntry} {tick : Nat}
    (h : Recency.Stamped CacheEntry.lastAccess entries tick xs) (hlength : xs.length ≤ maxEntries + 1)
    : evict maxEntries (n + 1) entries
        =
      if maxEntries < xs.length then
        xs.head?.elim entries fun x => entries.erase x.1
      else
        entries := by
  unfold evict
  rw [h.size, h.argmin]
  split
  next hover =>
    cases xs with
    | nil => rfl
    | cons x rest =>
      have hrest : (entries.erase x.1).size ≤ maxEntries := by
        rw [h.tail.size]
        rw [List.length_cons] at hlength
        omega
      exact evict_of_le hrest
  next => rfl

def keptList (c : ExactCache) (xs : List (String × CacheEntry)) (key : String) (nowMs ttlMs : Nat)
    (response : ChatResponse) (producer : Nat) : List (String × CacheEntry) :=
  ((xs.filter fun x => x.2.item.unexpired nowMs ttlMs).filter fun x => x.1 != key)
    ++ [(key, { response, createdMs := nowMs, lastAccess := c.nextTick, producer })]

end

section

variable {c : ExactCache} {maxEntries : Nat} {used : List String} {xs : List (String × CacheEntry)}
  (key : String) (nowMs ttlMs : Nat) (response : ChatResponse) (producer : Nat)

theorem stamps_kept (h : c.Stamps xs) (htick : c.tick + 1 < 2 ^ 64)
    : Recency.Stamped CacheEntry.lastAccess (c.kept key nowMs ttlMs response producer) (c.tick + 1)
        (c.keptList xs key nowMs ttlMs response producer) :=
  (h.filter fun e => e.item.unexpired nowMs ttlMs).insert key (nextTick_eq htick)

theorem length_keptList (h : xs.length ≤ maxEntries)
    : (c.keptList xs key nowMs ttlMs response producer).length ≤ maxEntries + 1 := by
  have hkey := List.length_filter_le (fun x => x.1 != key) (xs.filter fun x => x.2.item.unexpired nowMs ttlMs)
  have hlive := List.length_filter_le (fun x => x.2.item.unexpired nowMs ttlMs) xs
  unfold keptList
  rw [List.length_append, List.length_singleton]
  omega

theorem order_keptList (h : Ordered maxEntries used c xs)
    : (c.keptList xs key nowMs ttlMs response producer).Pairwise fun a b =>
        Recency.UsedSince (used ++ [key]) a.1 b.1 :=
  pairwise_used (h.order.filter _) _

theorem insert_eq (hmax : c.maxEntries ≠ 0)
    : c.insert key nowMs ttlMs response producer
        =
      { c with
        entries := evict c.maxEntries (c.kept key nowMs ttlMs response producer).size
          (c.kept key nowMs ttlMs response producer)
        tick := c.nextTick } := by
  unfold insert
  rw [if_neg hmax]
  rfl

theorem insert_cases (h : Ordered maxEntries used c xs) (htick : c.tick + 1 < 2 ^ 64) (hmax : c.maxEntries ≠ 0)
    : ((c.keptList xs key nowMs ttlMs response producer).length ≤ maxEntries
        ∧ (c.insert key nowMs ttlMs response producer).entries = c.kept key nowMs ttlMs response producer)
        ∨ ∃ victim rest, c.keptList xs key nowMs ttlMs response producer = victim :: rest
          ∧ rest.length = maxEntries
          ∧ (c.insert key nowMs ttlMs response producer).entries
            = (c.kept key nowMs ttlMs response producer).erase victim.1 := by
  have hstamps := stamps_kept key nowMs ttlMs response producer h.stamps htick
  have hlength : (c.keptList xs key nowMs ttlMs response producer).length ≤ maxEntries + 1 :=
    length_keptList key nowMs ttlMs response producer h.bounded
  rw [insert_eq key nowMs ttlMs response producer hmax, h.same]
  dsimp only
  cases hys : c.keptList xs key nowMs ttlMs response producer with
  | nil =>
    unfold keptList at hys
    simp at hys
  | cons victim rest =>
    rw [hys] at hstamps hlength
    rw [hstamps.size, List.length_cons, evict_eq hstamps hlength]
    rw [List.length_cons] at hlength ⊢
    by_cases hover : maxEntries < rest.length + 1
    . rw [if_pos hover]
      exact .inr ⟨victim, rest, rfl, by omega, rfl⟩
    . rw [if_neg hover]
      exact .inl ⟨by omega, rfl⟩

theorem ordered_insert (h : Ordered maxEntries used c xs) (htick : c.tick + 1 < 2 ^ 64)
    : ∃ xs', Ordered maxEntries (used ++ c.usedBy (.insert key nowMs ttlMs response producer))
          (c.insert key nowMs ttlMs response producer) xs'
        ∧ items xs' = Recent.insert (items xs) key nowMs ttlMs maxEntries (stored nowMs response producer)
        ∧ (c.insert key nowMs ttlMs response producer).tick ≤ c.tick + 1 := by
  have hused : c.usedBy (.insert key nowMs ttlMs response producer) = if c.maxEntries = 0 then [] else [key] := rfl
  rw [hused]
  unfold Recent.insert
  by_cases hmax : c.maxEntries = 0
  . have hzero : maxEntries = 0 := by rw [← h.same, hmax]
    rw [insert_of_eq_zero c hmax, if_pos hmax, List.append_nil, if_pos hzero]
    exact ⟨xs, h, rfl, Nat.le_succ _⟩
  . have hsome : maxEntries ≠ 0 := by rwa [← h.same]
    have hstamps := stamps_kept key nowMs ttlMs response producer h.stamps htick
    have horder := order_keptList key nowMs ttlMs response producer h
    have hitems : items (c.keptList xs key nowMs ttlMs response producer)
        = (((items xs).filter fun x => x.2.unexpired nowMs ttlMs).filter fun x => x.1 != key)
          ++ [(key, stored nowMs response producer)] := by
      rw [← items_filter_item, ← items_filter_key]
      unfold keptList items
      rw [List.map_append]
      rfl
    have htick' : (c.insert key nowMs ttlMs response producer).tick = c.tick + 1 := by
      rw [insert_eq key nowMs ttlMs response producer hmax]
      exact nextTick_eq htick
    have hlength : (items (c.keptList xs key nowMs ttlMs response producer)).length
        = (c.keptList xs key nowMs ttlMs response producer).length := List.length_map _
    rw [if_neg hmax, if_neg hsome, ← hitems]
    dsimp only
    rw [hlength]
    rcases insert_cases key nowMs ttlMs response producer h htick hmax with ⟨hfits, hentries⟩ | ⟨victim, rest, hys, hrest, hentries⟩
    . rw [if_neg (by omega)]
      refine ⟨c.keptList xs key nowMs ttlMs response producer, ⟨?_, horder, ?_, hfits⟩, rfl, by omega⟩
      . unfold Stamps
        rw [hentries, htick']
        exact hstamps
      . rw [maxEntries_insert, h.same]
    . rw [hys] at hstamps horder ⊢
      rw [List.length_cons, if_pos (by omega)]
      refine ⟨rest, ⟨?_, (List.pairwise_cons.mp horder).2, ?_, by omega⟩, rfl, by omega⟩
      . unfold Stamps
        rw [hentries, htick']
        exact hstamps.tail
      . rw [maxEntries_insert, h.same]

theorem makes_of_ordered (h : Ordered maxEntries used c xs) (htick : c.tick + 1 < 2 ^ 64)
    : c.Makes used key nowMs ttlMs response producer := by
  have hstamps := stamps_kept key nowMs ttlMs response producer h.stamps htick
  have horder := order_keptList key nowMs ttlMs response producer h
  have hsize := hstamps.size
  constructor
  . exact fun hmax => insert_of_eq_zero c hmax
  . intro hmax hfits
    rcases insert_cases key nowMs ttlMs response producer h htick hmax with ⟨-, hentries⟩ | ⟨victim, rest, hys, hrest, -⟩
    . exact hentries
    . rw [hsize, hys, List.length_cons, hrest, h.same] at hfits
      omega
  . intro hmax hover
    rcases insert_cases key nowMs ttlMs response producer h htick hmax with ⟨hfits, -⟩ | ⟨victim, rest, hys, hrest, hentries⟩
    . rw [hsize, h.same] at hover
      omega
    . have hlast : ∃ e, (key, e) ∈ rest := by
        unfold keptList at hys
        rcases List.append_eq_cons_iff.mp hys with ⟨-, hone⟩ | ⟨front, -, hfront⟩
        . have hnone : rest = [] := (List.cons.inj hone).2.symm
          rw [hnone, List.length_nil, ← h.same] at hrest
          exact absurd hrest.symm hmax
        . rw [hfront]
          exact ⟨_, List.mem_append_right _ List.mem_cons_self⟩
      have hkeys := hstamps.keys
      rw [hys] at hstamps horder hkeys
      obtain ⟨e, he⟩ := hlast
      refine ⟨victim.1, (List.pairwise_cons.mp hkeys).1 _ he, hentries, ?_, ?_⟩
      . rw [Std.ExtTreeMap.mem_iff_isSome_getElem?, (hstamps.mem victim).mp List.mem_cons_self]
        rfl
      . intro other hother hne
        rw [Std.ExtTreeMap.mem_iff_isSome_getElem?, Option.isSome_iff_exists] at hother
        obtain ⟨e', he'⟩ := hother
        rcases List.mem_cons.mp ((hstamps.mem (other, e')).mpr he') with heq | hmem
        . rw [← heq] at hne
          exact absurd rfl hne
        . exact (List.pairwise_cons.mp horder).1 _ hmem

end

section

variable {c : ExactCache} {maxEntries : Nat} {used : List String} {xs : List (String × CacheEntry)}

theorem ordered_step (h : Ordered maxEntries used c xs) (htick : c.tick + 1 < 2 ^ 64) (op : CacheOp)
    : ∃ xs', Ordered maxEntries (used ++ c.usedBy op) (c.step op).2 xs'
        ∧ (c.step op).1 = (onList maxEntries (items xs) op).1
        ∧ items xs' = (onList maxEntries (items xs) op).2
        ∧ (c.step op).2.tick ≤ c.tick + 1 := by
  cases op with
  | get key nowMs ttlMs => exact ordered_get h htick
  | insert key nowMs ttlMs response producer =>
    obtain ⟨xs', hxs', hitems, hlater⟩ := ordered_insert key nowMs ttlMs response producer h htick
    exact ⟨xs', hxs', rfl, hitems, hlater⟩

theorem ordered_after (ops : List CacheOp) (h : Ordered maxEntries used c xs) (hticks : c.tick + ops.length < 2 ^ 64)
    : answers step c ops = answers (onList maxEntries) (items xs) ops
        ∧ (∃ xs', Ordered maxEntries (used ++ c.uses ops) (c.after ops) xs')
        ∧ (c.after ops).tick ≤ c.tick + ops.length := by
  induction ops generalizing c xs used with
  | nil =>
    refine ⟨rfl, ⟨xs, ?_⟩, Nat.le_refl _⟩
    unfold uses
    rwa [List.append_nil]
  | cons op ops ih =>
    rw [List.length_cons] at hticks
    obtain ⟨xs', hxs', hanswer, hitems, hlater⟩ := ordered_step h (by omega) op
    obtain ⟨hanswers, hafter, hend⟩ := ih hxs' (by omega)
    refine ⟨?_, ?_, ?_⟩
    . rw [answers, answers, hanswer, hanswers, hitems]
    . unfold uses
      rwa [← List.append_assoc]
    . rw [List.length_cons]
      have hsame : c.after (op :: ops) = (c.step op).2.after ops := rfl
      rw [hsame]
      omega

theorem ordered_new : Ordered maxEntries [] (new maxEntries) [] where
  stamps := Recency.Stamped.empty
  order := .nil
  same := rfl
  bounded := Nat.zero_le _

theorem after_snoc (ops : List CacheOp) (op : CacheOp) : c.after (ops ++ [op]) = ((c.after ops).step op).2 := by
  unfold after
  rw [List.foldl_append, List.foldl_cons, List.foldl_nil]

theorem lastInserted_snoc (key : String) (ops : List CacheOp) (op : CacheOp)
    : lastInserted key (ops ++ [op]) = (op.inserts key).or (lastInserted key ops) := by
  unfold lastInserted
  rw [List.reverse_append, List.reverse_singleton, List.singleton_append, List.findSome?_cons]
  cases op.inserts key with
  | none => rfl
  | some i => rfl

theorem evicted_snoc (key : String) (ops : List CacheOp) (op : CacheOp)
    : c.Evicted key (ops ++ [op]) ↔ (c.after ops).Evicts key op ∨ c.Evicted key ops ∧ op.inserts key = none := by
  constructor
  . rintro ⟨before, o, since, hsplit, hevicts, hsince⟩
    cases since using List.reverseRecOn with
    | nil =>
      obtain ⟨rfl, hop⟩ := List.append_inj' hsplit rfl
      cases hop
      exact .inl hevicts
    | append_singleton since p =>
      have hsplit' : ops ++ [op] = (before ++ o :: since) ++ [p] := by simpa using hsplit
      obtain ⟨rfl, hop⟩ := List.append_inj' hsplit' rfl
      cases hop
      refine .inr ⟨⟨before, o, since, rfl, hevicts, ?_⟩, hsince op (by simp)⟩
      exact fun p hp => hsince p (List.mem_append_left _ hp)
  . rintro (hevicts | ⟨⟨before, o, since, rfl, hevicts, hsince⟩, hinserts⟩)
    . exact ⟨ops, op, [], rfl, hevicts, nofun⟩
    . exact ⟨before, o, since ++ [op], by simp, hevicts, forall_mem_snoc hsince hinserts⟩

theorem maxEntries_after (ops : List CacheOp) : (c.after ops).maxEntries = c.maxEntries := by
  induction ops using List.reverseRecOn with
  | nil => rfl
  | append_singleton ops op ih =>
    rw [after_snoc, ← ih]
    cases op with
    | get key nowMs ttlMs => exact maxEntries_get _ _ _ _
    | insert key nowMs ttlMs response producer => exact maxEntries_insert _

theorem find_inserted {key : String} {nowMs ttlMs : Nat} {response : ChatResponse} {producer : Nat}
    (h : c.Makes used key nowMs ttlMs response producer) (hmax : c.maxEntries ≠ 0)
    : (c.insert key nowMs ttlMs response producer).entries[key]?.map CacheEntry.item
        = some (stored nowMs response producer) := by
  by_cases hover : c.maxEntries < (c.kept key nowMs ttlMs response producer).size
  . obtain ⟨victim, hne, hentries, -⟩ := h.overflow hmax hover
    rw [hentries, Map.getElem?_erase, if_neg hne]
    unfold kept
    rw [Map.getElem?_insert, if_pos rfl]
    rfl
  . rw [h.fits hmax (not_lt.mp hover)]
    unfold kept
    rw [Map.getElem?_insert, if_pos rfl]
    rfl

theorem find_other {key other : String} {nowMs ttlMs : Nat} {response : ChatResponse} {producer : Nat}
    (hmax : c.maxEntries ≠ 0) (hne : key ≠ other)
    (hevicts : ¬ c.Evicts other (.insert key nowMs ttlMs response producer))
    : (c.insert key nowMs ttlMs response producer).entries[other]?.map CacheEntry.item
        = c.view nowMs ttlMs other := by
  rw [← getElem?_sweep]
  congr 1
  have hold : ∀ e, (c.insert key nowMs ttlMs response producer).entries[other]? = some e →
      (c.sweep nowMs ttlMs)[other]? = some e := by
    intro e he
    rw [insert_eq key nowMs ttlMs response producer hmax] at he
    have hkept := of_getElem?_evict he
    unfold kept at hkept
    rwa [Map.getElem?_insert, if_neg hne] at hkept
  cases hfound : (c.insert key nowMs ttlMs response producer).entries[other]? with
  | some e => exact (hold e hfound).symm
  | none =>
    by_contra hsome
    apply hevicts
    refine ⟨hne, ?_, ?_⟩
    . rw [Std.ExtTreeMap.mem_iff_isSome_getElem?, Option.isSome_iff_ne_none]
      exact Ne.symm hsome
    . rw [Std.ExtTreeMap.mem_iff_isSome_getElem?, hfound]
      exact Bool.false_ne_true

theorem not_evicts_of_inserts {key : String} {op : CacheOp} {i : Item} (h : op.inserts key = some i)
    : ¬ c.Evicts key op := by
  cases op with
  | get key' nowMs' ttlMs' => exact id
  | insert key' nowMs' ttlMs' response producer =>
    rintro ⟨hne, -⟩
    rw [inserts_insert, if_neg hne] at h
    cases h

theorem view_get_later {key key' : String} {nowMs' nowMs ttlMs : Nat} (hlater : nowMs' ≤ nowMs)
    : (c.get key' nowMs' ttlMs).2.view nowMs ttlMs key = c.view nowMs ttlMs key := by
  rw [view_later _ _ hlater, view_get, ← view_later _ _ hlater]

theorem view_step {nowMs : Nat} (key : String) (i : Item) {op : CacheOp} (hop : op.nowMs ≤ nowMs)
    (hmax : c.maxEntries ≠ 0)
    (hmakes : ∀ key nowMs ttlMs response producer, c.Makes used key nowMs ttlMs response producer)
    : (c.step op).2.view nowMs op.ttlMs key = some i
        ↔ op.inserts key = some i ∧ nowMs - i.createdMs ≤ op.ttlMs
          ∨ op.inserts key = none ∧ ¬ c.Evicts key op ∧ c.view nowMs op.ttlMs key = some i := by
  cases op with
  | get key' nowMs' ttlMs' =>
    have hlater : nowMs' ≤ nowMs := hop
    show (c.get key' nowMs' ttlMs').2.view nowMs ttlMs' key = some i ↔ _
    rw [view_get_later hlater]
    simp [inserts, Evicts, ttlMs]
  | insert key' nowMs' ttlMs' response producer =>
    have hlater : nowMs' ≤ nowMs := hop
    show (c.insert key' nowMs' ttlMs' response producer).view nowMs ttlMs' key = some i ↔ _
    rw [inserts_insert]
    unfold view
    by_cases hkey : key' = key
    . subst hkey
      rw [find_inserted (hmakes _ _ _ _ _) hmax, if_pos rfl, Option.filter_eq_some_iff]
      simp [Item.unexpired, ttlMs]
    . by_cases hevicts : c.Evicts key (.insert key' nowMs' ttlMs' response producer)
      . have hnone : (c.insert key' nowMs' ttlMs' response producer).entries[key]? = none := by
          have hnot := hevicts.2.2
          rwa [Std.ExtTreeMap.mem_iff_isSome_getElem?, Option.not_isSome_iff_eq_none] at hnot
        rw [hnone, if_neg hkey]
        simp [hevicts]
      . rw [find_other hmax hkey hevicts, ← view_later c ttlMs' hlater, if_neg hkey]
        simp [hevicts, view, ttlMs]

theorem view_after {ttlMs : Nat} (hmax : maxEntries ≠ 0) (ops : List CacheOp)
    (hclock : ops.Pairwise fun a b => a.nowMs ≤ b.nowMs) (hfew : ops.length < 2 ^ 64)
    (httl : ∀ op ∈ ops, op.ttlMs = ttlMs) {nowMs : Nat} (hnow : ∀ op ∈ ops, op.nowMs ≤ nowMs) (key : String) (i : Item)
    : ((new maxEntries).after ops).view nowMs ttlMs key = some i
        ↔ lastInserted key ops = some i ∧ nowMs - i.createdMs ≤ ttlMs
          ∧ ¬ (new maxEntries).Evicted key ops := by
  induction ops using List.reverseRecOn with
  | nil => simp [after, new, view, lastInserted]
  | append_singleton ops op ih =>
    rw [List.length_append, List.length_singleton] at hfew
    have hprefix := ih (List.pairwise_append.mp hclock).1 (by omega) (fun o ho => httl o (List.mem_append_left _ ho))
      fun o ho => hnow o (List.mem_append_left _ ho)
    have hop : op.nowMs ≤ nowMs := hnow op (List.mem_append_right _ List.mem_cons_self)
    have hlast : op.ttlMs = ttlMs := httl op (List.mem_append_right _ List.mem_cons_self)
    have hstart : (new maxEntries).tick = 0 := rfl
    obtain ⟨-, ⟨xs, hordered⟩, htick⟩ := ordered_after ops (@ordered_new maxEntries) (by omega)
    have hsome : ((new maxEntries).after ops).maxEntries ≠ 0 := by
      rw [maxEntries_after]
      exact hmax
    have hstep := view_step key i hop hsome fun key nowMs ttlMs response producer =>
      makes_of_ordered key nowMs ttlMs response producer hordered (by omega)
    rw [hlast, hprefix] at hstep
    rw [after_snoc, hstep, lastInserted_snoc, evicted_snoc]
    cases hinserts : op.inserts key with
    | none => simp [and_left_comm]
    | some j => simp [not_evicts_of_inserts hinserts]

theorem view_of_off {key : String} {nowMs ttlMs : Nat} (h : c.entries.size ≤ 0) : c.view nowMs ttlMs key = none := by
  have hempty : c.entries = ∅ := Std.ExtTreeMap.eq_empty_iff_size_eq_zero.mpr (Nat.le_zero.mp h)
  unfold view
  rw [hempty]
  simp

/-- The response cache is a bounded list in the order of the last use, whose entries expire. -/
theorem exactCache_ttlLru (maxEntries : Nat) {ops : List CacheOp}
    (hclock : ops.Pairwise fun a b => a.nowMs ≤ b.nowMs) (hfew : ops.length < 2 ^ 64) : TtlLru maxEntries ops := by
  have hstart : (new maxEntries).tick = 0 := rfl
  have hprefix : ∀ before rest, ops = before ++ rest →
      ∃ xs, Ordered maxEntries ((new maxEntries).uses before) ((new maxEntries).after before) xs
        ∧ ((new maxEntries).after before).tick + rest.length < 2 ^ 64 := by
    intro before rest hsplit
    rw [hsplit, List.length_append] at hfew
    obtain ⟨-, ⟨xs, hordered⟩, htick⟩ := ordered_after before (@ordered_new maxEntries) (by omega)
    exact ⟨xs, hordered, by omega⟩
  constructor
  . exact (ordered_after ops (@ordered_new maxEntries) (by omega)).1
  . intro before rest hsplit
    obtain ⟨xs, hordered, -⟩ := hprefix before rest hsplit
    rw [hordered.stamps.size]
    exact hordered.bounded
  . intro before rest key nowMs ttlMs hsplit httl i
    obtain ⟨xs, hordered, -⟩ := hprefix before _ hsplit
    rw [get_fst]
    rw [hsplit] at hclock hfew
    obtain ⟨hclock, -, hlater⟩ := List.pairwise_append.mp hclock
    rw [List.length_append] at hfew
    by_cases hmax : maxEntries = 0
    . have hsize := hordered.stamps.size
      have hbounded := hordered.bounded
      rw [view_of_off (by omega)]
      simp [hmax]
    . have hnow : ∀ op ∈ before, op.nowMs ≤ nowMs := fun op hop => hlater op hop _ List.mem_cons_self
      rw [view_after hmax before hclock (by omega) httl hnow]
      simp [hmax]
  . intro before rest key nowMs ttlMs response producer hsplit
    obtain ⟨xs, hordered, htick⟩ := hprefix before _ hsplit
    rw [List.length_cons] at htick
    exact makes_of_ordered key nowMs ttlMs response producer hordered (by omega)

def greeting : ChatResponse :=
  { message := .assistant "Hello.", model := "mock-1", usage := {}, finishReason := "stop" }

theorem exactCache_ttlLru_full
    : TtlLru 1 [.insert "a" 0 10 greeting 0, .insert "b" 1 10 greeting 1, .get "a" 2 10, .get "b" 3 10] :=
  exactCache_ttlLru 1 (by decide) (by decide)

end

end Wovyr.Provider.ExactCache
