import Std.Data.ExtTreeSet
import Mathlib.Data.List.Nodup
import Wovyr.Workflow.Executor

/-!
This module contains the stores of pending timers: the one in memory with its index of deadlines,
and the one that keeps all timers in a file.
-/

namespace Wovyr.Workflow

open List

abbrev TimerKey := String × String

abbrev Deadline := Nat × String × String

def TimerKey.cmp : TimerKey → TimerKey → Ordering :=
  compareLex (compareOn (·.1)) (compareOn (·.2))

def Deadline.cmp : Deadline → Deadline → Ordering :=
  compareLex (compareOn (·.1)) (compareLex (compareOn (·.2.1)) (compareOn (·.2.2)))

instance : Std.TransCmp TimerKey.cmp :=
  inferInstanceAs (Std.TransCmp (compareLex _ _))

instance : Std.TransCmp Deadline.cmp :=
  inferInstanceAs (Std.TransCmp (compareLex _ (compareLex _ _)))

theorem TimerKey.cmp_eq_iff {a b : TimerKey} : TimerKey.cmp a b = .eq ↔ a = b := by
  unfold TimerKey.cmp
  rw [compareLex_eq_eq]
  unfold compareOn
  rw [Std.LawfulEqOrd.compare_eq_iff_eq, Std.LawfulEqOrd.compare_eq_iff_eq, Prod.ext_iff]

theorem Deadline.cmp_eq_iff {a b : Deadline} : Deadline.cmp a b = .eq ↔ a = b := by
  unfold Deadline.cmp
  rw [compareLex_eq_eq, compareLex_eq_eq]
  unfold compareOn
  rw [Std.LawfulEqOrd.compare_eq_iff_eq, Std.LawfulEqOrd.compare_eq_iff_eq, Std.LawfulEqOrd.compare_eq_iff_eq,
    Prod.ext_iff, Prod.ext_iff]

instance : Std.LawfulEqCmp TimerKey.cmp where
  compare_self := (TimerKey.cmp_eq_iff).mpr rfl
  eq_of_compare := (TimerKey.cmp_eq_iff).mp

instance : Std.LawfulEqCmp Deadline.cmp where
  compare_self := (Deadline.cmp_eq_iff).mpr rfl
  eq_of_compare := (Deadline.cmp_eq_iff).mp

theorem Deadline.le_of_cmp {a b : Deadline} (hlt : Deadline.cmp a b = .lt) : a.1 ≤ b.1 := by
  unfold Deadline.cmp compareLex compareOn at hlt
  dsimp only at hlt
  rw [Ordering.then_eq_lt, Std.compare_eq_lt, Std.compare_eq_iff_eq] at hlt
  omega

theorem Deadline.cmp_bound (d : Deadline) (bound : Nat) : Deadline.cmp d (bound, "", "") = .lt ↔ d.1 < bound := by
  have hempty (s : String) : compare s "" ≠ .lt := by
    intro hlt
    exact not_lt_nil _ (String.lt_iff.mp (compareOfLessAndEq_eq_lt.mp hlt))
  unfold Deadline.cmp compareLex compareOn
  dsimp only
  rw [Ordering.then_eq_lt, Ordering.then_eq_lt, Std.compare_eq_lt, or_iff_left]
  rintro ⟨-, h | ⟨-, h⟩⟩
  . exact hempty _ h
  . exact hempty _ h

namespace PendingTimer

def key (timer : PendingTimer) : TimerKey :=
  (timer.executionId, timer.timerId)

def deadline (timer : PendingTimer) : Deadline :=
  (timer.fireAtMs, timer.executionId, timer.timerId)

end PendingTimer

structure TimerIndex where
  byKey : Std.ExtTreeMap TimerKey PendingTimer TimerKey.cmp := ∅
  byDeadline : Std.ExtTreeSet Deadline Deadline.cmp := ∅

inductive TimerOp where
  | schedule (timer : PendingTimer)
  | cancel (executionId timerId : String)

namespace TimerIndex

def schedule (g : TimerIndex) (timer : PendingTimer) : TimerIndex :=
  let key := (timer.executionId, timer.timerId)
  let byDeadline :=
    match g.byKey[key]? with
    | some old => g.byDeadline.erase (old.fireAtMs, key.1, key.2)
    | none => g.byDeadline
  { byKey := g.byKey.insert key timer
    byDeadline := byDeadline.insert (timer.fireAtMs, key.1, key.2) }

def cancel (g : TimerIndex) (executionId timerId : String) : TimerIndex :=
  let key := (executionId, timerId)
  match g.byKey[key]? with
  | some old =>
    { byKey := g.byKey.erase key
      byDeadline := g.byDeadline.erase (old.fireAtMs, key.1, key.2) }
  | none => g

-- There is no result if a deadline has no timer.
def due (g : TimerIndex) (nowMs : Nat) : Option (List PendingTimer) :=
  let upper := (min (nowMs + 1) (2 ^ 64 - 1), "", "")
  (g.byDeadline.toList.filter fun d => Deadline.cmp d upper = .lt).mapM fun d => g.byKey[(d.2.1, d.2.2)]?

def nextDeadline (g : TimerIndex) : Option Nat :=
  g.byDeadline.min?.map (·.1)

def step (g : TimerIndex) : TimerOp → TimerIndex
  | .schedule timer => g.schedule timer
  | .cancel executionId timerId => g.cancel executionId timerId

end TimerIndex

structure FileTimerStore where
  timers : List PendingTimer := []

namespace FileTimerStore

def schedule (store : FileTimerStore) (timer : PendingTimer) : FileTimerStore where
  timers := store.timers.filter
    (fun t => !(t.executionId == timer.executionId && t.timerId == timer.timerId)) ++ [timer]

def cancel (store : FileTimerStore) (executionId timerId : String) : FileTimerStore where
  timers := store.timers.filter fun t => !(t.executionId == executionId && t.timerId == timerId)

def due (store : FileTimerStore) (nowMs : Nat) : List PendingTimer :=
  (store.timers.filter fun t => t.fireAtMs ≤ nowMs).mergeSort fun a b =>
    (Deadline.cmp a.deadline b.deadline).isLE

def nextDeadline (store : FileTimerStore) : Option Nat :=
  ((store.due (2 ^ 64 - 1)).map (·.fireAtMs)).min?

def step (store : FileTimerStore) : TimerOp → FileTimerStore
  | .schedule timer => store.schedule timer
  | .cancel executionId timerId => store.cancel executionId timerId

end FileTimerStore

structure Lockstep (g : TimerIndex) (store : FileTimerStore) : Prop where
  keyed : ∀ (k : TimerKey) (t : PendingTimer), g.byKey[k]? = some t → t.key = k
  indexed : ∀ d, d ∈ g.byDeadline ↔ ∃ t : PendingTimer, g.byKey[t.key]? = some t ∧ t.deadline = d
  mem : ∀ t, t ∈ store.timers ↔ g.byKey[t.key]? = some t
  nodup : store.timers.Nodup

theorem lockstep_empty : Lockstep {} {} := by
  refine ⟨?_, ?_, ?_, nodup_nil⟩
  . intro k t h
    simp at h
  . intro d
    simp
  . intro t
    simp

theorem keep_iff (t : PendingTimer) (executionId timerId : String)
    : (!(t.executionId == executionId && t.timerId == timerId)) = true ↔ (executionId, timerId) ≠ t.key := by
  rw [Bool.not_eq_true', Bool.and_eq_false_iff, beq_eq_false_iff_ne, beq_eq_false_iff_ne, ne_eq, ← not_and_or]
  unfold PendingTimer.key
  rw [ne_eq, Prod.mk.injEq, @eq_comm _ t.executionId, @eq_comm _ t.timerId]

section

variable {g : TimerIndex} {store : FileTimerStore}

theorem Lockstep.cancel (h : Lockstep g store) (executionId timerId : String)
    : Lockstep (g.cancel executionId timerId) (store.cancel executionId timerId) := by
  have hmem (t : PendingTimer) : t ∈ (store.cancel executionId timerId).timers
      ↔ g.byKey[t.key]? = some t ∧ (executionId, timerId) ≠ t.key := by
    unfold FileTimerStore.cancel
    rw [mem_filter, h.mem, keep_iff]
  unfold TimerIndex.cancel
  dsimp only
  cases hold : g.byKey[(executionId, timerId)]? with
  | none =>
    refine ⟨h.keyed, h.indexed, ?_, h.nodup.filter _⟩
    intro t
    rw [hmem, and_iff_left_of_imp]
    rintro ht heq
    rw [heq, ht] at hold
    cases hold
  | some old =>
    have hkey := h.keyed _ _ hold
    refine ⟨?_, ?_, ?_, h.nodup.filter _⟩
    . intro k t ht
      dsimp only at ht
      exact h.keyed k t (Map.of_erase ht)
    . intro d
      dsimp only
      rw [Std.ExtTreeSet.mem_erase, ne_eq, Deadline.cmp_eq_iff, h.indexed]
      constructor
      . rintro ⟨hne, t, ht, rfl⟩
        refine ⟨t, ?_, rfl⟩
        rw [Map.getElem?_erase, if_neg]
        . exact ht
        . intro heq
          rw [heq, ht] at hold
          cases hold
          exact hne (congrArg (Prod.mk old.fireAtMs) heq)
      . rintro ⟨t, ht, rfl⟩
        rw [Map.getElem?_erase] at ht
        split at ht
        . cases ht
        . next hne =>
          refine ⟨?_, t, ht, rfl⟩
          intro heq
          exact hne (congrArg Prod.snd heq)
    . intro t
      dsimp only
      rw [hmem, Map.getElem?_erase]
      split
      next heq => simp [heq]
      next hne => simp [hne]

theorem Lockstep.insert (h : Lockstep g store) {timer : PendingTimer} (hfresh : g.byKey[timer.key]? = none)
    : Lockstep { byKey := g.byKey.insert timer.key timer, byDeadline := g.byDeadline.insert timer.deadline }
        { timers := store.timers ++ [timer] } := by
  have hlookup (t : PendingTimer) : (g.byKey.insert timer.key timer)[t.key]? = some t
      ↔ timer = t ∨ g.byKey[t.key]? = some t := by
    rw [Map.getElem?_insert]
    split
    next heq =>
      rw [Option.some.injEq, or_iff_left]
      rw [← heq, hfresh]
      exact nofun
    next hne =>
      rw [or_iff_right]
      rintro rfl
      exact hne rfl
  refine ⟨?_, ?_, ?_, ?_⟩
  . intro k t ht
    dsimp only at ht
    rcases Map.of_insert ht with ⟨heq, rfl⟩ | ht
    . exact heq
    . exact h.keyed k t ht
  . intro d
    dsimp only
    rw [Std.ExtTreeSet.mem_insert, Deadline.cmp_eq_iff, h.indexed]
    constructor
    . rintro (rfl | ⟨t, ht, rfl⟩)
      . exact ⟨timer, (hlookup timer).mpr (.inl rfl), rfl⟩
      . exact ⟨t, (hlookup t).mpr (.inr ht), rfl⟩
    . rintro ⟨t, ht, rfl⟩
      cases (hlookup t).mp ht with
      | inl heq => exact .inl (congrArg PendingTimer.deadline heq)
      | inr ht => exact .inr ⟨t, ht, rfl⟩
  . intro t
    dsimp only
    rw [mem_append, mem_singleton, h.mem, hlookup, or_comm, eq_comm]
  . dsimp only
    rw [← concat_eq_append, nodup_concat, h.mem, hfresh]
    exact ⟨nofun, h.nodup⟩

theorem TimerIndex.schedule_eq (g : TimerIndex) (timer : PendingTimer)
    : g.schedule timer
        = { byKey := (g.cancel timer.executionId timer.timerId).byKey.insert timer.key timer
            byDeadline := (g.cancel timer.executionId timer.timerId).byDeadline.insert timer.deadline } := by
  unfold TimerIndex.schedule TimerIndex.cancel
  dsimp only
  cases g.byKey[(timer.executionId, timer.timerId)]? with
  | none => rfl
  | some old =>
    have hkeys : (g.byKey.erase timer.key).insert timer.key timer = g.byKey.insert timer.key timer := by
      apply Std.ExtTreeMap.ext_getElem?
      intro k
      rw [Map.getElem?_insert, Map.getElem?_insert, Map.getElem?_erase]
      split <;> rfl
    exact congrArg (TimerIndex.mk · _) hkeys.symm

theorem Lockstep.schedule (h : Lockstep g store) (timer : PendingTimer)
    : Lockstep (g.schedule timer) (store.schedule timer) := by
  rw [TimerIndex.schedule_eq]
  apply (h.cancel timer.executionId timer.timerId).insert
  unfold TimerIndex.cancel
  dsimp only
  cases hold : g.byKey[(timer.executionId, timer.timerId)]? with
  | none => exact hold
  | some old =>
    dsimp only
    rw [Map.getElem?_erase]
    exact if_pos rfl

theorem Lockstep.step (h : Lockstep g store) (op : TimerOp) : Lockstep (g.step op) (store.step op) := by
  cases op with
  | schedule timer => exact h.schedule timer
  | cancel executionId timerId => exact h.cancel executionId timerId

theorem Lockstep.run (h : Lockstep g store) (ops : List TimerOp)
    : Lockstep (ops.foldl TimerIndex.step g) (ops.foldl FileTimerStore.step store) := by
  induction ops generalizing g store with
  | nil => exact h
  | cons op ops ih => exact ih (h.step op)

structure Listed (g : TimerIndex) (store : FileTimerStore) (entries : List PendingTimer) : Prop where
  deadlines : entries.map PendingTimer.deadline = g.byDeadline.toList
  perm : entries.Perm store.timers
  present : ∀ t ∈ entries, g.byKey[t.key]? = some t

theorem Lockstep.exists_listed (h : Lockstep g store) : ∃ entries, Listed g store entries := by
  have hread : ∀ ds : List Deadline, (∀ d ∈ ds, d ∈ g.byDeadline) →
      ∃ entries : List PendingTimer, entries.map PendingTimer.deadline = ds
        ∧ ∀ t ∈ entries, g.byKey[t.key]? = some t := by
    intro ds
    induction ds with
    | nil => exact fun _ => ⟨[], rfl, forall_mem_nil _⟩
    | cons d ds ih =>
      intro hds
      obtain ⟨entries, heq, hentries⟩ := ih fun d' hd' => hds d' (mem_cons_of_mem _ hd')
      obtain ⟨t, ht, rfl⟩ := (h.indexed d).mp (hds d mem_cons_self)
      exact ⟨t :: entries, by rw [map_cons, heq], forall_mem_cons.mpr ⟨ht, hentries⟩⟩
  obtain ⟨entries, heq, hentries⟩ := hread g.byDeadline.toList fun d hd => Std.ExtTreeSet.mem_toList.mp hd
  refine ⟨entries, heq, ?_, hentries⟩
  have hnodup : entries.Nodup := by
    apply List.Nodup.of_map PendingTimer.deadline
    rw [heq]
    apply Std.ExtTreeSet.ordered_toList.imp
    rintro a b hlt rfl
    rw [(Deadline.cmp_eq_iff).mpr rfl] at hlt
    cases hlt
  apply (perm_ext_iff_of_nodup hnodup h.nodup).mpr
  intro t
  rw [h.mem]
  refine ⟨hentries t, ?_⟩
  intro ht
  have hdeadline : t.deadline ∈ entries.map PendingTimer.deadline := by
    rw [heq, Std.ExtTreeSet.mem_toList]
    exact (h.indexed _).mpr ⟨t, ht, rfl⟩
  obtain ⟨t', ht', hsame⟩ := mem_map.mp hdeadline
  have hkey : t'.key = t.key := congrArg Prod.snd hsame
  have hfound := hentries t' ht'
  rw [hkey, ht] at hfound
  cases hfound
  exact ht'

section

variable {entries : List PendingTimer}

theorem Listed.pairwise (h : Listed g store entries)
    : entries.Pairwise fun a b => Deadline.cmp a.deadline b.deadline = .lt := by
  have hsorted : (entries.map PendingTimer.deadline).Pairwise fun a b => Deadline.cmp a b = .lt := by
    rw [h.deadlines]
    exact Std.ExtTreeSet.ordered_toList
  exact pairwise_map.mp hsorted

theorem Listed.due_index (h : Listed g store entries) (nowMs : Nat)
    : g.due nowMs = some (entries.filter fun t => t.fireAtMs < min (nowMs + 1) (2 ^ 64 - 1)) := by
  unfold TimerIndex.due
  simp only [Deadline.cmp_bound, ← h.deadlines]
  rw [filter_map]
  have hread (ts : List PendingTimer) (hts : ∀ t ∈ ts, g.byKey[t.key]? = some t)
      : (ts.map PendingTimer.deadline).mapM (fun d => g.byKey[(d.2.1, d.2.2)]?) = some ts := by
    induction ts with
    | nil => rfl
    | cons t ts ih =>
      obtain ⟨ht, hts⟩ := forall_mem_cons.mp hts
      rw [map_cons, mapM_cons, ih hts]
      exact congrArg (· >>= fun v => some (v :: ts)) ht
  exact hread _ fun t ht => h.present t (mem_of_mem_filter ht)

theorem Listed.due_file (h : Listed g store entries) (nowMs : Nat)
    : store.due nowMs = entries.filter (fun t => t.fireAtMs ≤ nowMs) := by
  let le := fun (a b : PendingTimer) => (Deadline.cmp a.deadline b.deadline).isLE
  unfold FileTimerStore.due
  apply @List.Perm.eq_of_pairwise _ fun a b => le a b = true
  . intro a b ha hb hab hba
    have hmem := (mergeSort_perm _ le).mem_iff.mp ha
    have hentry := h.perm.mem_iff.mpr (mem_of_mem_filter hmem)
    have hsame := (Deadline.cmp_eq_iff).mp (Std.OrientedCmp.isLE_antisymm hab hba)
    have hfound := h.present a hentry
    rw [show a.key = b.key from congrArg Prod.snd hsame, h.present b (mem_of_mem_filter hb)] at hfound
    cases hfound
    rfl
  . apply pairwise_mergeSort
    . intro a b c hab hbc
      exact Std.TransCmp.isLE_trans hab hbc
    . intro a b
      rw [Bool.or_eq_true]
      by_cases hle : le a b = true
      . exact .inl hle
      . exact .inr (Ordering.isLE_of_eq_lt (Std.OrientedCmp.lt_of_not_isLE hle))
  . apply (h.pairwise.filter _).imp
    intro a b hlt
    exact Ordering.isLE_of_eq_lt hlt
  . exact (mergeSort_perm _ _).trans (h.perm.symm.filter _)

theorem Listed.nextDeadline_file (h : Listed g store entries) (hrange : ∀ t ∈ entries, t.fireAtMs < 2 ^ 64)
    : store.nextDeadline = (entries.map (·.fireAtMs)).head? := by
  have hall : store.due (2 ^ 64 - 1) = entries := by
    rw [h.due_file, filter_eq_self]
    intro t ht
    exact decide_eq_true (Nat.le_sub_one_of_lt (hrange t ht))
  unfold FileTimerStore.nextDeadline
  rw [hall]
  apply min?_eq_head?
  rw [pairwise_map]
  apply h.pairwise.imp
  intro a b hlt
  exact Nat.min_eq_left (Deadline.le_of_cmp hlt)

theorem Listed.nextDeadline_index (h : Listed g store entries)
    : g.nextDeadline = (entries.map (·.fireAtMs)).head? := by
  unfold TimerIndex.nextDeadline
  rw [Std.ExtTreeSet.min?_eq_head?_toList, ← h.deadlines, head?_map, head?_map, Option.map_map]
  rfl

end

end

theorem FileTimerStore.scheduled (ops : List TimerOp) (store : FileTimerStore)
    : ∀ t ∈ (ops.foldl FileTimerStore.step store).timers, t ∈ store.timers ∨ TimerOp.schedule t ∈ ops := by
  induction ops generalizing store with
  | nil => exact fun t ht => .inl ht
  | cons op ops ih =>
    intro t ht
    cases ih (store.step op) t ht with
    | inr hop => exact .inr (mem_cons_of_mem _ hop)
    | inl hstore =>
      cases op with
      | schedule timer =>
        cases mem_append.mp hstore with
        | inl hkept => exact .inl (mem_of_mem_filter hkept)
        | inr hnew =>
          rw [mem_singleton.mp hnew]
          exact .inr mem_cons_self
      | cancel executionId timerId => exact .inl (mem_of_mem_filter hstore)

theorem timers_agree (ops : List TimerOp)
    (hrange : ∀ timer, TimerOp.schedule timer ∈ ops → timer.fireAtMs < 2 ^ 64)
    : let g := ops.foldl TimerIndex.step {}
      let store := ops.foldl FileTimerStore.step {}
      (∀ (k : TimerKey) (t : PendingTimer), g.byKey[k]? = some t → t.key = k)
      ∧ (∀ d, d ∈ g.byDeadline ↔ ∃ t : PendingTimer, g.byKey[t.key]? = some t ∧ t.deadline = d)
      ∧ (∀ nowMs, (g.due nowMs).isSome)
      ∧ (∀ nowMs, nowMs < 2 ^ 64 - 1 → g.due nowMs = some (store.due nowMs))
      ∧ g.nextDeadline = store.nextDeadline := by
  have hlock := (lockstep_empty).run ops
  obtain ⟨entries, hentries⟩ := hlock.exists_listed
  refine ⟨hlock.keyed, hlock.indexed, ?_, ?_, ?_⟩
  . intro nowMs
    rw [hentries.due_index]
    rfl
  . intro nowMs hnow
    rw [hentries.due_index, hentries.due_file, Nat.min_eq_left (by omega)]
    simp only [Nat.lt_succ_iff]
  . rw [hentries.nextDeadline_index, hentries.nextDeadline_file]
    intro t ht
    cases FileTimerStore.scheduled ops {} t (hentries.perm.mem_iff.mp ht) with
    | inl hempty => cases hempty
    | inr hop => exact hrange t hop

-- Two timers at one time, of which one is then put off.
theorem timers_agree_postponed
    : let ops : List TimerOp :=
        [.schedule ⟨"e", "a", 5⟩, .schedule ⟨"d", "z", 5⟩, .schedule ⟨"e", "a", 9⟩, .cancel "d" "b"]
      (ops.foldl TimerIndex.step {}).due 7 = some ((ops.foldl FileTimerStore.step {}).due 7)
      ∧ (ops.foldl FileTimerStore.step {}).due 7 = [⟨"d", "z", 5⟩]
      ∧ (ops.foldl TimerIndex.step {}).nextDeadline = (ops.foldl FileTimerStore.step {}).nextDeadline := by
  have h := timers_agree
    [.schedule ⟨"e", "a", 5⟩, .schedule ⟨"d", "z", 5⟩, .schedule ⟨"e", "a", 9⟩, .cancel "d" "b"]
    (by
      intro timer htimer
      simp only [mem_cons, TimerOp.schedule.injEq, reduceCtorEq, not_mem_nil, or_false] at htimer
      rcases htimer with rfl | rfl | rfl <;> decide)
  refine ⟨h.2.2.2.1 7 (by decide), ?_, h.2.2.2.2⟩
  simp +decide [FileTimerStore.step, FileTimerStore.schedule, FileTimerStore.cancel, FileTimerStore.due]

end Wovyr.Workflow
