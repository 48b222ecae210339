import Wovyr.Workflow.Stores.Refinement

/-!
This module contains the compaction of the event log, and in which runs it deletes the events up to
the sequence number that it is given.
-/

namespace Wovyr.Workflow

open List InMemoryStore

structure EventLog (σ : Type) where
  append : σ → String → WorkflowEvent → Nat × σ
  load : σ → String → Except Error (List WorkflowEvent)
  compact : σ → String → Nat → σ

def InMemoryStore.compact (store : InMemoryStore) (executionId : String) (keepAfterSeq : Nat) : InMemoryStore :=
  match store.events[executionId]? with
  | some log =>
    let dropCount := min keepAfterSeq log.length
    { store with events := store.events.insert executionId (log.drop dropCount) }
  | none => store

def InMemoryStore.eventLog : EventLog InMemoryStore where
  append := append
  load store executionId := .ok (store.load executionId)
  compact := compact

def FileStore.compact (store : FileStore) (executionId : String) (keepAfterSeq : Nat) : FileStore :=
  let path := eventsPath executionId
  let lines := loadLines store.dir path
  let dropCount := min keepAfterSeq lines.length
  let kept := Text.join "\n" (lines.drop dropCount)
  { store with dir := store.dir.insert path (if kept = "" then kept else kept ++ "\n") }

def FileStore.eventLog (codec : Codec) : EventLog FileStore where
  append := FileStore.append codec
  load := FileStore.load codec
  compact := FileStore.compact

namespace EventLog

inductive Call where
  | append (event : WorkflowEvent)
  | compact (keepAfterSeq : Nat)

structure Ledger (σ : Type) where
  store : σ
  left : List (Nat × WorkflowEvent) := []

section

variable {σ : Type} (L : EventLog σ) (executionId : String)

def step (s : Ledger σ) : Call → Ledger σ
  | .append event =>
    let (seq, store) := L.append s.store executionId event
    { store, left := s.left ++ [(seq, event)] }
  | .compact keepAfterSeq =>
    { store := L.compact s.store executionId keepAfterSeq
      left := s.left.filter fun p => keepAfterSeq < p.1 }

def after (store : σ) (calls : List Call) : Ledger σ :=
  calls.foldl (step L executionId) { store }

def Agrees (s : Ledger σ) : Prop :=
  L.load s.store executionId = .ok (s.left.map Prod.snd)

def Exact (store : σ) (calls : List Call) : Prop :=
  ∀ before rest, calls = before ++ rest → L.Agrees executionId (L.after executionId store before)

def Names (s : Ledger σ) (keepAfterSeq : Nat) : Prop :=
  ∀ p ∈ s.left.take keepAfterSeq, p.1 ≤ keepAfterSeq

def Steady (store : σ) (calls : List Call) : Prop :=
  ∀ before keepAfterSeq rest, calls = before ++ .compact keepAfterSeq :: rest →
    Names (L.after executionId store before) keepAfterSeq

/--
The events of a store stand in a list with their numbers, and a number is never behind the place of its event.
-/
structure Positional (good : WorkflowEvent → Prop) (R : σ → List (Nat × WorkflowEvent) → Prop) : Prop where
  load : ∀ {s left}, R s left → L.load s executionId = .ok (left.map Prod.snd)
  append : ∀ {s left} event, R s left → good event →
    R (L.append s executionId event).2 (left ++ [((L.append s executionId event).1, event)])
  seq : ∀ {s left} event, R s left → left.length < (L.append s executionId event).1
  compact : ∀ {s left} keepAfterSeq, R s left → R (L.compact s executionId keepAfterSeq) (left.drop keepAfterSeq)

end

def Ahead (left : List (Nat × WorkflowEvent)) : Prop :=
  ∀ (i : Nat) (p : Nat × WorkflowEvent), left[i]? = some p → i < p.1

theorem Ahead.snoc {left : List (Nat × WorkflowEvent)} (h : Ahead left) {p : Nat × WorkflowEvent}
    (hp : left.length < p.1) : Ahead (left ++ [p]) := by
  intro i q hq
  rw [getElem?_append] at hq
  split at hq
  . exact h i q hq
  . rw [getElem?_singleton] at hq
    split at hq
    . cases hq
      omega
    . cases hq

theorem Ahead.drop {left : List (Nat × WorkflowEvent)} (h : Ahead left) (n : Nat) : Ahead (left.drop n) := by
  intro i p hp
  rw [getElem?_drop] at hp
  have := h _ p hp
  omega

theorem Ahead.filter_drop {left : List (Nat × WorkflowEvent)} (h : Ahead left) (n : Nat)
    : (left.drop n).filter (fun p => n < p.1) = left.drop n := by
  rw [filter_eq_self]
  intro p hp
  obtain ⟨i, hi⟩ := mem_iff_getElem?.mp hp
  rw [getElem?_drop] at hi
  have := h _ p hi
  simp only [decide_eq_true_eq]
  omega

/--
To drop as many events as the number is to drop those that the number names, if the first of them are these.
-/
theorem drop_eq_filter_iff {left : List (Nat × WorkflowEvent)} (h : Ahead left) (n : Nat)
    : (left.drop n).map Prod.snd = (left.filter fun p => n < p.1).map Prod.snd
        ↔ ∀ p ∈ left.take n, p.1 ≤ n := by
  have hsplit : left.filter (fun p => n < p.1)
      = (left.take n).filter (fun p => n < p.1) ++ left.drop n := by
    nth_rewrite 1 [← take_append_drop n left]
    rw [filter_append, h.filter_drop]
  rw [hsplit, map_append, self_eq_append_left, map_eq_nil_iff, filter_eq_nil_iff]
  constructor
  . intro hnone p hp
    have := hnone p hp
    simpa using this
  . intro hle p hp
    have := hle p hp
    simpa using this

theorem drop_eq_filter {left : List (Nat × WorkflowEvent)} (h : Ahead left) {n : Nat}
    (hnames : ∀ p ∈ left.take n, p.1 ≤ n) : left.drop n = left.filter fun p => n < p.1 := by
  nth_rewrite 2 [← take_append_drop n left]
  rw [filter_append, h.filter_drop, self_eq_append_left, filter_eq_nil_iff]
  intro p hp
  simpa using hnames p hp

section

variable {σ : Type} {L : EventLog σ} {executionId : String} {good : WorkflowEvent → Prop}
  {R : σ → List (Nat × WorkflowEvent) → Prop}

theorem agrees_compact_iff (hpos : L.Positional executionId good R) {s : Ledger σ} (hR : R s.store s.left)
    (hahead : Ahead s.left) (n : Nat)
    : L.Agrees executionId (L.step executionId s (.compact n)) ↔ Names s n := by
  unfold Agrees Names
  rw [← drop_eq_filter_iff hahead n]
  unfold step
  dsimp only
  rw [hpos.load (hpos.compact n hR), Except.ok.injEq]

theorem step_kept (hpos : L.Positional executionId good R) {s : Ledger σ} (hR : R s.store s.left)
    (hahead : Ahead s.left) {call : Call} (hgood : ∀ event, call = .append event → good event)
    (hnames : ∀ n, call = .compact n → Names s n)
    : R (L.step executionId s call).store (L.step executionId s call).left
        ∧ Ahead (L.step executionId s call).left := by
  cases call with
  | append event => exact ⟨hpos.append event hR (hgood event rfl), hahead.snoc (hpos.seq event hR)⟩
  | compact n =>
    have hdrop := drop_eq_filter hahead (hnames n rfl)
    unfold step
    dsimp only
    rw [← hdrop]
    exact ⟨hpos.compact n hR, hahead.drop n⟩

theorem after_snoc (store : σ) (calls : List Call) (call : Call)
    : L.after executionId store (calls ++ [call]) = L.step executionId (L.after executionId store calls) call := by
  unfold after
  rw [foldl_append]
  rfl

theorem Steady.compact {store : σ} {calls : List Call} {n : Nat} (h : L.Steady executionId store calls)
    (hnames : Names (L.after executionId store calls) n)
    : L.Steady executionId store (calls ++ [.compact n]) := by
  intro before m rest heq
  rcases eq_nil_or_concat rest with rfl | ⟨rest, call, rfl⟩
  . obtain ⟨rfl, hlast⟩ := append_inj' heq rfl
    cases hlast
    exact hnames
  . rw [concat_eq_append, ← cons_append, ← append_assoc] at heq
    exact h before m rest (append_inj' heq rfl).1

theorem Steady.prefix {store : σ} {calls : List Call} {call : Call}
    (h : L.Steady executionId store (calls ++ [call])) : L.Steady executionId store calls := by
  intro before n rest heq
  exact h before n (rest ++ [call]) (by rw [heq]; simp)

theorem after_kept (hpos : L.Positional executionId good R) {store : σ} (hR : R store []) {calls : List Call}
    (hgood : ∀ event, .append event ∈ calls → good event) (hsteady : L.Steady executionId store calls)
    : R (L.after executionId store calls).store (L.after executionId store calls).left
        ∧ Ahead (L.after executionId store calls).left := by
  induction calls using reverseRecOn with
  | nil => exact ⟨hR, by intro i p hp; cases hp⟩
  | append_singleton calls call ih =>
    obtain ⟨hR', hahead⟩ := ih (fun e he => hgood e (mem_append_left _ he)) hsteady.prefix
    rw [after_snoc]
    apply step_kept hpos hR' hahead
    . rintro event rfl
      exact hgood event (mem_append_right _ (mem_singleton_self _))
    . rintro n rfl
      exact hsteady calls n [] rfl

theorem exact_iff_steady (hpos : L.Positional executionId good R) {store : σ} (hR : R store []) {calls : List Call}
    (hgood : ∀ event, .append event ∈ calls → good event)
    : L.Exact executionId store calls ↔ L.Steady executionId store calls := by
  constructor
  . induction calls using reverseRecOn with
    | nil =>
      intro _ before n rest heq
      simp at heq
    | append_singleton calls call ih =>
      intro hexact
      have hgood' : ∀ event, .append event ∈ calls → good event :=
        fun e he => hgood e (mem_append_left _ he)
      have hsteady := ih hgood' fun before rest heq => hexact before (rest ++ [call]) (by rw [heq]; simp)
      obtain ⟨hR', hahead⟩ := after_kept hpos hR hgood' hsteady
      intro before n rest heq
      cases eq_nil_or_concat rest with
      | inl hnil =>
        subst hnil
        obtain ⟨rfl, hcall⟩ := append_inj' heq rfl
        cases hcall
        rw [← agrees_compact_iff hpos hR' hahead, ← after_snoc]
        exact hexact _ [] (append_nil _).symm
      | inr hlast =>
        obtain ⟨rest', last, rfl⟩ := hlast
        rw [concat_eq_append, ← cons_append, ← append_assoc] at heq
        obtain ⟨rfl, -⟩ := append_inj' heq rfl
        exact hsteady before n rest' rfl
  . rintro hsteady before rest rfl
    have hsteady' : L.Steady executionId store before := by
      intro before' n rest' heq
      exact hsteady before' n (rest' ++ rest) (by rw [heq]; simp)
    exact hpos.load (after_kept hpos hR (fun e he => hgood e (mem_append_left _ he)) hsteady').1

theorem load_compact_compact (hpos : L.Positional executionId good R) {store : σ} (hR : R store [])
    {calls : List Call} (hgood : ∀ event, .append event ∈ calls → good event) {n m : Nat} (hle : n ≤ m)
    (htwo : L.Steady executionId store (calls ++ [.compact n, .compact m]))
    (hone : L.Steady executionId store (calls ++ [.compact m]))
    : L.load (L.after executionId store (calls ++ [.compact n, .compact m])).store executionId
        = L.load (L.after executionId store (calls ++ [.compact m])).store executionId := by
  have hmem {tail : List Call} (htail : ∀ event, Call.append event ∉ tail) (event : WorkflowEvent)
      (h : Call.append event ∈ calls ++ tail) : good event := by
    cases mem_append.mp h with
    | inl h => exact hgood event h
    | inr h => exact absurd h (htail event)
  rw [hpos.load (after_kept hpos hR (hmem (by simp)) htwo).1, hpos.load (after_kept hpos hR (hmem (by simp)) hone).1]
  have hsplit : calls ++ [.compact n, .compact m] = calls ++ [.compact n] ++ [Call.compact m] := by simp
  rw [hsplit, after_snoc, after_snoc, after_snoc]
  unfold step
  dsimp only
  rw [filter_filter]
  congr 2
  apply filter_congr
  intro p _
  rw [← Bool.decide_and, decide_eq_decide]
  omega

end

end EventLog

theorem drop_min_length {α : Type} (l : List α) (n : Nat) : l.drop (min n l.length) = l.drop n := by
  rw [drop_eq_drop_iff]
  omega

theorem InMemoryStore.positional (executionId : String)
    : eventLog.Positional executionId (fun _ => True)
        fun store left => store.load executionId = left.map Prod.snd := by
  refine ⟨?_, ?_, ?_, ?_⟩
  . intro store left h
    rw [← h]
    rfl
  . intro store left event h _
    show (store.events.insert executionId (store.load executionId ++ [event]))[executionId]?.getD [] = _
    rw [Map.getElem?_insert, if_pos rfl, Option.getD_some, h, map_append]
    rfl
  . intro store left event h
    show left.length < (store.load executionId ++ [event]).length
    rw [h, length_append, length_map]
    exact Nat.lt_succ_self _
  . intro store left n h
    show (store.compact executionId n).load executionId = _
    unfold compact InMemoryStore.load
    unfold InMemoryStore.load at h
    cases hlog : store.events[executionId]? with
    | none =>
      rw [hlog, Option.getD_none] at h
      dsimp only
      rw [hlog, Option.getD_none, map_drop, ← h, drop_nil]
    | some log =>
      rw [hlog, Option.getD_some] at h
      dsimp only
      rw [Map.getElem?_insert, if_pos rfl, Option.getD_some, drop_min_length, map_drop, ← h]

namespace FileStore

structure Holds (codec : Codec) (executionId : String) (store : FileStore) (left : List (Nat × WorkflowEvent))
    : Prop where
  log : store.dir[eventsPath executionId]?.getD "" = Lines.unlines (left.map fun p => codec.encodeEvent p.2)
  seqs : ∀ last, store.seqs[executionId]? = some last → left.length ≤ last
  read : ∀ p ∈ left, codec.decodeEvent (codec.encodeEvent p.2) = .ok p.2

section

variable {codec : Codec} {executionId : String} {store : FileStore} {left : List (Nat × WorkflowEvent)}

theorem lines_encoded (hlined : codec.Lined) (left : List (Nat × WorkflowEvent))
    : Lines.lines (Lines.unlines (left.map fun p => codec.encodeEvent p.2))
        = left.map fun p => codec.encodeEvent p.2 := by
  apply Lines.lines_unlines
  intro l hl
  obtain ⟨p, -, rfl⟩ := mem_map.mp hl
  exact (hlined p.2).1

theorem Holds.lines (hlined : codec.Lined) (h : Holds codec executionId store left)
    : loadLines store.dir (eventsPath executionId) = left.map fun p => codec.encodeEvent p.2 := by
  rw [loadLines_eq, h.log, lines_encoded hlined]

theorem Holds.load (hlined : codec.Lined) (h : Holds codec executionId store left)
    : store.load codec executionId = .ok (left.map Prod.snd) := by
  unfold FileStore.load
  have hfull : (left.map fun p => codec.encodeEvent p.2).filter (fun line => !isBlank line)
      = left.map fun p => codec.encodeEvent p.2 := by
    rw [filter_eq_self]
    intro line hline
    obtain ⟨p, -, rfl⟩ := mem_map.mp hline
    rw [(hlined p.2).2]
    rfl
  rw [h.lines hlined, hfull]
  exact Fallible.mapM_map h.read

theorem Holds.append_log (h : Holds codec executionId store left) (event : WorkflowEvent) (seq : Nat)
    : store.dir[eventsPath executionId]?.getD "" ++ codec.encodeEvent event ++ "\n"
        = Lines.unlines ((left ++ [(seq, event)]).map fun p => codec.encodeEvent p.2) := by
  rw [h.log, map_append, map_singleton, Lines.unlines_append]

theorem Holds.lt_append (hlined : codec.Lined) (h : Holds codec executionId store left) (event : WorkflowEvent)
    : left.length < (store.append codec executionId event).1 := by
  unfold FileStore.append
  dsimp only
  cases hlast : store.seqs[executionId]? with
  | some last => exact Nat.lt_succ_of_le (h.seqs last hlast)
  | none =>
    dsimp only
    rw [loadLines_eq, Map.getElem?_insert, if_pos rfl, Option.getD_some, h.append_log event 0,
      lines_encoded hlined, length_map, length_append]
    exact Nat.lt_succ_self _

theorem Holds.append (hlined : codec.Lined) (h : Holds codec executionId store left) {event : WorkflowEvent}
    (hread : codec.decodeEvent (codec.encodeEvent event) = .ok event)
    : Holds codec executionId (store.append codec executionId event).2
        (left ++ [((store.append codec executionId event).1, event)]) := by
  refine ⟨?_, ?_, ?_⟩
  . rw [← h.append_log event]
    unfold FileStore.append
    dsimp only
    rw [Map.getElem?_insert, if_pos rfl, Option.getD_some]
  . intro last hlast
    have hcached : (store.append codec executionId event).2.seqs[executionId]?
        = some (store.append codec executionId event).1 := by
      show (store.seqs.insert executionId (store.append codec executionId event).1)[executionId]? = _
      rw [Map.getElem?_insert, if_pos rfl]
    cases hcached.symm.trans hlast
    rw [length_append]
    exact h.lt_append hlined event
  . intro p hp
    rw [mem_append, mem_singleton] at hp
    rcases hp with hold | rfl
    . exact h.read p hold
    . exact hread

theorem join_eq_unlines {ls : List String} (h : ls ≠ []) : Text.join "\n" ls ++ "\n" = Lines.unlines ls := by
  induction ls with
  | nil => exact absurd rfl h
  | cons l ls ih =>
    cases ls with
    | nil => simp [Text.join, Lines.unlines]
    | cons l' ls => rw [Text.join, Lines.unlines, String.append_assoc, ih (cons_ne_nil _ _)]

theorem rewritten_eq_unlines {ls : List String} (h : ∀ l ∈ ls, isBlank l = false)
    : (if Text.join "\n" ls = "" then Text.join "\n" ls else Text.join "\n" ls ++ "\n") = Lines.unlines ls := by
  cases ls with
  | nil => rfl
  | cons l ls =>
    rw [if_neg, join_eq_unlines (cons_ne_nil _ _)]
    intro hempty
    have hl : l = "" := by
      cases ls with
      | nil => exact hempty
      | cons l' ls =>
        rw [Text.join, String.append_assoc, String.append_eq_empty_iff] at hempty
        exact hempty.1
    have hblank := h l mem_cons_self
    rw [hl] at hblank
    revert hblank
    decide

theorem Holds.compact (hlined : codec.Lined) (h : Holds codec executionId store left) (n : Nat)
    : Holds codec executionId (store.compact executionId n) (left.drop n) := by
  refine ⟨?_, ?_, fun p hp => h.read p (mem_of_mem_drop hp)⟩
  . unfold FileStore.compact
    dsimp only
    rw [h.lines hlined, drop_min_length, Map.getElem?_insert, if_pos rfl, Option.getD_some, ← map_drop]
    apply rewritten_eq_unlines
    intro l hl
    obtain ⟨p, -, rfl⟩ := mem_map.mp hl
    exact (hlined p.2).2
  . intro last hlast
    have := h.seqs last hlast
    rw [length_drop]
    omega

theorem positional (hlined : codec.Lined) (executionId : String)
    : (FileStore.eventLog codec).Positional executionId
        (fun event => codec.decodeEvent (codec.encodeEvent event) = .ok event) (Holds codec executionId) where
  load h := h.load hlined
  append _ h hread := h.append hlined hread
  seq event h := h.lt_append hlined event
  compact n h := h.compact hlined n

end

end FileStore

open FileStore

namespace EventLog

structure Compacts {σ : Type} (L : EventLog σ) (executionId : String) (store : σ) (calls : List Call) : Prop where
  exact_iff : L.Exact executionId store calls ↔ L.Steady executionId store calls
  absorbed : ∀ n m, n ≤ m → L.Steady executionId store (calls ++ [.compact n, .compact m]) →
    L.Steady executionId store (calls ++ [.compact m]) →
    L.load (L.after executionId store (calls ++ [.compact n, .compact m])).store executionId
      = L.load (L.after executionId store (calls ++ [.compact m])).store executionId

theorem Positional.compacts {σ : Type} {L : EventLog σ} {executionId : String} {good : WorkflowEvent → Prop}
    {R : σ → List (Nat × WorkflowEvent) → Prop} (hpos : L.Positional executionId good R) {store : σ}
    (hR : R store []) {calls : List Call} (hgood : ∀ event, .append event ∈ calls → good event)
    : L.Compacts executionId store calls where
  exact_iff := exact_iff_steady hpos hR hgood
  absorbed _ _ := load_compact_compact hpos hR hgood

end EventLog

/--
In both stores a run of appends and compactions of an execution that has no events yet leaves the events that
no compaction has named, if and only if every compaction finds no event with a greater number among as many of
the first ones as its own number.
-/
theorem compacts_of_fresh (codec : Codec) (hlined : codec.Lined) (executionId : String)
    (calls : List EventLog.Call)
    (hread : ∀ event, .append event ∈ calls → codec.decodeEvent (codec.encodeEvent event) = .ok event)
    : (∀ store : InMemoryStore, store.events[executionId]? = none →
        eventLog.Compacts executionId store calls)
      ∧ ∀ store : FileStore, store.dir[eventsPath executionId]? = none →
        store.seqs[executionId]? = none → (eventLog codec).Compacts executionId store calls := by
  refine ⟨?_, ?_⟩
  . intro store hnone
    apply (positional executionId).compacts _ fun _ _ => trivial
    unfold InMemoryStore.load
    rw [hnone]
    rfl
  . intro store hnone hseqs
    apply (positional hlined executionId).compacts _ hread
    refine ⟨?_, ?_, forall_mem_nil _⟩
    . rw [hnone]
      rfl
    . intro last hlast
      rw [hseqs] at hlast
      cases hlast

namespace Archive

def calls : List EventLog.Call :=
  [.append .workflowValidated, .append .workflowValidated, .append .workflowValidated, .compact 1, .compact 1]

def appended : List EventLog.Call :=
  [.append .workflowValidated, .append .workflowValidated, .append .workflowValidated]

theorem steady_appended {σ : Type} (L : EventLog σ) (store : σ) : L.Steady "order-1" store appended := by
  intro before n rest heq
  have hmem : EventLog.Call.compact n ∈ appended := heq ▸ mem_append_right _ mem_cons_self
  simp [appended] at hmem

theorem compacted {σ : Type} {L : EventLog σ} {store : σ} (hcompacts : L.Compacts "order-1" store appended)
    (hkept : L.Compacts "order-1" store (appended ++ [.compact 1, .compact 3]))
    (hfirst : EventLog.Names (L.after "order-1" store appended) 1)
    (hall : EventLog.Names (L.after "order-1" store appended) 3)
    (hrest : EventLog.Names (L.after "order-1" store (appended ++ [.compact 1])) 3)
    : L.Exact "order-1" store (appended ++ [.compact 1, .compact 3])
        ∧ L.load (L.after "order-1" store (appended ++ [.compact 1, .compact 3])).store "order-1"
          = L.load (L.after "order-1" store (appended ++ [.compact 3])).store "order-1" := by
  have hsteady := ((steady_appended L store).compact hfirst).compact hrest
  rw [append_assoc] at hsteady
  exact ⟨hkept.exact_iff.mpr hsteady,
    hcompacts.absorbed 1 3 (by decide) hsteady ((steady_appended L store).compact hall)⟩

theorem read_validated {calls : List EventLog.Call} (h : ∀ event, .append event ∈ calls → event = .workflowValidated)
    : ∀ event, .append event ∈ calls →
      validated.decodeEvent (validated.encodeEvent event) = .ok event := by
  intro event hevent
  cases h event hevent
  decide

end Archive

open Archive

theorem compacts_of_fresh_archive
    : (eventLog.Exact "order-1" {} (appended ++ [.compact 1, .compact 3])
        ∧ eventLog.load (eventLog.after "order-1" {}
            (appended ++ [.compact 1, .compact 3])).store "order-1"
          = eventLog.load (eventLog.after "order-1" {}
            (appended ++ [.compact 3])).store "order-1")
      ∧ (eventLog validated).Exact "order-1" {} (appended ++ [.compact 1, .compact 3])
        ∧ (eventLog validated).load ((eventLog validated).after "order-1" {}
            (appended ++ [.compact 1, .compact 3])).store "order-1"
          = (eventLog validated).load ((eventLog validated).after "order-1" {}
            (appended ++ [.compact 3])).store "order-1" := by
  have hcompacts := compacts_of_fresh validated lined_validated "order-1" appended
    (read_validated (by simp [appended]))
  have hkept := compacts_of_fresh validated lined_validated "order-1"
    (appended ++ [.compact 1, .compact 3]) (read_validated (by simp [appended]))
  refine ⟨compacted (hcompacts.1 {} (by decide)) (hkept.1 {} (by decide)) ?_ ?_ ?_,
    compacted (hcompacts.2 {} (by decide) (by decide)) (hkept.2 {} (by decide) (by decide)) ?_ ?_ ?_⟩
  all_goals
    unfold EventLog.Names
    decide

-- The second compaction deletes the second event, whose number is two.
theorem archive_loses
    : ¬eventLog.Exact "order-1" {} calls
        ∧ ¬(eventLog validated).Exact "order-1" {} calls
        ∧ (eventLog.after "order-1" {} calls).left
          = [(2, .workflowValidated), (3, .workflowValidated)]
        ∧ eventLog.load (eventLog.after "order-1" {} calls).store "order-1"
          = .ok [.workflowValidated] := by
  refine ⟨?_, ?_, by decide, by decide⟩
  . intro hexact
    have hagrees := hexact calls [] (append_nil _).symm
    revert hagrees
    unfold EventLog.Agrees
    decide
  . intro hexact
    have hagrees := hexact calls [] (append_nil _).symm
    revert hagrees
    unfold EventLog.Agrees
    decide +kernel

end Wovyr.Workflow
