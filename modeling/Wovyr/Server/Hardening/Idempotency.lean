import Wovyr.Lib.Requeue
import Wovyr.Lib.Run
import Wovyr.Lib.Tasks
import Wovyr.Server.Hardening

/-!
This module contains the log that the store of the replayed responses is read from when the server
starts. The process can stop at any point of a `put`, also within a line.
-/

namespace Wovyr

open Aging List

namespace Server.Hardening

abbrev PersistedEntry := Item Value

inductive Tail where
  | ended
  | part
  | whole (record : PersistedEntry)

-- Where the process stops within a line: between two characters, within one, or before the end of the line.
inductive Cut where
  | between
  | within
  | whole
deriving DecidableEq

structure LogFile where
  -- A line that is not an entry says nothing.
  lines : List (Option PersistedEntry) := []
  tail : Tail := .ended
  -- Whether the bytes are UTF-8.
  utf8 : Bool := true

inductive Persist where
  | append (record : PersistedEntry)
  | compact (records : List PersistedEntry)

namespace LogFile

-- A file that is not UTF-8 is not read at all.
def records (f : LogFile) : List PersistedEntry :=
  if f.utf8 then
    f.lines.filterMap id ++ match f.tail with
      | .whole record => [record]
      | _ => []
  else
    []

-- What is written after a line that has no end belongs to that line, which is not an entry then.
def appendLine (record : PersistedEntry) (f : LogFile) : LogFile :=
  match f.tail with
  | .ended => { f with lines := f.lines ++ [some record] }
  | _ => { f with lines := f.lines ++ [none], tail := .ended }

def writeSnapshot (records : List PersistedEntry) : LogFile :=
  { lines := records.map some }

def write (f : LogFile) : Persist → LogFile
  | .append record => f.appendLine record
  | .compact records => writeSnapshot records

-- A character that is cut stays cut: the next line begins with an ASCII character.
def tear (record : PersistedEntry) (cut : Cut) (f : LogFile) : LogFile :=
  { f with
    tail := match f.tail, cut with
      | .ended, .whole => .whole record
      | _, _ => .part
    utf8 := f.utf8 && cut != .within }

end LogFile

structure Put where
  -- The how manieth it was to get the lock.
  turn : Nat
  entry : PersistedEntry

structure PendingWrite where
  turn : Nat
  persist : Persist

structure IdempotencyStore where
  clockMs : Nat := 0
  inner : Aging Value := {}
  logLines : Nat := 0
  file : LogFile := {}
  -- What has been chosen to be written and is not written yet.
  pending : List PendingWrite := []
  puts : List Put := []
  nextTurn : Nat := 0
  written : List Nat := []

inductive StoreMove where
  | put (tenant key : String) (body : Value)
  | write (i : Nat)
  | get
  | tick (ms : Nat)
  -- The process stops, maybe within one of the writes, and is started again.
  | stop (torn : Option (Nat × Cut))

namespace IdempotencyStore

def persist (bounds : Bounds) (inner : Aging Value) (logLines : Nat) (record : PersistedEntry) : Nat × Persist :=
  if logLines ≥ min (bounds.maxEntries * 2) (2 ^ 64 - 1) then
    (inner.items.length, .compact inner.items)
  else
    (logLines, .append record)

-- A snapshot is there as a whole or not at all.
def stopped (s : IdempotencyStore) (torn : Option (Nat × Cut)) : LogFile × List Nat :=
  match torn with
  | none => (s.file, s.written)
  | some (i, cut) =>
    match s.pending[i]? with
    | some ⟨turn, .append record⟩ => (s.file.tear record cut, if cut = .whole then s.written ++ [turn] else s.written)
    | _ => (s.file, s.written)

def step (bounds : Bounds) (s : IdempotencyStore) : StoreMove → IdempotencyStore
  | .put tenant key body =>
    let record : PersistedEntry := ⟨scopedFor tenant key, body, s.clockMs⟩
    let inner := s.inner.put bounds s.clockMs record.key record.body
    let (logLines, chosen) := persist bounds inner (s.logLines + 1) record
    { s with
      inner
      logLines
      pending := s.pending ++ [⟨s.nextTurn, chosen⟩]
      puts := s.puts ++ [⟨s.nextTurn, record⟩]
      nextTurn := s.nextTurn + 1 }
  | .write i =>
    match s.pending[i]? with
    | none => s
    | some w =>
      { s with
        file := s.file.write w.persist
        pending := s.pending.eraseIdx i
        written := s.written ++ [w.turn] }
  | .get => { s with inner := s.inner.evict bounds s.clockMs false }
  | .tick ms => { s with clockMs := s.clockMs + ms }
  | .stop torn =>
    let (file, written) := s.stopped torn
    { s with
      inner := ofItems file.records
      logLines := file.records.length
      file
      pending := []
      puts := s.puts.filter fun p => p.turn ∈ written
      written }

def get (bounds : Bounds) (s : IdempotencyStore) (tenant key : String) : Option Value :=
  (s.inner.evict bounds s.clockMs false).get? (scopedFor tenant key)

def latest (s : IdempotencyStore) : List PersistedEntry :=
  Aging.Item.lasts (s.puts.map (·.entry))

-- What was put is found while it is young enough and not too many keys were put later.
def Kept (bounds : Bounds) (s : IdempotencyStore) : Prop :=
  ∀ earlier (record : PersistedEntry) later, s.latest = earlier ++ record :: later →
    later.length < bounds.maxEntries → s.clockMs - record.insertedAtMs ≤ bounds.ttl →
    ∀ tenant key, record.key = scopedFor tenant key → s.get bounds tenant key = some record.body

def Ordered (s : IdempotencyStore) : Prop :=
  ∃ n, ∀ (key : String) e, s.inner.entries[key]? = some e ↔
    ∃ record ∈ s.latest.drop n, record.key = key ∧ e = (record.body, record.insertedAtMs)

def Fits (s : IdempotencyStore) : Persist → Prop
  | .append _ => s.file.tail = .ended
  | .compact _ => True

/--
A key that an eviction gives up was not put again, nothing is given up to make room for a key that is there, what was
chosen is written in the order of the lock, each line after the end of the last one, no character is cut, and the log
that a server starts with has no more keys than the store may have.
-/
def Orderly (bounds : Bounds) (s : IdempotencyStore) : StoreMove → Prop
  | .put tenant key _ =>
    0 < bounds.maxEntries ∧ s.inner.Unrepeated bounds s.clockMs true ∧
      (scopedFor tenant key ∈ (s.inner.evict bounds s.clockMs false).order →
        (s.inner.evict bounds s.clockMs true).order = (s.inner.evict bounds s.clockMs false).order)
  | .write i => i = 0 ∧ ∀ w, s.pending[i]? = some w → s.Fits w.persist
  | .get => s.inner.Unrepeated bounds s.clockMs false
  | .tick _ => True
  | .stop torn =>
    (∀ i cut turn record, torn = some (i, cut) → s.pending[i]? = some ⟨turn, .append record⟩ →
      s.Fits (.append record) ∧ cut ≠ .within ∧ (cut = .whole → i = 0))
    ∧ (Aging.Item.lasts (s.stopped torn).1.records).length ≤ bounds.maxEntries

end IdempotencyStore

namespace LogFile

variable {f : LogFile}

theorem records_appendLine (hutf8 : f.utf8 = true) (h : f.tail = .ended) (record : PersistedEntry)
    : (f.appendLine record).records = f.records ++ [record] := by
  unfold appendLine records
  rw [h]
  dsimp only
  rw [if_pos hutf8, if_pos hutf8, filterMap_append, append_nil, append_nil]
  rfl

theorem utf8_write (hutf8 : f.utf8 = true) (persist : Persist) : (f.write persist).utf8 = true := by
  cases persist with
  | append record =>
    show (f.appendLine record).utf8 = true
    unfold appendLine
    split <;> exact hutf8
  | compact records => rfl

theorem records_writeSnapshot (records : List PersistedEntry) : (writeSnapshot records).records = records := by
  unfold writeSnapshot LogFile.records
  dsimp only
  rw [if_pos rfl, append_nil, filterMap_map]
  exact filterMap_some

theorem utf8_tear (hutf8 : f.utf8 = true) (record : PersistedEntry) {cut : Cut} (hcut : cut ≠ .within)
    : (f.tear record cut).utf8 = true := by
  unfold tear
  rw [hutf8, Bool.true_and, bne_iff_ne]
  exact hcut

theorem records_tear (hutf8 : f.utf8 = true) (h : f.tail = .ended) (record : PersistedEntry) {cut : Cut}
    (hcut : cut ≠ .within)
    : (f.tear record cut).records = if cut = .whole then f.records ++ [record] else f.records := by
  have htorn := utf8_tear hutf8 record hcut
  unfold records
  rw [if_pos htorn, if_pos hutf8]
  unfold tear
  rw [h]
  cases cut with
  | between => rfl
  | within => exact absurd rfl hcut
  | whole => simp

end LogFile

namespace IdempotencyStore

def Chosen (bounds : Bounds) (s : IdempotencyStore) (i : Nat) : Persist → Prop
  | .append record => (s.puts[s.written.length + i]?).map (·.entry) = some record
  | .compact records =>
    Recent bounds s.clockMs records ((s.puts.take (s.written.length + i + 1)).map (·.entry))

structure Sound (bounds : Bounds) (s : IdempotencyStore) : Prop where
  live : ∃ items, s.inner.Holds items ∧ Recent bounds s.clockMs items (s.puts.map (·.entry))
  size : s.inner.entries.size ≤ bounds.maxEntries
  -- The calls return in the order of the lock.
  turns : s.puts.map (·.turn) = s.written ++ s.pending.map (·.turn)
  distinct : (s.puts.map (·.turn)).Nodup
  below : ∀ p ∈ s.puts, p.turn < s.nextTurn
  utf8 : s.file.utf8 = true
  file : Recent bounds s.clockMs s.file.records ((s.puts.take s.written.length).map (·.entry))
  chosen : ∀ i w, s.pending[i]? = some w → s.Chosen bounds i w.persist

variable {bounds : Bounds} {s : IdempotencyStore}

theorem sound_init (bounds : Bounds) : Sound bounds {} where
  live := ⟨[], holds_empty, recent_self bounds 0 []⟩
  size := Nat.zero_le _
  turns := rfl
  distinct := nodup_nil
  below := nofun
  utf8 := rfl
  file := recent_self bounds 0 []
  chosen := nofun

theorem Sound.kept (h : s.Sound bounds) : s.Kept bounds := by
  intro earlier record later hlatest hfew hyoung tenant key hkey
  obtain ⟨items, hholds, hrecent⟩ := h.live
  have hfind := hholds.find (hrecent.mem hlatest hfew hyoung)
  unfold get get?
  rw [← hkey]
  unfold evict
  rw [evictFrom_keeps hfind hyoung fun hmake => absurd hmake Bool.false_ne_true]
  rfl

theorem Sound.ordered (h : s.Sound bounds) : s.Ordered := by
  obtain ⟨items, hholds, gone, hlasts, -⟩ := h.live
  refine ⟨gone.length, ?_⟩
  unfold latest
  rw [hlasts, drop_left]
  exact hholds.entries

theorem persist_cases (bounds : Bounds) (inner : Aging Value) (logLines : Nat) (record : PersistedEntry)
    : (persist bounds inner logLines record).2 = .compact inner.items
        ∨ (persist bounds inner logLines record).2 = .append record := by
  unfold persist
  split
  . exact .inl rfl
  . exact .inr rfl

theorem Sound.put (h : s.Sound bounds) (tenant key : String) (body : Value)
    (horderly : s.Orderly bounds (.put tenant key body)) : (s.step bounds (.put tenant key body)).Sound bounds := by
  obtain ⟨hmax, hunrepeated, hroom⟩ := horderly
  obtain ⟨items, hholds, hrecent⟩ := h.live
  obtain ⟨items', hholds', hrecent'⟩ := hrecent.put hholds hunrepeated hroom body
  have hlength : s.written.length + s.pending.length = s.puts.length := by
    have hturns := congrArg length h.turns
    rw [length_append, length_map, length_map] at hturns
    exact hturns.symm
  have hputs : (s.puts ++ [(⟨s.nextTurn, ⟨scopedFor tenant key, body, s.clockMs⟩⟩ : Put)]).map (·.entry)
      = s.puts.map (·.entry) ++ [⟨scopedFor tenant key, body, s.clockMs⟩] := by
    rw [map_append]
    rfl
  refine ⟨⟨items', hholds', ?_⟩, hholds.size_put hunrepeated hmax _ body, ?_, ?_, ?_, h.utf8, ?_, ?_⟩
  . show Recent bounds s.clockMs items' ((s.puts ++ [_]).map _)
    rw [hputs]
    exact hrecent'
  . show (s.puts ++ [_]).map _ = s.written ++ (s.pending ++ [_]).map _
    rw [map_append, map_append, h.turns, append_assoc]
    rfl
  . show ((s.puts ++ [_]).map _).Nodup
    rw [map_append, nodup_append]
    refine ⟨h.distinct, nodup_cons.mpr ⟨not_mem_nil, nodup_nil⟩, ?_⟩
    rintro turn hturn _ hnew rfl
    obtain ⟨p, hp, rfl⟩ := mem_map.mp hturn
    exact absurd (mem_singleton.mp hnew) (Nat.ne_of_lt (h.below p hp))
  . exact forall_mem_snoc (fun p hp => Nat.lt_succ_of_lt (h.below p hp)) (Nat.lt_succ_self _)
  . show Recent bounds s.clockMs s.file.records (((s.puts ++ [_]).take s.written.length).map _)
    rw [take_append_of_le_length (by omega)]
    exact h.file
  . intro i w hw
    change (s.pending ++ [_])[i]? = some w at hw
    by_cases hi : i < s.pending.length
    . rw [getElem?_append_left hi] at hw
      have hchosen := h.chosen i w hw
      cases hpersist : w.persist with
      | append record =>
        rw [hpersist] at hchosen
        show ((s.puts ++ [_])[s.written.length + i]?).map _ = some record
        rw [getElem?_append_left (by omega)]
        exact hchosen
      | compact records =>
        rw [hpersist] at hchosen
        show Recent bounds s.clockMs records (((s.puts ++ [_]).take (s.written.length + i + 1)).map _)
        rw [take_append_of_le_length (by omega)]
        exact hchosen
    . rw [getElem?_append_right (Nat.le_of_not_lt hi), getElem?_singleton] at hw
      split at hw
      . next hlast =>
        have hpersist : w.persist = (persist bounds (s.inner.put bounds s.clockMs (scopedFor tenant key) body)
            (s.logLines + 1) ⟨scopedFor tenant key, body, s.clockMs⟩).2 :=
          congrArg (·.persist) (Option.some.inj hw).symm
        have hend : s.written.length + i = s.puts.length := by omega
        rcases persist_cases bounds (s.inner.put bounds s.clockMs (scopedFor tenant key) body) (s.logLines + 1)
          ⟨scopedFor tenant key, body, s.clockMs⟩ with hcompact | happend
        . rw [hpersist, hcompact]
          show Recent bounds s.clockMs _ (((s.puts ++ [_]).take (s.written.length + i + 1)).map _)
          rw [hend, take_of_length_le (by rw [length_append]; rfl), hputs]
          exact hrecent'.congr hholds'.items
        . rw [hpersist, happend]
          show ((s.puts ++ [_])[s.written.length + i]?).map _ = some _
          rw [hend, getElem?_concat_length]
          rfl
      . cases hw

theorem Sound.first (h : s.Sound bounds) {w : PendingWrite} (hw : s.pending[0]? = some w) (hfits : s.Fits w.persist)
    : Recent bounds s.clockMs (s.file.write w.persist).records
        ((s.puts.take (s.written.length + 1)).map (·.entry)) := by
  have hchosen := h.chosen 0 w hw
  cases hpersist : w.persist with
  | append record =>
    rw [hpersist] at hchosen hfits
    obtain ⟨p, hp, rfl⟩ := Option.map_eq_some_iff.mp hchosen
    rw [Nat.add_zero] at hp
    show Recent bounds s.clockMs (s.file.appendLine p.entry).records _
    rw [LogFile.records_appendLine h.utf8 hfits, take_add_one, hp, map_append]
    exact h.file.snoc p.entry
  | compact records =>
    rw [hpersist] at hchosen
    show Recent bounds s.clockMs (LogFile.writeSnapshot records).records _
    rw [LogFile.records_writeSnapshot]
    exact hchosen

theorem Sound.write (h : s.Sound bounds) {i : Nat} (horderly : s.Orderly bounds (.write i))
    : (s.step bounds (.write i)).Sound bounds := by
  obtain ⟨rfl, hfits⟩ := horderly
  unfold step
  dsimp only
  cases hpending : s.pending with
  | nil => exact h
  | cons w rest =>
    have hw : s.pending[0]? = some w := by
      rw [hpending]
      rfl
    refine ⟨h.live, h.size, ?_, h.distinct, h.below, LogFile.utf8_write h.utf8 w.persist, ?_, ?_⟩
    . have hturns := h.turns
      rw [hpending, map_cons, append_cons] at hturns
      exact hturns
    . show Recent bounds s.clockMs (s.file.write w.persist).records
        ((s.puts.take (s.written ++ [w.turn]).length).map _)
      rw [length_append]
      exact h.first hw (hfits w hw)
    . intro i w' hw'
      have hchosen := h.chosen (i + 1) w' (by rw [hpending]; exact hw')
      have hnext : s.written.length + (i + 1) = (s.written ++ [w.turn]).length + i := by
        rw [length_append, length_singleton]
        omega
      cases hpersist : w'.persist with
      | append record =>
        rw [hpersist] at hchosen
        show (s.puts[(s.written ++ [w.turn]).length + i]?).map _ = some record
        rw [← hnext]
        exact hchosen
      | compact records =>
        rw [hpersist] at hchosen
        show Recent bounds s.clockMs records ((s.puts.take ((s.written ++ [w.turn]).length + i + 1)).map _)
        rw [← hnext]
        exact hchosen

theorem Sound.get (h : s.Sound bounds) (horderly : s.Orderly bounds .get) : (s.step bounds .get).Sound bounds := by
  obtain ⟨items, hholds, hrecent⟩ := h.live
  obtain ⟨gone, rest, rfl, hreleased⟩ := hholds.evict horderly
  exact { h with
    live := ⟨rest, hreleased.holds, hrecent.expire hreleased⟩
    size := Nat.le_trans (hreleased.size_le hholds) h.size }

theorem Sound.tick (h : s.Sound bounds) (ms : Nat) : (s.step bounds (.tick ms)).Sound bounds := by
  have hle : s.clockMs ≤ s.clockMs + ms := Nat.le_add_right _ _
  obtain ⟨items, hholds, hrecent⟩ := h.live
  refine { h with live := ⟨items, hholds, hrecent.later hle⟩, file := h.file.later hle, chosen := ?_ }
  intro i w hw
  have hchosen := h.chosen i w hw
  cases hpersist : w.persist with
  | append record =>
    rw [hpersist] at hchosen
    exact hchosen
  | compact records =>
    rw [hpersist] at hchosen
    exact Aging.Recent.later hchosen hle

theorem Sound.stopped (h : s.Sound bounds) {torn : Option (Nat × Cut)} (horderly : s.Orderly bounds (.stop torn))
    : (∃ lost, s.puts.map (·.turn) = (s.stopped torn).2 ++ lost) ∧ (s.stopped torn).1.utf8 = true
        ∧ Recent bounds s.clockMs (s.stopped torn).1.records
          ((s.puts.take (s.stopped torn).2.length).map (·.entry)) := by
  have hsame : (∃ lost, s.puts.map (·.turn) = s.written ++ lost) ∧ s.file.utf8 = true
      ∧ Recent bounds s.clockMs s.file.records ((s.puts.take s.written.length).map (·.entry)) :=
    ⟨⟨_, h.turns⟩, h.utf8, h.file⟩
  cases torn with
  | none => exact hsame
  | some under =>
    obtain ⟨i, cut⟩ := under
    unfold IdempotencyStore.stopped
    dsimp only
    cases hw : s.pending[i]? with
    | none => exact hsame
    | some w =>
      obtain ⟨turn, chosen⟩ := w
      cases chosen with
      | compact records => exact hsame
      | append record =>
        obtain ⟨hfits, hcut, hfirst⟩ := horderly.1 i cut turn record rfl hw
        dsimp only
        rw [LogFile.records_tear h.utf8 hfits record hcut, LogFile.utf8_tear h.utf8 record hcut]
        cases cut with
        | within => exact absurd rfl hcut
        | between => exact ⟨hsame.1, rfl, h.file⟩
        | whole =>
          obtain rfl := hfirst rfl
          refine ⟨?_, rfl, ?_⟩
          . obtain ⟨rest, hrest⟩ : ∃ rest, s.pending = ⟨turn, .append record⟩ :: rest := by
              cases hpending : s.pending with
              | nil =>
                rw [hpending] at hw
                cases hw
              | cons w rest =>
                rw [hpending] at hw
                obtain rfl := Option.some.inj hw
                exact ⟨rest, rfl⟩
            refine ⟨rest.map (·.turn), ?_⟩
            rw [h.turns, hrest, map_cons, append_cons]
            rfl
          . have hrecent := h.first hw hfits
            change Recent bounds s.clockMs (s.file.appendLine record).records _ at hrecent
            rw [LogFile.records_appendLine h.utf8 hfits] at hrecent
            show Recent bounds s.clockMs (s.file.records ++ [record])
              ((s.puts.take (s.written ++ [turn]).length).map _)
            rw [length_append]
            exact hrecent

theorem filter_written {puts : List Put} {written lost : List Nat} (h : puts.map (·.turn) = written ++ lost)
    (hdistinct : (puts.map (·.turn)).Nodup) : puts.filter (fun p => p.turn ∈ written) = puts.take written.length := by
  have htake : (puts.take written.length).map (·.turn) = written := by
    rw [map_take, h, take_left]
  have hdrop : (puts.drop written.length).map (·.turn) = lost := by
    rw [map_drop, h, drop_left]
  conv => lhs; rw [← take_append_drop written.length puts]
  rw [filter_append, filter_eq_self.mpr, filter_eq_nil_iff.mpr, append_nil]
  . intro p hp hwritten
    have hlost : p.turn ∈ lost := hdrop ▸ mem_map_of_mem hp
    rw [h, nodup_append] at hdistinct
    exact hdistinct.2.2 _ (of_decide_eq_true hwritten) _ hlost rfl
  . intro p hp
    rw [decide_eq_true_eq, ← htake]
    exact mem_map_of_mem hp

theorem Sound.stop (h : s.Sound bounds) {torn : Option (Nat × Cut)} (horderly : s.Orderly bounds (.stop torn))
    : (s.step bounds (.stop torn)).Sound bounds := by
  obtain ⟨⟨lost, hturns⟩, hutf8, hfile⟩ := h.stopped horderly
  have hputs := filter_written hturns h.distinct
  have hleft : (s.puts.filter fun p => p.turn ∈ (s.stopped torn).2).map (·.turn) = (s.stopped torn).2 := by
    rw [hputs, map_take, hturns, take_left]
  have hall : (s.puts.filter fun p => p.turn ∈ (s.stopped torn).2).take (s.stopped torn).2.length
      = s.puts.filter fun p => p.turn ∈ (s.stopped torn).2 := by
    rw [hputs, take_take, Nat.min_self]
  have hrecent : Recent bounds s.clockMs (s.stopped torn).1.records
      ((s.puts.filter fun p => p.turn ∈ (s.stopped torn).2).map (·.entry)) := by
    rw [hputs]
    exact hfile
  refine ⟨⟨_, holds_ofItems _, hrecent⟩, ?_, ?_, ?_, ?_, hutf8, ?_, nofun⟩
  . exact (holds_ofItems (s.stopped torn).1.records).size ▸ horderly.2
  . exact hleft.trans (append_nil _).symm
  . show ((s.puts.filter _).map _).Nodup
    exact h.distinct.sublist (filter_sublist.map _)
  . exact fun p hp => h.below p (mem_filter.mp hp).1
  . show Recent bounds s.clockMs (s.stopped torn).1.records
      (((s.puts.filter fun p => p.turn ∈ (s.stopped torn).2).take (s.stopped torn).2.length).map (·.entry))
    rw [hall]
    exact hrecent

theorem Sound.step (h : s.Sound bounds) {move : StoreMove} (horderly : s.Orderly bounds move)
    : (s.step bounds move).Sound bounds := by
  cases move with
  | put tenant key body => exact h.put tenant key body horderly
  | write i => exact h.write horderly
  | get => exact h.get horderly
  | tick ms => exact h.tick ms
  | stop torn => exact h.stop horderly

-- In an orderly run whatever was put is kept by the log, from one process to the next.
theorem kept_of_run (bounds : Bounds) {moves : List StoreMove}
    (h : Run (Guarded (Orderly bounds) (IdempotencyStore.step bounds)) {} moves s)
    : s.Kept bounds ∧ s.inner.entries.size ≤ bounds.maxEntries ∧ s.Ordered := by
  have hsound : s.Sound bounds := by
    apply Run.invariant (P := Sound bounds) ?_ h (sound_init bounds)
    rintro s move t hs ⟨horderly, rfl⟩
    exact hs.step horderly
  exact ⟨hsound.kept, hsound.size, hsound.ordered⟩

def usual : Bounds := ⟨86400000, 10000⟩

def afterMoves (moves : List StoreMove) : IdempotencyStore :=
  moves.foldl (IdempotencyStore.step usual) {}

def glued : List StoreMove :=
  [.put "acme" "a" (.int 1), .stop (some (0, .between)), .put "acme" "b" (.int 2), .write 0, .stop none]

theorem not_kept_glued : ¬(afterMoves glued).Kept usual := by
  intro h
  have hlatest : (afterMoves glued).latest = [⟨scopedFor "acme" "b", .int 2, 0⟩] := by
    decide
  have hfound := h [] _ [] hlatest (by decide) (by decide) "acme" "b" rfl
  have hnone : (afterMoves glued).get usual "acme" "b" = none := by
    decide
  rw [hnone] at hfound
  cases hfound

-- A character that is cut takes what was written before with it.
example : (afterMoves [.put "acme" "a" (.int 1), .write 0, .put "acme" "é" (.int 2), .stop (some (0, .within))]).get
    usual "acme" "a" = none := by
  decide

def restarted : List StoreMove :=
  [.put "acme" "a" (.int 1), .write 0, .tick 5, .put "acme" "b" (.int 2), .stop (some (0, .between)), .get]

theorem kept_of_run_restarted
    : (afterMoves restarted).Kept usual ∧ (afterMoves restarted).inner.entries.size ≤ usual.maxEntries
        ∧ (afterMoves restarted).Ordered := by
  suffices hrun : Run (Guarded (Orderly usual) (IdempotencyStore.step usual)) {} restarted (afterMoves restarted) from
    kept_of_run usual hrun
  have hkeeps {s : IdempotencyStore} {makeRoom : Bool}
      (h : (s.inner.evict usual s.clockMs makeRoom).order.length = s.inner.order.length)
      : s.inner.Unrepeated usual s.clockMs makeRoom := by
    intro i key hi
    omega
  refine .cons ⟨⟨by decide, hkeeps (by decide), fun _ => by decide⟩, rfl⟩ <|
    .cons ⟨⟨rfl, ?_⟩, rfl⟩ <| .cons ⟨trivial, rfl⟩ <|
    .cons ⟨⟨by decide, hkeeps (by decide), fun _ => by decide⟩, rfl⟩ <|
    .cons ⟨⟨?_, by decide⟩, rfl⟩ <| .cons ⟨hkeeps (by decide), rfl⟩ (.nil _)
  . intro w hw
    obtain rfl := Option.some.inj hw
    exact rfl
  . intro i cut turn record htorn hw
    obtain ⟨rfl, rfl⟩ := Prod.mk.inj (Option.some.inj htorn)
    exact ⟨rfl, nofun, nofun⟩

end Wovyr.Server.Hardening.IdempotencyStore
