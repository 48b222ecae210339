import Std.Data.String.ToNat
import Wovyr.Lib.Tasks
import Wovyr.Server.Agents

/-!
This module contains the store of the runs that go on in the background. It is written to a file
with every change, and read from it when the server starts again.
-/

namespace Wovyr.Server.Agents

open List

structure StoredRun where
  runId : String
  record : RunRecord
  insertedAtMs : Nat

namespace RunStore

def records (runs : Aging RunRecord) : List StoredRun :=
  runs.order.filterMap fun runId => (runs.entries[runId]?).map fun e => ⟨runId, e.1, e.2⟩

def isRunning : AsyncRunStatus → Bool
  | .running => true
  | _ => false

-- A run that was under way when the server stopped cannot be resumed.
def reconcile (record : RunRecord) : RunRecord :=
  if isRunning record.status then
    { record with
      status := .failed "server restarted while the run was in flight; agent runs are not resumable" }
  else
    record

def loadRecord (runs : Aging RunRecord) (r : StoredRun) : Aging RunRecord where
  entries := runs.entries.insert r.runId (reconcile r.record, r.insertedAtMs)
  order := runs.order ++ [r.runId]

def load (records : List StoredRun) : Aging RunRecord :=
  records.foldl loadRecord {}

def finish (runId : String) (status : AsyncRunStatus) (runs : Aging RunRecord) : Aging RunRecord :=
  match runs.entries[runId]? with
  | none => runs
  | some (record, insertedAt) =>
    { runs with entries := runs.entries.insert runId ({ record with status }, insertedAt) }

end RunStore

open RunStore

structure Submission where
  runId : String
  record : RunRecord
  insertedAtMs : Nat

structure RunServer where
  clockMs : Nat := 0
  runCounter : Nat := 1
  -- Ids that handlers have taken and not used yet.
  taken : List String := []
  runs : Aging RunRecord := {}
  file : List StoredRun := []
  submissions : List Submission := []
  -- How many of them were made before the server was last started.
  former : Nat := 0

inductive RunMove where
  | takeId
  | insertRunning (i : Nat) (tenant : String)
  -- The task of a run comes to its end.
  | finish (i : Nat) (outcome : Except Error RunOutput)
  | tick (ms : Nat)
  | restart

def outcomeStatus : Except Error RunOutput → AsyncRunStatus
  | .ok out => .succeeded (outputJson out) out.steps (usageJson out)
  | .error e => .failed e.display

namespace RunServer

def step (bounds : Aging.Bounds) (path : Bool) (s : RunServer) : RunMove → RunServer
  | .takeId =>
    { s with
      runCounter := s.runCounter + 1
      taken := s.taken ++ ["run_" ++ toString s.runCounter] }
  | .insertRunning i tenant =>
    match s.taken[i]? with
    | none => s
    | some runId =>
      let runs := s.runs.put bounds s.clockMs runId ⟨tenant, .running⟩
      { s with
        taken := s.taken.eraseIdx i
        runs
        file := if path then RunStore.records runs else s.file
        submissions := s.submissions ++ [⟨runId, ⟨tenant, .running⟩, s.clockMs⟩] }
  | .finish i outcome =>
    match s.submissions[i]? with
    | none => s
    | some run =>
      -- The tasks of a former process are gone, as are those that have ended.
      if isRunning run.record.status then
        let status := outcomeStatus outcome
        let runs := RunStore.finish run.runId status s.runs
        { s with
          runs
          file := if path && (s.runs.entries[run.runId]?).isSome then RunStore.records runs else s.file
          submissions := s.submissions.set i { run with record := { run.record with status } } }
      else
        s
  | .tick ms => { s with clockMs := s.clockMs + ms }
  | .restart =>
    let runs := if path then load s.file else {}
    let reconciled := s.file.any fun r => isRunning r.record.status
    { s with
      runCounter := 1
      taken := []
      runs
      file := if path && reconciled then RunStore.records runs else s.file
      submissions := s.submissions.map fun run => { run with record := reconcile run.record }
      former := s.submissions.length }

-- The records are those of the last runs: none of them was given up before an older one.
def Latest (s : RunServer) : Prop :=
  ∃ n, ∀ (runId : String) e, s.runs.entries[runId]? = some e ↔
    ∃ run ∈ s.submissions.drop n, run.runId = runId ∧ e = (run.record, run.insertedAtMs)

-- A new run is not given the id of one that is still in the queue when room has been made for it, and a server
-- that starts again has its records in a file.
def Unused (bounds : Aging.Bounds) (path : Bool) (s : RunServer) : RunMove → Prop
  | .insertRunning i _ => ∀ runId, s.taken[i]? = some runId → runId ∉ (s.runs.evict bounds s.clockMs true).order
  | .restart => path = true
  | _ => True

structure Live (bounds : Aging.Bounds) (s : RunServer) (n : Nat) : Prop where
  le : n ≤ s.submissions.length
  order : s.runs.order = (s.submissions.drop n).map (·.runId)
  entries : ∀ run ∈ s.submissions.drop n, s.runs.entries[run.runId]? = some (run.record, run.insertedAtMs)
  gone : ∀ i run, i < n → s.submissions[i]? = some run →
    bounds.maxEntries ≤ s.submissions.length - 1 - i ∨ bounds.ttl < s.clockMs - run.insertedAtMs

structure Sound (bounds : Aging.Bounds) (path : Bool) (s : RunServer) : Prop where
  queued : s.runs.Queued
  file : path = true → s.file = RunStore.records s.runs
  live : ∃ n, s.Live bounds n
  former : s.former ≤ s.submissions.length
  -- The ids that this process has made.
  distinct : ((s.submissions.drop s.former).map (·.runId) ++ s.taken).Nodup
  made : ∀ id ∈ (s.submissions.drop s.former).map (·.runId) ++ s.taken,
    ∃ k < s.runCounter, id = "run_" ++ toString k
  running : ∀ i run, s.submissions[i]? = some run → isRunning run.record.status = true → s.former ≤ i

section

variable {bounds : Aging.Bounds} {path : Bool} {s : RunServer}

theorem sound_init (bounds : Aging.Bounds) (path : Bool) : Sound bounds path {} where
  queued := Aging.queued_empty
  file _ := rfl
  live := ⟨0, Nat.le_refl _, rfl, nofun, fun _ _ hi => absurd hi (Nat.not_lt_zero _)⟩
  former := Nat.le_refl _
  distinct := nodup_nil
  made := nofun
  running := nofun

theorem Sound.latest (h : s.Sound bounds path) : s.Latest := by
  obtain ⟨n, hlive⟩ := h.live
  refine ⟨n, ?_⟩
  intro runId e
  constructor
  . intro he
    have hmem := (h.queued.keyed runId).mp (by rw [he]; rfl)
    rw [hlive.order] at hmem
    obtain ⟨run, hrun, rfl⟩ := mem_map.mp hmem
    refine ⟨run, hrun, rfl, ?_⟩
    rw [hlive.entries run hrun] at he
    exact (Option.some.inj he).symm
  . rintro ⟨run, hrun, rfl, rfl⟩
    exact hlive.entries run hrun

theorem Sound.tick (h : s.Sound bounds path) (ms : Nat) : Sound bounds path { s with clockMs := s.clockMs + ms } := by
  obtain ⟨n, hlive⟩ := h.live
  refine { h with live := ⟨n, { hlive with gone := ?_ }⟩ }
  intro i run hi hrun
  cases hlive.gone i run hi hrun with
  | inl hmany => exact .inl hmany
  | inr hold =>
    right
    dsimp only
    omega

theorem Sound.takeId (h : s.Sound bounds path) : (s.step bounds path .takeId).Sound bounds path := by
  obtain ⟨n, hlive⟩ := h.live
  refine { h with
    live := ⟨n, hlive.le, hlive.order, hlive.entries, hlive.gone⟩, distinct := ?_, made := ?_ }
  . show ((s.submissions.drop s.former).map Submission.runId ++ (s.taken ++ [_])).Nodup
    rw [← append_assoc, nodup_append]
    refine ⟨h.distinct, nodup_cons.mpr ⟨not_mem_nil, nodup_nil⟩, ?_⟩
    rintro id hid _ hmem rfl
    rw [mem_singleton] at hmem
    obtain ⟨k, hk, hid'⟩ := h.made id hid
    rw [hid'] at hmem
    have heq : k = s.runCounter := Nat.repr_injective (String.append_right_inj _ |>.mp hmem)
    omega
  . intro id hid
    have hid' : id ∈ (s.submissions.drop s.former).map Submission.runId ++ s.taken
        ++ ["run_" ++ toString s.runCounter] := by
      rw [append_assoc]
      exact hid
    cases mem_append.mp hid' with
    | inl hold =>
      obtain ⟨k, hk, heq⟩ := h.made id hold
      exact ⟨k, Nat.lt_succ_of_lt hk, heq⟩
    | inr hnew => exact ⟨s.runCounter, Nat.lt_succ_self _, mem_singleton.mp hnew⟩

theorem Live.insert (hqueued : s.runs.Queued) {n : Nat} (h : s.Live bounds n) {runId : String}
    (hunused : runId ∉ (s.runs.evict bounds s.clockMs true).order) (tenant : String) {t : RunServer}
    (hruns : t.runs = s.runs.put bounds s.clockMs runId ⟨tenant, .running⟩) (hclock : t.clockMs = s.clockMs)
    (hsubmissions : t.submissions = s.submissions ++ [⟨runId, ⟨tenant, .running⟩, s.clockMs⟩])
    : t.runs.Queued ∧ ∃ m, t.Live bounds m := by
  obtain ⟨m, hevicted⟩ : ∃ m, Aging.Evicted bounds s.clockMs true s.runs (s.runs.evict bounds s.clockMs true) m :=
    hqueued.evict true
  have horder : (s.runs.evict bounds s.clockMs true).order = (s.submissions.drop (n + m)).map (·.runId) := by
    rw [hevicted.order, h.order, ← map_drop, drop_drop]
  have hle : n + m ≤ s.submissions.length := by
    have hm := hevicted.le
    rw [h.order, length_map, length_drop] at hm
    have hn := h.le
    omega
  have hdrop : t.submissions.drop (n + m)
      = s.submissions.drop (n + m) ++ [⟨runId, ⟨tenant, .running⟩, s.clockMs⟩] := by
    rw [hsubmissions, drop_append_of_le_length hle]
  refine ⟨hruns ▸ hevicted.queued.push hunused _, n + m, ?_, ?_, ?_, ?_⟩
  . rw [hsubmissions, length_append]
    exact Nat.le_add_right_of_le hle
  . rw [hdrop, map_append, ← horder, hruns]
    rfl
  . intro run hrun
    rw [hdrop] at hrun
    rw [hruns]
    unfold Aging.put
    dsimp only
    rw [Map.getElem?_insert]
    cases mem_append.mp hrun with
    | inr hnew =>
      rw [mem_singleton.mp hnew, if_pos rfl]
    | inl hold =>
      have hmem : run.runId ∈ (s.runs.evict bounds s.clockMs true).order := by
        rw [horder]
        exact mem_map_of_mem hold
      rw [if_neg, hevicted.kept _ hmem]
      . apply h.entries
        rw [← drop_drop] at hold
        exact mem_of_mem_drop hold
      . rintro rfl
        exact hunused hmem
  . intro i run hi hrun
    rw [hsubmissions, getElem?_append_left (by omega)] at hrun
    rw [hsubmissions, length_append, length_singleton, hclock]
    by_cases hold : i < n
    . cases h.gone i run hold hrun with
      | inl hmany => exact .inl (by omega)
      | inr hexpired => exact .inr hexpired
    . have hlive : run ∈ s.submissions.drop n := by
        apply mem_of_getElem? (i := i - n)
        rw [getElem?_drop, Nat.add_sub_cancel' (Nat.le_of_not_lt hold)]
        exact hrun
      have hkey : s.runs.order[i - n]? = some run.runId := by
        rw [h.order, getElem?_map, getElem?_drop, Nat.add_sub_cancel' (Nat.le_of_not_lt hold), hrun]
        rfl
      cases hevicted.reason (i - n) run.runId (by omega) hkey with
      | inl hexpired =>
        unfold Aging.expired at hexpired
        rw [h.entries run hlive, Option.all_some, decide_eq_true_eq] at hexpired
        exact .inr hexpired
      | inr hroom =>
        have hmany := hroom.2
        rw [h.order, length_map, length_drop] at hmany
        exact .inl (by omega)

theorem Sound.insertRunning (h : s.Sound bounds path) (i : Nat) (tenant : String)
    (hunused : s.Unused bounds path (.insertRunning i tenant))
    : (s.step bounds path (.insertRunning i tenant)).Sound bounds path := by
  unfold step
  dsimp only
  cases htaken : s.taken[i]? with
  | none => exact h
  | some runId =>
    obtain ⟨n, hlive⟩ := h.live
    dsimp only
    have hinserted := Live.insert h.queued hlive (hunused runId htaken) tenant
      (t := s.step bounds path (.insertRunning i tenant))
    unfold step at hinserted
    dsimp only at hinserted
    rw [htaken] at hinserted
    obtain ⟨hqueued, hlive'⟩ := hinserted rfl rfl rfl
    have hperm : (((s.submissions ++ [(⟨runId, ⟨tenant, .running⟩, s.clockMs⟩ : Submission)]).drop s.former).map
          (·.runId) ++ s.taken.eraseIdx i).Perm ((s.submissions.drop s.former).map (·.runId) ++ s.taken) := by
      rw [drop_append_of_le_length h.former, map_append, append_assoc]
      apply List.Perm.append_left
      obtain ⟨hi, hid⟩ := List.getElem?_eq_some_iff.mp htaken
      rw [← hid]
      exact getElem_cons_eraseIdx_perm hi
    refine ⟨hqueued, ?_, hlive', ?_, hperm.nodup_iff.mpr h.distinct, ?_, ?_⟩
    . intro hpath
      exact if_pos hpath
    . rw [length_append]
      exact Nat.le_add_right_of_le h.former
    . intro id hid
      exact h.made id (hperm.mem_iff.mp hid)
    . intro j run hrun hrunning
      dsimp only at hrun ⊢
      by_cases hj : j < s.submissions.length
      . rw [getElem?_append_left hj] at hrun
        exact h.running j run hrun hrunning
      . exact h.former.trans (Nat.le_of_not_lt hj)

theorem index_of_id {n i j : Nat} {run run' : Submission}
    (hnodup : ((s.submissions.drop n).map (·.runId)).Nodup) (hrun : s.submissions[i]? = some run)
    (hrun' : s.submissions[j]? = some run') (hi : n ≤ i) (hj : n ≤ j) (hid : run.runId = run'.runId) : i = j := by
  have hget {k : Nat} {r : Submission} (hk : n ≤ k) (hr : s.submissions[k]? = some r)
      : ((s.submissions.drop n).map (·.runId))[k - n]? = some r.runId := by
    rw [getElem?_map, getElem?_drop, Nat.add_sub_cancel' hk, hr]
    rfl
  have hi' := hget hi hrun
  have hj' := hget hj hrun'
  rw [← hid] at hj'
  obtain ⟨hlt, -⟩ := List.getElem?_eq_some_iff.mp hi'
  have heq := (getElem?_inj hlt hnodup).mp (hi'.trans hj'.symm)
  omega

theorem Sound.own (h : s.Sound bounds path) {i j : Nat} {run run' : Submission} (hrun : s.submissions[i]? = some run)
    (hrun' : s.submissions[j]? = some run') (hi : s.former ≤ i) (hj : s.former ≤ j) (hid : run.runId = run'.runId)
    : i = j :=
  index_of_id (nodup_append.mp h.distinct).1 hrun hrun' hi hj hid

theorem Live.distinct {n : Nat} (h : s.Live bounds n) (hqueued : s.runs.Queued) {i j : Nat} {run run' : Submission}
    (hrun : s.submissions[i]? = some run) (hrun' : s.submissions[j]? = some run') (hi : n ≤ i) (hj : n ≤ j)
    (hid : run.runId = run'.runId) : i = j :=
  index_of_id (h.order ▸ hqueued.nodup) hrun hrun' hi hj hid

theorem getElem?_of_set {i j : Nat} {run run' r : Submission} (hrun : s.submissions[i]? = some run)
    (h : (s.submissions.set i run')[j]? = some r) : (j = i ∧ r = run') ∨ (j ≠ i ∧ s.submissions[j]? = some r) := by
  rw [getElem?_set] at h
  split at h
  . next heq =>
    obtain ⟨hlt, -⟩ := List.getElem?_eq_some_iff.mp hrun
    rw [if_pos hlt] at h
    exact .inl ⟨heq.symm, (Option.some.inj h).symm⟩
  . next hne => exact .inr ⟨fun heq => hne heq.symm, h⟩

theorem Sound.live_finish (h : s.Sound bounds path) {i n : Nat} {run : Submission} (hlive : s.Live bounds n)
    (hrun : s.submissions[i]? = some run) (hi : s.former ≤ i) (status : AsyncRunStatus)
    : Aging.Queued (RunStore.finish run.runId status s.runs)
        ∧ Live bounds { s with
          runs := RunStore.finish run.runId status s.runs
          submissions := s.submissions.set i { run with record := { run.record with status } } } n := by
  have hids : (s.submissions.set i { run with record := { run.record with status } }).map (·.runId)
      = s.submissions.map (·.runId) :=
    Tasks.map_set hrun rfl
  have horder : (RunStore.finish run.runId status s.runs).order = s.runs.order := by
    unfold RunStore.finish
    split <;> rfl
  have hgone : ∀ (j : Nat) (r : Submission), j < n →
      (s.submissions.set i { run with record := { run.record with status } })[j]? = some r →
      bounds.maxEntries ≤ s.submissions.length - 1 - j ∨ bounds.ttl < s.clockMs - r.insertedAtMs := by
    intro j r hj hr
    rcases getElem?_of_set hrun hr with ⟨rfl, rfl⟩ | ⟨-, hold⟩
    . exact hlive.gone j run hj hrun
    . exact hlive.gone j r hj hold
  have hentries (key : String) : (RunStore.finish run.runId status s.runs).entries[key]?
      = if run.runId = key then (s.runs.entries[key]?).map fun e => ({ e.1 with status }, e.2)
        else s.runs.entries[key]? := by
    unfold RunStore.finish
    split
    . next hnone =>
      split
      . next heq =>
        rw [← heq, hnone]
        rfl
      . rfl
    . next record insertedAt hsome =>
      dsimp only
      rw [Map.getElem?_insert]
      split
      . next heq =>
        rw [← heq, hsome]
        rfl
      . rfl
  refine ⟨⟨horder ▸ h.queued.nodup, ?_⟩, ?_, ?_, ?_, ?_⟩
  . intro key
    rw [horder, ← h.queued.keyed key, hentries key]
    split
    . rw [Option.isSome_map]
    . rfl
  . dsimp only
    rw [length_set]
    exact hlive.le
  . dsimp only
    rw [horder, hlive.order, map_drop, map_drop, hids]
  . intro r hr
    dsimp only at hr ⊢
    obtain ⟨j, hj⟩ := getElem?_of_mem hr
    rw [getElem?_drop] at hj
    have hold {r' : Submission} (hr' : s.submissions[n + j]? = some r')
        : s.runs.entries[r'.runId]? = some (r'.record, r'.insertedAtMs) := by
      apply hlive.entries
      apply mem_of_getElem? (i := j)
      rw [getElem?_drop]
      exact hr'
    rw [hentries]
    rcases getElem?_of_set hrun hj with ⟨heq, rfl⟩ | ⟨hne, hr'⟩
    . have hfound := hold (heq ▸ hrun)
      dsimp only
      rw [if_pos rfl, hfound]
      rfl
    . rw [if_neg, hold hr']
      intro hid
      by_cases hin : n ≤ i
      . exact hne (hlive.distinct h.queued hr' hrun (Nat.le_add_right n j) hin hid.symm)
      . exact hne (h.own hrun hr' hi (by omega) hid).symm
  . dsimp only
    rw [length_set]
    exact hgone

theorem Sound.finish (h : s.Sound bounds path) (i : Nat) (outcome : Except Error RunOutput)
    : (s.step bounds path (.finish i outcome)).Sound bounds path := by
  unfold step
  dsimp only
  cases hrun : s.submissions[i]? with
  | none => exact h
  | some run =>
    dsimp only
    split
    . next hrunning =>
      obtain ⟨n, hlive⟩ := h.live
      have hi := h.running i run hrun hrunning
      obtain ⟨hqueued, hlive'⟩ := h.live_finish hlive hrun hi (outcomeStatus outcome)
      have hids : (s.submissions.set i { run with record := { run.record with status := outcomeStatus outcome } }).map
          (·.runId) = s.submissions.map (·.runId) :=
        Tasks.map_set hrun rfl
      have hown : ((s.submissions.set i { run with record := { run.record with status := outcomeStatus outcome } }).drop
          s.former).map (·.runId) = (s.submissions.drop s.former).map (·.runId) := by
        rw [map_drop, map_drop, hids]
      refine ⟨hqueued, ?_, ⟨n, hlive'.le, hlive'.order, hlive'.entries, hlive'.gone⟩, ?_, ?_, ?_, ?_⟩
      . intro hpath
        dsimp only
        rw [hpath, Bool.true_and]
        cases hfound : s.runs.entries[run.runId]? with
        | some e => rfl
        | none =>
          have hsame : RunStore.finish run.runId (outcomeStatus outcome) s.runs = s.runs := by
            unfold RunStore.finish
            rw [hfound]
          rw [hsame]
          exact h.file hpath
      . dsimp only
        rw [length_set]
        exact h.former
      . dsimp only
        rw [hown]
        exact h.distinct
      . dsimp only
        rw [hown]
        exact h.made
      . intro j r hr hrunning'
        dsimp only at hr ⊢
        rcases getElem?_of_set hrun hr with ⟨rfl, -⟩ | ⟨-, hold⟩
        . exact hi
        . exact h.running j r hold hrunning'
    . exact h

theorem Live.records {n : Nat} (h : s.Live bounds n)
    : RunStore.records s.runs = (s.submissions.drop n).map fun run => ⟨run.runId, run.record, run.insertedAtMs⟩ := by
  unfold RunStore.records
  rw [h.order]
  have hentries := h.entries
  generalize s.submissions.drop n = live at hentries
  induction live with
  | nil => rfl
  | cons run live ih =>
    obtain ⟨hrun, hlive⟩ := forall_mem_cons.mp hentries
    rw [map_cons, filterMap_cons, hrun, Option.map_some, map_cons, ← ih hlive]

structure Loaded (runs : Aging RunRecord) (rs : List StoredRun) (loaded : Aging RunRecord) : Prop where
  queued : loaded.Queued
  order : loaded.order = runs.order ++ rs.map (·.runId)
  old : ∀ runId ∈ runs.order, loaded.entries[runId]? = runs.entries[runId]?
  new : ∀ r ∈ rs, loaded.entries[r.runId]? = some (reconcile r.record, r.insertedAtMs)

theorem loaded {rs : List StoredRun} {runs : Aging RunRecord} (hqueued : runs.Queued)
    (hnew : (runs.order ++ rs.map (·.runId)).Nodup) : Loaded runs rs (rs.foldl loadRecord runs) := by
  induction rs generalizing runs with
  | nil => exact ⟨hqueued, (append_nil _).symm, fun _ _ => rfl, nofun⟩
  | cons r rs ih =>
    rw [map_cons, append_cons] at hnew
    have hr : r.runId ∉ runs.order := by
      intro hmem
      have hdistinct := (nodup_append.mp (nodup_append.mp hnew).1).2.2
      exact hdistinct r.runId hmem r.runId (mem_singleton_self _) rfl
    have hnext : (loadRecord runs r).Queued := hqueued.push hr (reconcile r.record)
    have hrest := ih hnext hnew
    have hlast : r.runId ∈ (loadRecord runs r).order :=
      mem_append_right _ (mem_singleton_self _)
    refine ⟨hrest.queued, ?_, ?_, ?_⟩
    . rw [foldl_cons, hrest.order, map_cons, append_cons]
      rfl
    . intro runId hmem
      rw [foldl_cons, hrest.old runId (mem_append_left _ hmem)]
      unfold loadRecord
      dsimp only
      rw [Map.getElem?_insert, if_neg]
      rintro rfl
      exact hr hmem
    . intro r' hr'
      rw [foldl_cons]
      cases mem_cons.mp hr' with
      | inl heq =>
        rw [heq, hrest.old r.runId hlast]
        unfold loadRecord
        dsimp only
        rw [Map.getElem?_insert, if_pos rfl]
      | inr hmem => exact hrest.new r' hmem

theorem not_isRunning_reconcile (record : RunRecord)
    : isRunning (reconcile record).status = false := by
  unfold reconcile
  split
  . rfl
  . next hnot => exact Bool.eq_false_iff.mpr hnot

theorem reconcile_of_not_running {record : RunRecord} (h : isRunning record.status = false)
    : reconcile record = record := by
  unfold reconcile
  rw [if_neg]
  rw [h]
  exact Bool.false_ne_true

theorem Sound.restart (h : s.Sound bounds true) : (s.step bounds true .restart).Sound bounds true := by
  obtain ⟨n, hlive⟩ := h.live
  have hfile : s.file = (s.submissions.drop n).map fun run => ⟨run.runId, run.record, run.insertedAtMs⟩ := by
    rw [h.file rfl, hlive.records]
  have hids : s.file.map (·.runId) = (s.submissions.drop n).map (·.runId) := by
    rw [hfile, map_map]
    rfl
  have hloaded : Loaded {} s.file (load s.file) := by
    apply loaded Aging.queued_empty
    rw [nil_append, hids, ← hlive.order]
    exact h.queued.nodup
  have hlive' : Live bounds (s.step bounds true .restart) n := by
    refine ⟨?_, ?_, ?_, ?_⟩
    . show n ≤ (s.submissions.map _).length
      rw [length_map]
      exact hlive.le
    . show (load s.file).order = ((s.submissions.map _).drop n).map _
      rw [hloaded.order, nil_append, hids, ← map_drop, map_map]
      rfl
    . intro run hrun
      change run ∈ (s.submissions.map _).drop n at hrun
      rw [← map_drop] at hrun
      obtain ⟨run', hrun', rfl⟩ := mem_map.mp hrun
      apply hloaded.new ⟨run'.runId, run'.record, run'.insertedAtMs⟩
      rw [hfile]
      exact mem_map_of_mem hrun'
    . intro i run hi hrun
      change (s.submissions.map _)[i]? = some run at hrun
      rw [getElem?_map] at hrun
      obtain ⟨run', hrun', rfl⟩ := Option.map_eq_some_iff.mp hrun
      show bounds.maxEntries ≤ (s.submissions.map _).length - 1 - i ∨ _
      rw [length_map]
      exact hlive.gone i run' hi hrun'
  refine ⟨hloaded.queued, ?_, ⟨n, hlive'⟩, ?_, ?_, ?_, ?_⟩
  . intro _
    show (if _ then RunStore.records (load s.file) else s.file) = RunStore.records (load s.file)
    split
    . rfl
    . next hnone =>
      rw [Bool.true_and, any_eq_true, not_exists] at hnone
      have hrecords : RunStore.records (load s.file) = _ := hlive'.records
      rw [hrecords, hfile]
      show _ = ((s.submissions.map _).drop n).map _
      rw [← map_drop, map_map]
      apply map_congr_left
      intro run hrun
      have hmem : (⟨run.runId, run.record, run.insertedAtMs⟩ : StoredRun) ∈ s.file := by
        rw [hfile]
        exact mem_map_of_mem hrun
      have hstopped : isRunning run.record.status = false := by
        rw [Bool.eq_false_iff]
        exact fun hrunning => hnone _ ⟨hmem, hrunning⟩
      simp only [Function.comp_apply, reconcile_of_not_running hstopped]
  . show s.submissions.length ≤ (s.submissions.map _).length
    rw [length_map]
  . show (((s.submissions.map _).drop s.submissions.length).map _ ++ []).Nodup
    rw [append_nil, drop_eq_nil_of_le (by rw [length_map])]
    exact nodup_nil
  . intro id hid
    change id ∈ ((s.submissions.map _).drop s.submissions.length).map _ ++ [] at hid
    rw [append_nil, drop_eq_nil_of_le (by rw [length_map])] at hid
    cases hid
  . intro i run hrun hrunning
    change (s.submissions.map _)[i]? = some run at hrun
    rw [getElem?_map] at hrun
    obtain ⟨run', -, rfl⟩ := Option.map_eq_some_iff.mp hrun
    dsimp only at hrunning
    rw [not_isRunning_reconcile] at hrunning
    cases hrunning

theorem Sound.step (h : s.Sound bounds path) {move : RunMove} (hunused : s.Unused bounds path move)
    : (s.step bounds path move).Sound bounds path := by
  cases move with
  | takeId => exact h.takeId
  | insertRunning i tenant => exact h.insertRunning i tenant hunused
  | finish i outcome => exact h.finish i outcome
  | tick ms => exact h.tick ms
  | restart =>
    obtain rfl : path = true := hunused
    exact h.restart

end

def usual : Aging.Bounds := ⟨3600000, 10000⟩

def afterMoves (moves : List RunMove) : RunServer :=
  moves.foldl (RunServer.step usual true) {}

end Wovyr.Server.Agents.RunServer
