import Wovyr.Workflow.Course.Forward

/-!
This module contains what the answers of the executor make of an activity that is retried, whether it is
run by itself or in a batch, over any number of drives.
-/

namespace Wovyr

open Durable List Quiet

namespace Workflow.Reply

def isRetryable : Reply → Bool
  | .error (.retryable _) => true
  | _ => false

def isInterrupted : Reply → Bool
  | .error (.interrupted _) => true
  | _ => false

end Reply

def retries (replies : List Reply) : Nat :=
  replies.countP Reply.isRetryable

/--
How a drive takes the answers, from a number of attempts to a state and a number of attempts. What is
`kept` of the attempts when the activity is interrupted is up to the way it is run, as is what becomes
of an output.
-/
inductive Attempts (verdict : Value → ActivityState) (kept : Nat → Nat) (limit : Nat)
    : Nat → List Reply → ActivityState → Nat → Prop where
  | output (n : Nat) (v : Value) : Attempts verdict kept limit n [.output v] (verdict v) (n + 1)
  | permanent (n : Nat) (msg : String)
    : Attempts verdict kept limit n [.error (.permanent msg)] .failed (n + 1)
  | interrupted (n : Nat) (msg : String)
    : Attempts verdict kept limit n [.error (.interrupted msg)] .ready (kept n)
  | exhausted {n : Nat} (msg : String) (h : limit ≤ n + 1)
    : Attempts verdict kept limit n [.error (.retryable msg)] .failed (n + 1)
  | retry {n k : Nat} {replies : List Reply} {state : ActivityState} (msg : String) (h : n + 1 < limit)
    (hrest : Attempts verdict kept limit (n + 1) replies state k)
    : Attempts verdict kept limit n (.error (.retryable msg) :: replies) state k

-- An output over the cap is a failure of an activity that is run by itself.
def Engine.verdict {ω : Type} (e : Engine ω) (id : String) (output : Value) : ActivityState :=
  match e.checkOutputSize id output with
  | some _ => .failed
  | none => .completed

def Reply.fate (verdict : Value → ActivityState) : Reply → ActivityState
  | .output v => verdict v
  | _ => .failed

theorem retries_append (replies replies' : List Reply)
    : retries (replies ++ replies') = retries replies + retries replies' :=
  countP_append

theorem retries_retryable (msg : String) (replies : List Reply)
    : retries (.error (.retryable msg) :: replies) = retries replies + 1 :=
  countP_cons_of_pos rfl

/--
The answers of a drive up to the last one, which ends it.
-/
structure Ended (verdict : Value → ActivityState) (kept : Nat → Nat) (limit n : Nat) (before : List Reply)
    (last : Reply) (state : ActivityState) (k : Nat) : Prop where
  interrupted : last.isInterrupted = true → state = .ready ∧ k = kept (n + retries before)
  settled : last.isInterrupted = false → state = last.fate verdict ∧ k = n + retries before + 1
  below : n < limit → last.isInterrupted = true → n + retries before < limit
  within : n < limit → n + retries (before ++ [last]) ≤ limit

theorem Attempts.ended {verdict : Value → ActivityState} {kept : Nat → Nat} {limit n k : Nat}
    {replies : List Reply} {state : ActivityState} (h : Attempts verdict kept limit n replies state k)
    : ∃ before last, replies = before ++ [last] ∧ Ended verdict kept limit n before last state k := by
  induction h with
  | output n v =>
    exact ⟨[], _, rfl, nofun, fun _ => ⟨rfl, rfl⟩, nofun, fun h => Nat.le_of_lt h⟩
  | permanent n msg =>
    exact ⟨[], _, rfl, nofun, fun _ => ⟨rfl, rfl⟩, nofun, fun h => Nat.le_of_lt h⟩
  | interrupted n msg =>
    exact ⟨[], _, rfl, fun _ => ⟨rfl, rfl⟩, nofun, fun h _ => h, fun h => Nat.le_of_lt h⟩
  | exhausted msg h =>
    exact ⟨[], _, rfl, nofun, fun _ => ⟨rfl, rfl⟩, nofun, fun h => h⟩
  | @retry n k replies state msg h hrest ih =>
    obtain ⟨before, last, rfl, hended⟩ := ih
    have hcount (replies : List Reply)
        : n + retries (.error (.retryable msg) :: replies) = n + 1 + retries replies := by
      rw [retries_retryable]
      omega
    refine ⟨.error (.retryable msg) :: before, last, rfl, ?_, ?_, ?_, ?_⟩
    . rw [hcount]
      exact hended.interrupted
    . rw [hcount]
      exact hended.settled
    . rw [hcount]
      exact fun _ => hended.below h
    . rw [cons_append, hcount]
      exact fun _ => hended.within h

def repliesTo (id : String) (calls : List Call) : List Reply :=
  (calls.filter fun call => call.context.id == id).map (·.reply)

theorem repliesTo_cons (id : String) (call : Call) (calls : List Call)
    : repliesTo id (call :: calls)
        = if call.context.id = id then call.reply :: repliesTo id calls else repliesTo id calls := by
  unfold repliesTo
  rw [filter_cons]
  by_cases h : call.context.id = id
  . simp [h]
  . simp [h]

section

variable {ω : Type} {e : Engine ω} {d : Definition} {a : ActivityDef} {s t : ExecutionState}

open Calls

def Recorded (t : ExecutionState) (id : String) (state : ActivityState) (attempts : Nat) : Prop :=
  ∃ r, t.activity? id = some r ∧ r.state = state ∧ r.attempts = attempts

theorem terminalActivityFailure_quiet {id : String} {record : ActivityRecord}
    (hrecord : s.activity? id = some record) (attempt : Nat) (msg : String)
    : World.durable.Quiet (e.terminalActivityFailure s id attempt msg) fun r =>
        Recorded r.1 id .failed attempt ∧ ∃ msg', r.2 = .failed msg' := by
  unfold Engine.terminalActivityFailure
  apply recordOf_logs hrecord
  apply bind (emit_logs _)
  rintro t rfl
  apply bind checkpoint_logs
  intro _ _
  apply Quiet.pure
  exact ⟨⟨_, ExecutionState.activity?_setRecord_self s id _, rfl, rfl⟩, _, rfl⟩

theorem completeActivity_quiet (id : String) (record : ActivityRecord) (output : Value)
    : World.durable.Quiet (e.completeActivity s id record output) fun r =>
        ∃ version, r = ({ s.complete id record output with version }, .completed) := by
  unfold Engine.completeActivity
  apply bind (emit_logs _)
  rintro t rfl
  apply bind checkpoint_logs
  exact fun _ _ => Quiet.pure _ ⟨_, rfl⟩

theorem runAttempts_logs (policy : RetryPolicy) (gas : Nat) {record : ActivityRecord}
    (hrecord : s.activity? a.id = some record)
    : World.durable.Logs (e.runAttempts a policy gas s) fun o new => ∀ r, o = .ok r →
        ∃ state k, Recorded r.1 a.id state k
          ∧ Attempts (e.verdict a.id) (fun n => n) policy.maxAttempts record.attempts (repliesTo a.id new) state k := by
  induction gas generalizing s record with
  | zero => exact .halt nofun
  | succ gas ih =>
    unfold Engine.runAttempts
    apply recordOf_logs hrecord
    dsimp only
    rw [ExecutionState.setActivity_eq hrecord]
    apply first (emit_logs _)
    rintro t rfl
    apply Logs.bind (callExecutor_logs s.executionId false _)
      (P := fun reaction o new => ∀ r, o = .ok r → ∃ state k, Recorded r.1 a.id state k
        ∧ Attempts (e.verdict a.id) (fun n => n) policy.maxAttempts record.attempts
          (reaction.2 :: repliesTo a.id new) state k)
    . rintro ⟨progress, reply⟩
      dsimp only
      apply first (emitAll_logs _)
      intro u hu
      have hrunning : u.activity? a.id = some { record with state := .running } := by
        obtain ⟨version, rfl⟩ := hu
        exact ExecutionState.activity?_setRecord_self s a.id _
      apply recordOf_logs hrunning
      cases reply with
      | panic reason => exact .halt nofun
      | output v =>
        have houtput := @Attempts.output (e.verdict a.id) (fun n => n) policy.maxAttempts record.attempts v
        dsimp only
        split
        next msg hsize =>
          apply logs (terminalActivityFailure_quiet hrunning _ _)
          intro r hr
          have hverdict : e.verdict a.id v = .failed := by
            unfold Engine.verdict
            rw [hsize]
          exact ⟨.failed, _, hr.1, hverdict ▸ houtput⟩
        next hsize =>
          apply logs (completeActivity_quiet _ _ _)
          rintro r ⟨version, rfl⟩
          have hverdict : e.verdict a.id v = .completed := by
            unfold Engine.verdict
            rw [hsize]
          have hcompleted := (ExecutionState.activity?_complete u a.id a.id
            { record with attempts := record.attempts + 1 } v).trans (if_pos rfl)
          exact ⟨.completed, record.attempts + 1, ⟨_, hcompleted, rfl, rfl⟩, hverdict ▸ houtput⟩
      | error err =>
        cases err with
        | permanent msg =>
          apply logs (terminalActivityFailure_quiet hrunning _ _)
          exact fun r hr => ⟨.failed, _, hr.1, .permanent _ msg⟩
        | interrupted msg =>
          dsimp only
          apply first checkpoint_logs
          intro _ _
          apply logs (p := fun r => Recorded r.1 a.id .ready record.attempts)
          . apply Quiet.pure
            rw [ExecutionState.setActivity_eq hrunning]
            exact ⟨_, ExecutionState.activity?_setRecord_self u a.id _, rfl, rfl⟩
          . exact fun r hr => ⟨.ready, _, hr, .interrupted _ msg⟩
        | retryable msg =>
          dsimp only
          split
          next hlimit =>
            apply logs (terminalActivityFailure_quiet hrunning _ _)
            exact fun r hr => ⟨.failed, _, hr.1, .exhausted msg hlimit⟩
          next hlimit =>
            apply first (emit_logs _)
            rintro t rfl
            apply first checkpoint_logs
            intro _ _
            refine Logs.post (ih (ExecutionState.activity?_setRecord_self _ a.id _)) ?_
            intro o new h r hr
            obtain ⟨state, k, hrecorded, hattempts⟩ := h r hr
            exact ⟨state, k, hrecorded, .retry msg (by omega) hattempts⟩
    . rintro reaction new o new' ⟨reaction', hreaction, rfl⟩ h
      cases hreaction
      rw [singleton_append, repliesTo_cons]
      split
      next => exact h
      next hne => exact absurd rfl hne
    . rintro err new ⟨reaction, hreaction, -⟩
      cases hreaction
    . rintro new ⟨reaction, hreaction, -⟩
      cases hreaction

end

namespace IsolatedOutcome

def state (outcome : IsolatedOutcome) : ActivityState :=
  match outcome.result with
  | .completed _ => .completed
  | .failed _ => .failed
  | .interrupted _ => .ready

def kept (outcome : IsolatedOutcome) (n : Nat) : Nat :=
  match outcome.result with
  | .interrupted _ => n
  | _ => outcome.attempts

end IsolatedOutcome

def Comes (slot : Task ⊕ IsolatedOutcome) (replies : List Reply) (outcome : IsolatedOutcome) : Prop :=
  match slot with
  | .inl task => ∀ n, Attempts (fun _ => .completed) (fun _ => n) task.policy.maxAttempts task.attempt
      replies outcome.state (outcome.kept n)
  | .inr outcome' => replies = [] ∧ outcome = outcome'

section

variable {ω : Type} {e : Engine ω} {d : Definition} {a : ActivityDef} {s t : ExecutionState}

open Calls

theorem comes_settle {task : Task} {reply : Reply} {kind : String} {slot : Task ⊕ IsolatedOutcome}
    (h : e.settle task (task.attempt + 1) reply kind = .ok slot)
    : slotId slot = task.activity.id
        ∧ ∀ replies outcome, Comes slot replies outcome → Comes (.inl task) (reply :: replies) outcome := by
  unfold Engine.settle at h
  cases reply with
  | panic reason => cases h
  | output v =>
    cases h
    refine ⟨rfl, ?_⟩
    rintro replies outcome ⟨rfl, rfl⟩
    exact fun n => @Attempts.output (fun _ => .completed) _ _ _ v
  | error err =>
    cases err with
    | permanent msg =>
      cases h
      refine ⟨rfl, ?_⟩
      rintro replies outcome ⟨rfl, rfl⟩
      exact fun n => .permanent _ msg
    | interrupted msg =>
      cases h
      refine ⟨rfl, ?_⟩
      rintro replies outcome ⟨rfl, rfl⟩
      exact fun n => @Attempts.interrupted _ (fun _ => n) _ _ msg
    | retryable msg =>
      dsimp only at h
      split at h
      next hlimit =>
        cases h
        refine ⟨rfl, ?_⟩
        rintro replies outcome ⟨rfl, rfl⟩
        exact fun n => .exhausted msg hlimit
      next hlimit =>
        cases h
        refine ⟨rfl, ?_⟩
        intro replies outcome hcomes n
        exact .retry msg (by omega) (hcomes n)

theorem advance_logs (executionId kind : String) (task : Task)
    : World.durable.Logs (e.advance executionId kind task) fun o new => ∀ slot, o = .ok slot →
        ∃ reply, new = [⟨executionId, false, task.activity.context task.vars (task.attempt + 1), reply⟩]
          ∧ e.settle task (task.attempt + 1) reply kind = .ok slot := by
  unfold Engine.advance
  apply Logs.bind (callExecutor_logs executionId false _)
    (P := fun reaction o new => new = []
      ∧ ∀ slot, o = .ok slot → e.settle task (task.attempt + 1) reaction.2 kind = .ok slot)
  . rintro ⟨progress, reply⟩
    dsimp only
    cases hsettle : e.settle task (task.attempt + 1) reply kind with
    | error err => exact .fail err ⟨rfl, nofun⟩
    | ok slot =>
      apply Logs.pure
      refine ⟨rfl, ?_⟩
      intro slot' h
      cases h
      rfl
  . rintro reaction new o new' ⟨reaction', hreaction, rfl⟩ ⟨rfl, h⟩ slot hslot
    cases hreaction
    exact ⟨_, rfl, h slot hslot⟩
  . exact fun _ _ _ => nofun
  . exact fun _ _ => nofun

theorem outcomes_of_settled {slots : List (Task ⊕ IsolatedOutcome)}
    (h : ∀ slot ∈ slots, slot.getLeft? = none)
    : (slots.filterMap Sum.getRight?).map (·.id) = slots.map slotId
        ∧ ∀ slot ∈ slots, ∃ outcome ∈ slots.filterMap Sum.getRight?, outcome.id = slotId slot
          ∧ Comes slot [] outcome := by
  induction slots with
  | nil => exact ⟨rfl, nofun⟩
  | cons slot slots ih =>
    obtain ⟨hids, houtcomes⟩ := ih fun slot' h' => h slot' (mem_cons_of_mem _ h')
    cases slot with
    | inl task => cases h _ mem_cons_self
    | inr outcome =>
      have hcons : (Sum.inr outcome :: slots).filterMap Sum.getRight?
          = outcome :: slots.filterMap Sum.getRight? := filterMap_cons_some rfl
      rw [hcons]
      refine ⟨congrArg (outcome.id :: ·) hids, ?_⟩
      intro slot' hslot'
      cases mem_cons.mp hslot' with
      | inl heq =>
        subst heq
        exact ⟨outcome, mem_cons_self, rfl, rfl, rfl⟩
      | inr hmem =>
        obtain ⟨outcome', hmem', hcomes⟩ := houtcomes slot' hmem
        exact ⟨outcome', mem_cons_of_mem _ hmem', hcomes⟩

theorem race_logs (executionId : String) (gas : Nat) {slots : List (Task ⊕ IsolatedOutcome)}
    (hnodup : (slots.map slotId).Nodup)
    : World.durable.Logs (e.race executionId gas slots) fun o new => ∀ outcomes, o = .ok outcomes →
        outcomes.map (·.id) = slots.map slotId
          ∧ ∀ slot ∈ slots, ∃ outcome ∈ outcomes, outcome.id = slotId slot
            ∧ Comes slot (repliesTo (slotId slot) new) outcome := by
  induction gas generalizing slots with
  | zero => exact .halt nofun
  | succ gas ih =>
    unfold Engine.race
    dsimp only
    split
    next hnone =>
      apply Logs.pure
      intro outcomes houtcomes
      cases houtcomes
      apply outcomes_of_settled
      intro slot hslot
      obtain ⟨i, hi, rfl⟩ := getElem_of_mem hslot
      have hrunning := filter_eq_nil_iff.mp hnone i (mem_range.mpr hi)
      simpa [getElem?_eq_getElem hi] using hrunning
    next =>
      apply first (pick_logs _)
      intro k _
      split
      next i task hpicked =>
        obtain ⟨j, -, hj⟩ := Option.bind_eq_some_iff.mp hpicked
        obtain ⟨task', htask, heq⟩ := Option.map_eq_some_iff.mp hj
        cases heq
        obtain ⟨slot, hslot, hleft⟩ := Option.bind_eq_some_iff.mp htask
        obtain rfl : slot = .inl task := by
          cases slot with
          | inl task' => cases hleft; rfl
          | inr outcome => cases hleft
        have hids (slot' : Task ⊕ IsolatedOutcome) (hid : slotId slot' = task.activity.id)
            : (slots.set i slot').map slotId = slots.map slotId := map_slotId_set hslot hid
        apply Logs.seq (advance_logs executionId "activity" task)
          (P := fun slot' o new => ∀ outcomes, o = .ok outcomes →
            outcomes.map (·.id) = slots.map slotId
              ∧ ∀ slot ∈ slots.set i slot', ∃ outcome ∈ outcomes, outcome.id = slotId slot
                ∧ Comes slot (repliesTo (slotId slot) new) outcome)
        . intro slot' new hadvanced
          obtain ⟨reply, -, hsettle⟩ := hadvanced slot' rfl
          have hid := hids slot' (comes_settle hsettle).1
          have hrace := @ih (slots.set i slot') (by rw [hid]; exact hnodup)
          rw [hid] at hrace
          exact hrace
        . intro slot' new o new' hadvanced hrace outcomes houtcomes
          obtain ⟨reply, rfl, hsettle⟩ := hadvanced slot' rfl
          obtain ⟨hid, hcomes⟩ := comes_settle hsettle
          obtain ⟨hmap, hall⟩ := hrace outcomes houtcomes
          obtain ⟨hlt, hget⟩ := List.getElem?_eq_some_iff.mp hslot
          refine ⟨hmap, ?_⟩
          intro slot hmem
          rw [singleton_append, repliesTo_cons]
          split
          next heq =>
            -- No other slot has the id of the one that has gone on.
            have hsame : slot = .inl task :=
              inj_on_of_nodup_map hnodup hmem (mem_of_getElem? hslot) heq.symm
            subst hsame
            obtain ⟨outcome, hoc, hocid, hcame⟩ := hall slot' (mem_set hlt _)
            rw [hid] at hocid hcame
            exact ⟨outcome, hoc, hocid, hcomes _ _ hcame⟩
          next hne =>
            apply hall
            obtain ⟨j, hj, rfl⟩ := getElem_of_mem hmem
            have hij : i ≠ j := by
              rintro rfl
              rw [hget] at hne
              exact hne rfl
            rw [← getElem_set_ne hij (by rw [length_set]; exact hj) (a := slot')]
            exact getElem_mem _
        . exact fun _ _ _ => nofun
        . exact fun _ _ => nofun
      next => exact .halt nofun

def Settles (s t : ExecutionState) (id : String) (state : ActivityState) (attempts : Nat) : Prop :=
  Recorded t id state attempts ∧ ∀ id', id ≠ id' → t.activity? id' = s.activity? id'

theorem settles_setRecord (s : ExecutionState) (id : String) (r : ActivityRecord) (version : Nat)
    : Settles s { s.setRecord id r with version } id r.state r.attempts := by
  refine ⟨⟨r, ExecutionState.activity?_setRecord_self s id r, rfl, rfl⟩, ?_⟩
  exact fun id' hne => ExecutionState.activity?_setRecord_of_ne s r hne

theorem commitFailure_quiet {outcome : IsolatedOutcome} {record : ActivityRecord}
    (hrecord : s.activity? outcome.id = some record) (msg : String)
    : World.durable.Quiet (e.commitFailure s outcome msg) fun t => ∃ version, t =
        { s.setRecord outcome.id
            { record with attempts := outcome.attempts, state := .failed, lastError := some msg } with version } := by
  unfold Engine.commitFailure
  apply recordOf_logs hrecord
  apply bind (emit_logs _)
  rintro t rfl
  apply bind checkpoint_logs
  intro _ _
  exact Quiet.pure _ ⟨_, rfl⟩

theorem commitInterrupt_quiet {outcome : IsolatedOutcome} {record : ActivityRecord}
    (hrecord : s.activity? outcome.id = some record)
    : World.durable.Quiet (e.commitInterrupt s outcome) fun t =>
        t = s.setRecord outcome.id { record with state := .ready } := by
  unfold Engine.commitInterrupt
  dsimp only
  apply bind checkpoint_logs
  intro _ _
  exact Quiet.pure _ (ExecutionState.setActivity_eq hrecord _)

theorem commitActivity_quiet {outcome : IsolatedOutcome} {record : ActivityRecord} (v : Engine.Verdicts)
    (hrecord : s.activity? outcome.id = some record)
    : World.durable.Quiet (e.commitActivity s v outcome) fun r =>
        Settles s r.1 outcome.id outcome.state (outcome.kept record.attempts) := by
  unfold Engine.commitActivity
  rw [ExecutionState.setActivity_eq hrecord]
  apply bind (emitAll_logs _)
  intro u hu
  have hrunning : u.activity? outcome.id = some { record with state := .running } := by
    obtain ⟨version, rfl⟩ := hu
    exact ExecutionState.activity?_setRecord_self s outcome.id _
  have hother (t : ExecutionState) (state : ActivityState) (attempts : Nat)
      (h : Settles u t outcome.id state attempts) : Settles s t outcome.id state attempts := by
    obtain ⟨version, rfl⟩ := hu
    refine ⟨h.1, ?_⟩
    intro id' hne
    exact (h.2 id' hne).trans (ExecutionState.activity?_setRecord_of_ne s _ hne)
  cases hresult : outcome.result with
  | completed output =>
    have hstate : outcome.state = .completed ∧ outcome.kept record.attempts = outcome.attempts := by
      simp [IsolatedOutcome.state, IsolatedOutcome.kept, hresult]
    rw [hstate.1, hstate.2]
    dsimp only
    apply recordOf_logs hrunning
    apply bind (completeActivity_quiet _ _ _)
    rintro ⟨t, step⟩ ⟨version, ht⟩
    cases ht
    apply Quiet.pure
    apply hother
    have hcompleted (id : String) := ExecutionState.activity?_complete u outcome.id id
      { record with attempts := outcome.attempts } output
    refine ⟨⟨_, (hcompleted outcome.id).trans (if_pos rfl), rfl, rfl⟩, ?_⟩
    exact fun id' hne => (hcompleted id').trans (if_neg hne)
  | failed msg =>
    have hstate : outcome.state = .failed ∧ outcome.kept record.attempts = outcome.attempts := by
      simp [IsolatedOutcome.state, IsolatedOutcome.kept, hresult]
    rw [hstate.1, hstate.2]
    dsimp only
    apply bind (commitFailure_quiet hrunning msg)
    rintro t ⟨version, rfl⟩
    apply Quiet.pure
    exact hother _ _ _ (settles_setRecord u outcome.id _ version)
  | interrupted msg =>
    have hstate : outcome.state = .ready ∧ outcome.kept record.attempts = record.attempts := by
      simp [IsolatedOutcome.state, IsolatedOutcome.kept, hresult]
    rw [hstate.1, hstate.2]
    dsimp only
    apply bind (commitInterrupt_quiet hrunning)
    rintro t rfl
    apply Quiet.pure
    exact hother _ _ _ (settles_setRecord u outcome.id { record with state := .ready } u.version)

theorem commitActivities_quiet {outcomes : List IsolatedOutcome} (v : Engine.Verdicts)
    (hnodup : (outcomes.map (·.id)).Nodup)
    (hrecorded : ∀ outcome ∈ outcomes, ∃ record, s.activity? outcome.id = some record)
    : World.durable.Quiet (e.commitActivities s v outcomes) fun r =>
        (∀ id, id ∉ outcomes.map (·.id) → r.1.activity? id = s.activity? id)
          ∧ ∀ outcome ∈ outcomes, ∀ record, s.activity? outcome.id = some record →
            Recorded r.1 outcome.id outcome.state (outcome.kept record.attempts) := by
  induction outcomes generalizing s v with
  | nil => exact Quiet.pure _ ⟨fun _ _ => rfl, nofun⟩
  | cons outcome outcomes ih =>
    obtain ⟨hnotMem, hnodup⟩ := nodup_cons.mp hnodup
    obtain ⟨record, hrecord⟩ := hrecorded outcome mem_cons_self
    unfold Engine.commitActivities
    apply bind (commitActivity_quiet v hrecord)
    rintro ⟨t, v'⟩ ⟨hcommitted, hother⟩
    have hsame (outcome' : IsolatedOutcome) (h : outcome' ∈ outcomes)
        : t.activity? outcome'.id = s.activity? outcome'.id := by
      apply hother
      intro heq
      apply hnotMem
      dsimp only
      rw [heq]
      exact mem_map_of_mem h
    apply Logs.post (ih v' hnodup ?_)
    . rintro o new ⟨rfl, h⟩
      refine ⟨rfl, ?_⟩
      intro r hr
      obtain ⟨hkept, hall⟩ := h r hr
      refine ⟨?_, ?_⟩
      . intro id hid
        rw [hkept id fun hmem => hid (mem_cons_of_mem _ hmem)]
        apply hother
        rintro rfl
        exact hid mem_cons_self
      . intro outcome' hmem record' hrecord'
        cases mem_cons.mp hmem with
        | inl heq =>
          subst heq
          cases hrecord.symm.trans hrecord'
          unfold Recorded
          rw [hkept _ hnotMem]
          exact hcommitted
        | inr hmem => exact hall outcome' hmem record' ((hsame outcome' hmem).trans hrecord')
    . intro outcome' h
      rw [hsame outcome' h]
      exact hrecorded outcome' (mem_cons_of_mem _ h)

theorem batchTasks_slot {batch : List String} {slots : List (Task ⊕ IsolatedOutcome)}
    (h : Engine.batchTasks d s batch = some slots) {slot : Task ⊕ IsolatedOutcome} (hslot : slot ∈ slots)
    : ∃ task record, slot = .inl task ∧ s.activity? task.activity.id = some record
        ∧ task.attempt = record.attempts ∧ task.policy = d.retryFor task.activity.id := by
  induction batch generalizing slots with
  | nil =>
    cases h
    cases hslot
  | cons id batch ih =>
    unfold Engine.batchTasks at h
    split at h
    next a record tasks ha hrecord htasks =>
      cases h
      cases mem_cons.mp hslot with
      | inl heq =>
        have hid : a.id = id := Definition.activity_id ha
        refine ⟨_, record, heq, ?_, rfl, ?_⟩
        . dsimp only
          rw [hid]
          exact hrecord
        . dsimp only
          rw [hid]
      | inr hmem => exact ih htasks hmem
    next => cases h

theorem runReadyBatch_logs (hvalid : d.validate e.platform = .ok ()) {batch : List String}
    (hbatch : e.readyBatch d s = some batch) (gas : Nat) {id : String} (hid : id ∈ batch)
    {record : ActivityRecord} (hrecord : s.activity? id = some record)
    : World.durable.Logs (e.runReadyBatch d gas s batch) fun o new => ∀ r, o = .ok r →
        ∃ state k, Recorded r.1 id state k
          ∧ Attempts (fun _ => .completed) (fun _ => record.attempts) (d.retryFor id).maxAttempts
            record.attempts (repliesTo id new) state k := by
  have hrunnable := runnable_of_readyBatch (Definition.sane_of_validate hvalid) hbatch
  unfold Engine.runReadyBatch
  apply first (ofOption _ fun _ h => h)
  intro slots hslots
  obtain ⟨hraced, hids⟩ := raced_start (e := e) hrunnable.1 hrunnable.2 hslots
  apply Logs.seq (race_logs s.executionId gas hraced.nodup)
    (P := fun outcomes o new => new = [] ∧ ∀ r, o = .ok r → ∀ outcome ∈ outcomes,
      ∀ record, s.activity? outcome.id = some record →
        Recorded r.1 outcome.id outcome.state (outcome.kept record.attempts))
  . intro outcomes new hcame
    obtain ⟨houtcomes, -⟩ := hcame outcomes rfl
    apply bind (commitActivities_quiet {} ?_ ?_)
    . rintro ⟨t, v⟩ ⟨-, h⟩
      dsimp only
      split
      next => exact Quiet.pure _ h
      next => exact Quiet.pure _ h
      next => exact Quiet.pure _ h
    . rw [houtcomes]
      exact hraced.nodup
    . intro outcome hmem
      have hslot : outcome.id ∈ slots.map slotId := by
        rw [← houtcomes]
        exact mem_map_of_mem hmem
      obtain ⟨slot, hslot, heq⟩ := mem_map.mp hslot
      obtain ⟨task, record, rfl, hrecord, -⟩ := batchTasks_slot hslots hslot
      exact ⟨record, heq ▸ hrecord⟩
  . rintro outcomes new o new' hcame ⟨rfl, h⟩ r hr
    obtain ⟨slot, hslot, heq⟩ := mem_map.mp (hids ▸ hid : id ∈ slots.map slotId)
    obtain ⟨task, record', rfl, hrecord', hattempt, hpolicy⟩ := batchTasks_slot hslots hslot
    obtain ⟨outcome, hmem, hoc, hcomes⟩ := (hcame outcomes rfl).2 _ hslot
    subst heq
    cases hrecord.symm.trans hrecord'
    have hdone := h r hr outcome hmem record (hoc ▸ hrecord)
    rw [append_nil]
    rw [hoc] at hdone
    have hattempts := hcomes record.attempts
    rw [hattempt, hpolicy] at hattempts
    exact ⟨outcome.state, outcome.kept record.attempts, hdone, hattempts⟩
  . exact fun _ _ _ => nofun
  . exact fun _ _ => nofun

end

structure Visit where
  batched : Bool
  replies : List Reply

namespace Visit

variable {ω : Type} (e : Engine ω) (id : String)

def verdict (v : Visit) : Value → ActivityState :=
  if v.batched then fun _ => .completed else e.verdict id

def kept (v : Visit) (n k : Nat) : Nat :=
  if v.batched then n else k

-- In a batch there is no retry before an interruption and no output over the cap.
def Fair (v : Visit) : Prop :=
  v.batched = true →
    match v.replies.getLast? with
    | some (.error (.interrupted _)) => retries v.replies = 0
    | some (.output output) => e.checkOutputSize id output = none
    | _ => True

end Visit

def answersOf (visits : List Visit) : List Reply :=
  (visits.map (·.replies)).flatten

/--
A drive takes an activity from one state to another.
-/
inductive Ran {ω : Type} (e : Engine ω) (d : Definition) (a : ActivityDef) (s t : ExecutionState)
    : Visit → Prop where
  | alone {drive : Definition → ExecutionState → Action ω (RunOutcome × ExecutionState)} {gas : Nat}
    {step : Step} {w w' : World ω} {calls : List Call}
    (hrun : e.runActivity drive d gas s a.id w = (.ok (t, step), w'))
    (hcalls : w'.calls = w.calls ++ calls) : Ran e d a s t ⟨false, repliesTo a.id calls⟩
  | batched {batch : List String} {gas : Nat} {step : BatchStep} {w w' : World ω} {calls : List Call}
    (hbatch : e.readyBatch d s = some batch) (hlarge : 1 < batch.length) (hid : a.id ∈ batch)
    (hrun : e.runReadyBatch d gas s batch w = (.ok (t, step), w'))
    (hcalls : w'.calls = w.calls ++ calls) : Ran e d a s t ⟨true, repliesTo a.id calls⟩

def ActivityState.isTerminal : ActivityState → Bool
  | .completed | .failed => true
  | _ => false

/--
One drive after the other runs an activity until it has completed or failed, with what has become of
its record. In between the record stays as it is.
-/
inductive Visits {ω : Type} (e : Engine ω) (d : Definition) (a : ActivityDef)
    : List Visit → ActivityRecord → Prop where
  | fresh : Visits e d a [] {}
  | next {visits : List Visit} {visit : Visit} {record record' : ActivityRecord} {s t : ExecutionState}
    (hvisits : Visits e d a visits record) (hopen : record.state.isTerminal = false)
    (hrecord : s.activity? a.id = some record) (hran : Ran e d a s t visit)
    (hrecord' : t.activity? a.id = some record') : Visits e d a (visits ++ [visit]) record'

structure Agrees {ω : Type} (e : Engine ω) (id : String) (limit : Nat) (replies : List Reply)
    (record : ActivityRecord) : Prop where
  within : retries replies ≤ limit
  state : ∀ last, replies.getLast? = some last → record.state = last.fate (e.verdict id)
  attempts : record.attempts = retries replies.dropLast + 1

section

variable {ω : Type} {e : Engine ω} {d : Definition} {a : ActivityDef}

theorem Ran.attempts {s t : ExecutionState} {visit : Visit} (hvalid : d.validate e.platform = .ok ())
    (ha : d.activity a.id = some a) (hkind : ¬Native a.activityType) (h : Ran e d a s t visit)
    {record record' : ActivityRecord} (hrecord : s.activity? a.id = some record)
    (hrecord' : t.activity? a.id = some record')
    : Attempts (visit.verdict e a.id) (visit.kept record.attempts) (d.retryFor a.id).maxAttempts
        record.attempts visit.replies record'.state record'.attempts := by
  cases h with
  | @alone drive gas step w w' calls hrun hcalls =>
    unfold Engine.runActivity at hrun
    rw [ha] at hrun
    unfold Prog.ofOption at hrun
    rw [Prog.pure_bind, if_neg fun h => hkind (.inl h), if_neg fun h => hkind (.inr (.inl h)),
      if_neg fun h => hkind (.inr (.inr h))] at hrun
    obtain ⟨new, hnew, h⟩ := runAttempts_logs (e := e) (d.retryFor a.id) gas hrecord w
    rw [hrun] at hnew h
    obtain rfl : calls = new := append_cancel_left (hcalls.symm.trans hnew)
    obtain ⟨state, k, ⟨r, hr, rfl, rfl⟩, hattempts⟩ := h _ rfl
    cases hrecord'.symm.trans hr
    exact hattempts
  | @batched batch gas step w w' calls hbatch hlarge hid hrun hcalls =>
    obtain ⟨new, hnew, h⟩ := runReadyBatch_logs hvalid hbatch gas hid hrecord w
    rw [hrun] at hnew h
    obtain rfl : calls = new := append_cancel_left (hcalls.symm.trans hnew)
    obtain ⟨state, k, ⟨r, hr, rfl, rfl⟩, hattempts⟩ := h _ rfl
    cases hrecord'.symm.trans hr
    exact hattempts

theorem Visit.fair_iff_interrupted {visit : Visit} {before : List Reply} {msg : String}
    (h : visit.replies = before ++ [.error (.interrupted msg)])
    : visit.Fair e a.id ↔ (visit.batched = true → retries before = 0) := by
  unfold Visit.Fair
  rw [h, getLast?_concat, retries_append]
  rfl

theorem Engine.verdict_eq_completed (e : Engine ω) (id : String) (v : Value)
    : .completed = e.verdict id v ↔ e.checkOutputSize id v = none := by
  unfold Engine.verdict
  cases e.checkOutputSize id v with
  | none => simp
  | some msg => simp

theorem Visit.fair_iff_settled {visit : Visit} {before : List Reply} {last : Reply}
    (h : visit.replies = before ++ [last]) (hlast : last.isInterrupted = false)
    : visit.Fair e a.id ↔ last.fate (visit.verdict e a.id) = last.fate (e.verdict a.id) := by
  unfold Visit.Fair Visit.verdict
  rw [h, getLast?_concat]
  cases last with
  | output v =>
    dsimp only [Reply.fate]
    rw [← e.verdict_eq_completed]
    cases visit.batched with
    | false => simp
    | true => simp
  | panic reason => simp [Reply.fate]
  | error err =>
    cases err with
    | interrupted msg => cases hlast
    | permanent msg => simp [Reply.fate]
    | retryable msg => simp [Reply.fate]

theorem Visit.verdict_isTerminal (visit : Visit) (v : Value)
    : (visit.verdict e a.id v).isTerminal = true := by
  unfold Visit.verdict
  split
  next => rfl
  next =>
    unfold Engine.verdict
    split
    next => rfl
    next => rfl

theorem Reply.fate_isTerminal (visit : Visit) (last : Reply)
    : (last.fate (visit.verdict e a.id)).isTerminal = true := by
  cases last with
  | output v => exact visit.verdict_isTerminal v
  | panic reason => rfl
  | error err => rfl

theorem answersOf_concat (visits : List Visit) (visit : Visit)
    : answersOf (visits ++ [visit]) = answersOf visits ++ visit.replies := by
  simp [answersOf]

structure Standing {ω : Type} (e : Engine ω) (id : String) (limit : Nat) (visits : List Visit)
    (attempts : Nat) : Prop where
  below : attempts < limit
  le : attempts ≤ retries (answersOf visits)
  all : attempts = retries (answersOf visits) ↔ ∀ visit ∈ visits, visit.Fair e id

structure Accounted {ω : Type} (e : Engine ω) (id : String) (limit : Nat) (visits : List Visit)
    (record : ActivityRecord) : Prop where
  standing : record.state.isTerminal = false → Standing e id limit visits record.attempts
  within : (∀ visit ∈ visits, visit.Fair e id) → retries (answersOf visits) ≤ limit
  agrees : record.state.isTerminal = true →
    (Agrees e id limit (answersOf visits) record ↔ ∀ visit ∈ visits, visit.Fair e id)

variable {limit : Nat} {visits : List Visit} {visit : Visit} {record : ActivityRecord} {before : List Reply}

theorem forall_mem_concat {p : Visit → Prop}
    : (∀ v ∈ visits ++ [visit], p v) ↔ (∀ v ∈ visits, p v) ∧ p visit := by
  simp [or_imp, forall_and]

theorem Standing.interrupt {n : Nat} {msg : String} (h : Standing e a.id limit visits n)
    (hvisit : visit.replies = before ++ [.error (.interrupted msg)]) (hbelow : n + retries before < limit)
    (hrecord : record.state = .ready ∧ record.attempts = visit.kept n (n + retries before))
    : Accounted e a.id limit (visits ++ [visit]) record := by
  have hcount : retries (answersOf (visits ++ [visit])) = retries (answersOf visits) + retries before := by
    rw [answersOf_concat, hvisit, retries_append, retries_append]
    rfl
  have hfair := Visit.fair_iff_interrupted (e := e) (a := a) hvisit
  have hle := h.le
  refine ⟨?_, ?_, ?_⟩
  . intro _
    rw [hrecord.2]
    unfold Visit.kept
    refine ⟨?_, ?_, ?_⟩
    . split <;> omega
    . rw [hcount]
      split <;> omega
    . rw [forall_mem_concat, hfair, ← h.all, hcount]
      cases visit.batched with
      | false =>
        simp only [Bool.false_eq_true, if_false, false_implies, and_true]
        omega
      | true =>
        simp only [if_true, true_implies]
        omega
  . intro hall
    have hkept := h.all.mpr ((forall_mem_concat).mp hall).1
    rw [hcount]
    omega
  . rw [hrecord.1]
    exact nofun

theorem Standing.settle {n : Nat} {last : Reply} (h : Standing e a.id limit visits n)
    (hvisit : visit.replies = before ++ [last]) (hlast : last.isInterrupted = false)
    (hwithin : n + retries (before ++ [last]) ≤ limit)
    (hrecord : record.state = last.fate (visit.verdict e a.id) ∧ record.attempts = n + retries before + 1)
    : Accounted e a.id limit (visits ++ [visit]) record := by
  have hanswers : answersOf (visits ++ [visit]) = answersOf visits ++ before ++ [last] := by
    rw [answersOf_concat, hvisit, append_assoc]
  have hfair := Visit.fair_iff_settled (e := e) (a := a) hvisit hlast
  have hcount (hall : ∀ v ∈ visits, v.Fair e a.id) : retries (answersOf (visits ++ [visit])) ≤ limit := by
    have hkept := h.all.mpr hall
    rw [hanswers, append_assoc, retries_append]
    omega
  refine ⟨?_, ?_, ?_⟩
  . rw [hrecord.1, Reply.fate_isTerminal]
    exact nofun
  . exact fun hall => hcount ((forall_mem_concat).mp hall).1
  . intro _
    rw [forall_mem_concat, hfair, ← h.all]
    constructor
    . intro hagrees
      have hattempts := hagrees.attempts
      rw [hanswers, dropLast_concat, retries_append, hrecord.2] at hattempts
      refine ⟨by omega, ?_⟩
      rw [← hrecord.1]
      apply hagrees.state
      rw [hanswers, getLast?_concat]
    . rintro ⟨hkept, hfate⟩
      refine ⟨hcount (h.all.mp hkept), ?_, ?_⟩
      . intro last' hlast'
        rw [hanswers, getLast?_concat] at hlast'
        cases hlast'
        rw [hrecord.1, hfate]
      . rw [hanswers, dropLast_concat, retries_append, hrecord.2, hkept]

theorem Visits.accounted (hvalid : d.validate e.platform = .ok ()) (ha : d.activity a.id = some a)
    (hkind : ¬Native a.activityType) (hlimit : 1 ≤ (d.retryFor a.id).maxAttempts)
    (h : Visits e d a visits record)
    : Accounted e a.id (d.retryFor a.id).maxAttempts visits record := by
  induction h with
  | fresh => exact ⟨fun _ => ⟨hlimit, Nat.le_refl 0, by simp [answersOf, retries]⟩, fun _ => Nat.zero_le _, nofun⟩
  | @next visits visit record record' s t hvisits hopen hrecord hran hrecord' ih =>
    have hstanding := ih.standing hopen
    obtain ⟨before, last, hvisit, hended⟩ := (hran.attempts hvalid ha hkind hrecord hrecord').ended
    have hwithin := hended.within hstanding.below
    cases hlast : last.isInterrupted with
    | false => exact hstanding.settle hvisit hlast hwithin (hended.settled hlast)
    | true =>
      cases last with
      | output v => cases hlast
      | panic reason => cases hlast
      | error err =>
        cases err with
        | permanent msg => cases hlast
        | retryable msg => cases hlast
        | interrupted msg =>
          exact hstanding.interrupt hvisit (hended.below hstanding.below hlast) (hended.interrupted hlast)

/--
The answers make the same of an activity however it is run, if and only if there is no drive that has run
it in a batch where it was interrupted after a retry or where an output over the cap was taken.
-/
theorem agrees_iff_fair (hvalid : d.validate e.platform = .ok ()) (ha : d.activity a.id = some a)
    (hkind : ¬Native a.activityType) (hlimit : 1 ≤ (d.retryFor a.id).maxAttempts)
    (h : Visits e d a visits record)
    : ((∀ visit ∈ visits, visit.Fair e a.id) →
          retries (answersOf visits) ≤ (d.retryFor a.id).maxAttempts)
        ∧ (record.state.isTerminal = true →
          (Agrees e a.id (d.retryFor a.id).maxAttempts (answersOf visits) record
            ↔ ∀ visit ∈ visits, visit.Fair e a.id)) := by
  have haccounted := h.accounted hvalid ha hkind hlimit
  exact ⟨haccounted.within, haccounted.agrees⟩

end

namespace Retries

def pull : ActivityDef where
  id := "pull"
  activityType := "function"
  retry := some { maxAttempts := 2 }

def mirror : Definition where
  metadata := { name := "mirror" }
  spec := { activities := [pull, { id := "push", activityType := "function" }] }

def remote : Engine (List Reply) where
  platform := .integral
  backend := .file
  execute replies _ := ⟨replies.tail, [], replies.headD (.output .null)⟩
  nowMillis _ := 0
  timers := false
  subworkflows := none

def busy : Reply :=
  .error (.retryable "busy")

def lost : Reply :=
  .error (.interrupted "lost")

def opened : ExecutionState :=
  { Engine.initialState mirror "mirror-1" .null with status := .running }

def started (replies : List Reply) : World (List Reply) where
  executor := replies
  writes := 99

def first : Outcome Error (ExecutionState × BatchStep) × World (List Reply) :=
  remote.runReadyBatch mirror 9 opened ["pull", "push"] (started [busy, lost])

def second (state : ExecutionState) : Outcome Error (ExecutionState × Step) × World (List Reply) :=
  remote.runActivity (fun _ _ => Prog.halt) mirror 9 state "pull" (started [busy, busy])

def resultOf {α : Type} (x : Outcome Error (ExecutionState × α) × World (List Reply))
    : Option ExecutionState :=
  match x.1 with
  | .ok r => some r.1
  | _ => none

theorem resultOf_eq {α : Type} {x : Outcome Error (ExecutionState × α) × World (List Reply)}
    {t : ExecutionState} (h : resultOf x = some t) : ∃ a, x = (.ok (t, a), x.2) := by
  obtain ⟨o, w⟩ := x
  unfold resultOf at h
  cases o with
  | ok r =>
    cases h
    exact ⟨r.2, rfl⟩
  | err err => cases h
  | halted => cases h

theorem visits_mirror
    : ∃ visits record, Visits remote mirror pull visits record
        ∧ visits.map (·.batched) = [true, false] ∧ answersOf visits = [busy, lost, busy, busy]
        ∧ record.state = .failed ∧ record.attempts = 2 := by
  have hfirst : (resultOf first).isSome = true := by decide +kernel
  obtain ⟨t, ht⟩ := Option.isSome_iff_exists.mp hfirst
  have hkept : ((resultOf first).bind (·.activity? "pull")).map (fun r => (r.state.isTerminal, r.attempts))
      = some (false, 0) := by
    decide +kernel
  have hsecond : (((resultOf first).bind fun s => resultOf (second s)).bind (·.activity? "pull")).map
      (fun r => (r.state, r.attempts)) = some (.failed, 2) := by
    decide +kernel
  have hcalls : (resultOf first).map (fun s => repliesTo "pull" (second s).2.calls) = some [busy, busy] := by
    decide +kernel
  rw [ht] at hkept hsecond hcalls
  simp only [Option.bind_some, Option.map_some, Option.some.injEq] at hkept hsecond hcalls
  obtain ⟨record, hrecord, hopen⟩ := Option.map_eq_some_iff.mp hkept
  obtain ⟨record', hrecord', hfailed⟩ := Option.map_eq_some_iff.mp hsecond
  obtain ⟨u, hu, hrecord'⟩ := Option.bind_eq_some_iff.mp hrecord'
  simp only [Prod.mk.injEq] at hopen hfailed
  obtain ⟨step, hrun⟩ := resultOf_eq ht
  obtain ⟨step', hrun'⟩ := resultOf_eq hu
  have hreplies : repliesTo "pull" first.2.calls = [busy, lost] := by decide +kernel
  have hinitial : opened.activity? "pull" = some {} := by decide +kernel
  refine ⟨[⟨true, repliesTo "pull" first.2.calls⟩, ⟨false, repliesTo "pull" (second t).2.calls⟩], record',
    ?_, rfl, ?_, hfailed.1, hfailed.2⟩
  . refine @Visits.next _ _ _ _ [_] _ _ _ _ _ (Visits.next .fresh rfl hinitial ?_ hrecord) hopen.1 hrecord ?_ hrecord'
    . have hready : remote.readyBatch mirror opened = some ["pull", "push"] := by decide +kernel
      exact .batched hready (by decide) mem_cons_self hrun (nil_append _).symm
    . exact .alone hrun' (nil_append _).symm
  . rw [hreplies, hcalls]
    rfl

end Retries

open Retries

theorem agrees_iff_fair_mirror
    : ∃ visits record, answersOf visits = [busy, lost, busy, busy]
        ∧ ((∀ visit ∈ visits, visit.Fair remote "pull") → retries (answersOf visits) ≤ 2)
        ∧ (record.state.isTerminal = true →
          (Agrees remote "pull" 2 (answersOf visits) record
            ↔ ∀ visit ∈ visits, visit.Fair remote "pull")) := by
  obtain ⟨visits, record, hvisits, -, hanswers, -⟩ := visits_mirror
  have hlimit : (mirror.retryFor pull.id).maxAttempts = 2 := by decide
  have hagrees := agrees_iff_fair (by decide) (by decide) (by unfold Native; decide)
    (by rw [hlimit]; decide) hvisits
  rw [hlimit] at hagrees
  exact ⟨visits, record, hanswers, hagrees⟩

-- The budget allows for two retries, and the record counts the last two of three.
theorem retried_again
    : mirror.validate remote.platform = .ok ()
        ∧ (mirror.retryFor "pull").maxAttempts = 2
        ∧ ∃ visits record, Visits remote mirror pull visits record
          ∧ visits.map (·.batched) = [true, false]
          ∧ record.state = .failed ∧ record.attempts = 2 ∧ retries (answersOf visits) = 3
          ∧ ¬Agrees remote "pull" 2 (answersOf visits) record := by
  obtain ⟨visits, record, hvisits, hbatched, hanswers, hstate, hattempts⟩ := visits_mirror
  refine ⟨by decide, by decide, visits, record, hvisits, hbatched, hstate, hattempts, ?_, ?_⟩
  . rw [hanswers]
    rfl
  . intro hagrees
    have hwithin := hagrees.within
    rw [hanswers] at hwithin
    exact absurd hwithin (by decide)

end Wovyr.Workflow
