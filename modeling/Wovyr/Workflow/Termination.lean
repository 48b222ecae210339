import Wovyr.Lib.Completion
import Wovyr.Lib.Tasks
import Wovyr.Workflow.Course.Forward

/-!
This module contains the depth of an execution, read off its id, and the proof that an execution comes to its end,
however its definition and those of its children refer to each other.
-/

namespace Wovyr

open Completion Runs List

namespace Workflow

inductive Nested (root : String) : Nat → String → Prop where
  | root : Nested root 0 root
  | child {n : Nat} {id : String} (h : Nested root n id) (activity : String)
    : Nested root (n + 1) (id ++ "::" ++ activity)

theorem separators_cons {c : Char} {rest : List Char} (h : ∀ rest', c = ':' → rest = ':' :: rest' → False)
    : Engine.separators (c :: rest) = Engine.separators rest := by
  rw [Engine.separators]
  exact h

theorem separators_append (xs ys : List Char)
    : Engine.separators xs + 1 ≤ Engine.separators (xs ++ ':' :: ':' :: ys) := by
  have hpair (zs : List Char) : Engine.separators (':' :: ':' :: zs) = Engine.separators zs + 1 := rfl
  fun_induction Engine.separators xs with
  | case1 rest ih =>
    rw [cons_append, cons_append, hpair]
    exact Nat.add_le_add_right ih 1
  | case2 c rest hc ih =>
    cases rest with
    | nil =>
      rw [singleton_append]
      by_cases hcolon : c = ':'
      . rw [hcolon, hpair]
        exact Nat.le_add_left 1 _
      . rw [separators_cons fun _ heq _ => hcolon heq]
        exact ih
    | cons x rest =>
      have hskip : Engine.separators (c :: (x :: rest ++ ':' :: ':' :: ys))
          = Engine.separators (x :: rest ++ ':' :: ':' :: ys) := by
        apply separators_cons
        intro rest' hcolon heq
        rw [cons_append] at heq
        exact hc rest hcolon (by rw [(cons.inj heq).1])
      rw [cons_append, hskip]
      exact ih
  | case3 =>
    rw [nil_append, hpair]
    exact Nat.le_add_left 1 _

theorem separators_childId (s : ExecutionState) (a : ActivityDef)
    : Engine.separators s.executionId.toList + 1 ≤ Engine.separators (Engine.childId s a).toList := by
  have hchild : (Engine.childId s a).toList = s.executionId.toList ++ ':' :: ':' :: a.id.toList := by
    simp [Engine.childId]
  rw [hchild]
  exact separators_append _ _

theorem Nested.le_separators {root id : String} {n : Nat} (h : Nested root n id)
    : n ≤ Engine.separators id.toList := by
  induction h with
  | root => exact Nat.zero_le _
  | @child n id _ activity ih =>
    have happend : (id ++ "::" ++ activity).toList = id.toList ++ ':' :: ':' :: activity.toList := by
      simp
    rw [happend]
    exact (Nat.add_le_add_right ih 1).trans (separators_append _ _)

def ExecutionState.Completed (s : ExecutionState) (id : String) : Prop :=
  ∃ record, s.activity? id = some record ∧ record.state = .completed

structure Follows (s t : ExecutionState) : Prop where
  executionId : t.executionId = s.executionId
  has : ∀ id, (s.activity? id).isSome = true → (t.activity? id).isSome = true
  kept : ∀ id, s.Completed id → t.Completed id

namespace Follows

variable {s t u : ExecutionState}

theorem refl (s : ExecutionState) : Follows s s :=
  ⟨rfl, fun _ h => h, fun _ h => h⟩

theorem congr (h : Follows s t) (hid : u.executionId = t.executionId) (hactivities : u.activities = t.activities)
    : Follows s u := by
  refine ⟨hid.trans h.executionId, ?_, ?_⟩
  . intro id hsome
    unfold ExecutionState.activity?
    rw [hactivities]
    exact h.has id hsome
  . intro id hcompleted
    unfold ExecutionState.Completed ExecutionState.activity?
    rw [hactivities]
    exact h.kept id hcompleted

theorem trans (h : Follows s t) (h' : Follows t u) : Follows s u :=
  ⟨h'.executionId.trans h.executionId, fun id hsome => h'.has id (h.has id hsome),
    fun id hcompleted => h'.kept id (h.kept id hcompleted)⟩

theorem version (h : Follows s t) (version : Nat) : Follows s { t with version } :=
  h.congr rfl rfl

theorem status (h : Follows s t) (status : WorkflowState) : Follows s { t with status } :=
  h.congr rfl rfl

theorem setVariable (h : Follows s t) (key : String) (value : Value) : Follows s (t.setVariable key value) :=
  h.congr rfl rfl

theorem removeVariable (h : Follows s t) (key : String) : Follows s (t.removeVariable key) :=
  h.congr rfl rfl

theorem setRecord (h : Follows s t) {id : String} {r : ActivityRecord}
    (hr : ¬s.Completed id ∨ r.state = .completed) : Follows s (t.setRecord id r) := by
  refine ⟨h.executionId, ?_, ?_⟩
  . intro id' hsome
    rw [ExecutionState.activity?_setRecord]
    split
    . rfl
    . exact h.has id' hsome
  . intro id' hcompleted
    unfold ExecutionState.Completed
    rw [ExecutionState.activity?_setRecord]
    split
    . next heq =>
      subst heq
      exact ⟨r, rfl, hr.resolve_left fun hnot => hnot hcompleted⟩
    . exact h.kept id' hcompleted

theorem setActivity (h : Follows s t) {id : String} (hid : ¬s.Completed id) (target : ActivityState)
    : Follows s (t.setActivity id target) := by
  unfold ExecutionState.setActivity
  split
  . exact h.setRecord (.inl hid)
  . exact h

theorem complete (h : Follows s t) (id : String) (r : ActivityRecord) (output : Value)
    : Follows s (t.complete id r output) :=
  (@setRecord _ _ h id { r with state := .completed, output := some output } (.inr rfl)).congr rfl rfl

end Follows

theorem ExecutionState.completed_complete (s : ExecutionState) (id : String) (r : ActivityRecord) (output : Value)
    : (s.complete id r output).Completed id := by
  refine ⟨{ r with state := .completed, output := some output }, ?_, rfl⟩
  rw [activity?_complete, if_pos rfl]

def Whole (d : Definition) (s : ExecutionState) : Prop :=
  ∀ a ∈ d.spec.activities, (s.activity? a.id).isSome = true

theorem Whole.follows {d : Definition} {s t : ExecutionState} (h : Whole d s) (hfollows : Follows s t)
    : Whole d t :=
  fun a ha => hfollows.has a.id (h a ha)

theorem firstId_isSome {holds : String → Option Bool} {as : List ActivityDef}
    (h : ∀ a ∈ as, (holds a.id).isSome = true) : (Engine.firstId holds as).isSome = true := by
  induction as with
  | nil => rfl
  | cons a as ih =>
    obtain ⟨ha, has⟩ := forall_mem_cons.mp h
    obtain ⟨b, hb⟩ := Option.isSome_iff_exists.mp ha
    unfold Engine.firstId
    rw [hb]
    cases b with
    | true => rfl
    | false => exact ih has

theorem isSome_isDead {ω : Type} {e : Engine ω} {d : Definition} {s : ExecutionState} {id : String}
    (h : (s.activity? id).isSome = true) : (e.isDead d s id).isSome = true := by
  unfold Engine.isDead
  rw [Option.isSome_map]
  exact h

/--
What is found and what is left alone while the execution under a key is driven.
-/
structure Scope where
  key : String
  -- The executions below this one that may still be open.
  pending : String → ExecutionState → Prop
  before : Store
  cut : Prop

namespace Scope

variable {ω : Type} (e : Engine ω) (S : Scope)

structure Holds (st : Store) : Prop where
  keyed : st.WellKeyed e
  known : ∀ k t, st.checkpoints[k]? = some t → S.key.length < k.length → t.status.isTerminal = false →
    S.pending k t
  frame : ∀ k, k.length ≤ S.key.length → k ≠ S.key → st.checkpoints[k]? = S.before.checkpoints[k]?

def Covers (executionId : String) : Prop := e.backend.key executionId = S.key

def completion : Completion (World ω) Store Call where
  toDurable := World.durable
  inv w := S.Holds e w.store
  cut := S.cut

variable {e S} {α β : Type} {s t : ExecutionState}

theorem Holds.save {st : Store} (h : S.Holds e st) (hs : S.Covers e s.executionId) : S.Holds e (st.save e s) := by
  unfold Covers at hs
  refine ⟨h.keyed.save s, ?_, ?_⟩
  . intro k t ht hlength hstatus
    unfold Store.save at ht
    rw [Map.getElem?_insert] at ht
    split at ht
    . next heq =>
      rw [← heq, hs] at hlength
      omega
    . exact h.known k t ht hlength hstatus
  . intro k hlength hne
    unfold Store.save
    rw [Map.getElem?_insert, if_neg]
    . exact h.frame k hlength hne
    . intro heq
      exact hne (heq.symm.trans hs)

theorem persist_runs {f : World ω → World ω}
    (hf : ∀ w n, f (World.durable.refill w n) = World.durable.refill (f w) n)
    (hholds : ∀ w, S.Holds e w.store → S.Holds e (f w).store)
    : (S.completion e).Runs (fun _ => Engine.persist f) (fun _ => True) :=
  pay (C := S.completion e) hf hholds

theorem Holds.congr {st st' : Store} (h : S.Holds e st) (hsame : st'.checkpoints = st.checkpoints)
    : S.Holds e st' := by
  refine ⟨?_, ?_, ?_⟩
  . intro k t ht
    exact h.keyed k t (hsame ▸ ht)
  . intro k t ht
    exact h.known k t (hsame ▸ ht)
  . rw [hsame]
    exact h.frame

theorem emit_runs (s : ExecutionState) (event : WorkflowEvent)
    : (S.completion e).Runs (fun _ => e.emit s event) (fun t => ∃ version, t = { s with version }) := by
  unfold Engine.emit
  apply bind (q := fun _ => True)
  . exact persist_runs (fun _ _ => rfl) fun _ h => h.congr rfl
  . intro _ _
    exact pure ⟨_, rfl⟩

theorem emitAll_runs (s : ExecutionState) (events : List WorkflowEvent)
    : (S.completion e).Runs (fun _ => e.emitAll s events) (fun t => ∃ version, t = { s with version }) := by
  induction events generalizing s with
  | nil => exact pure ⟨s.version, rfl⟩
  | cons event events ih =>
    unfold Engine.emitAll
    apply bind (emit_runs s event)
    rintro _ ⟨version, rfl⟩
    exact ih _

theorem checkpoint_runs (hs : S.Covers e s.executionId)
    : (S.completion e).Runs (fun _ => e.checkpoint s) (fun _ => True) :=
  persist_runs (fun _ _ => rfl) fun _ h => h.save hs

theorem recordOf_runs {f : ActivityRecord → Nat → Action ω β} {q : β → Prop} {id : String}
    (hhas : ¬S.cut → (s.activity? id).isSome = true)
    (hf : ∀ record, s.activity? id = some record → (S.completion e).Runs (f record) q)
    : (S.completion e).Runs (fun g => Engine.recordOf s id >>= fun record => f record g) q :=
  bind (ofOption _ (fun _ h => h) hhas) hf

theorem callExecutor_runs (executionId : String) (rollback : Bool) (context : ActivityContext)
    : (S.completion e).Runs (fun _ => e.callExecutor executionId rollback context)
        (fun r => ∃ x, r.2 = (e.execute x context).reply) := by
  unfold Engine.callExecutor
  apply bind (q := fun reaction => ∃ x, reaction = e.execute x context)
  . exact gets _ (fun _ _ => rfl) fun w => ⟨w.executor, rfl⟩
  rintro _ ⟨x, rfl⟩
  apply bind (q := fun _ => True)
  . exact modify (C := S.completion e) (fun _ _ => rfl) fun _ h => h.congr rfl
  . intro _ _
    exact pure ⟨x, rfl⟩

theorem pick_runs {n : Nat} (hn : 0 < n) : (S.completion e).Runs (fun _ => Engine.pick n) (fun k => k < n) := by
  unfold Engine.pick
  apply bind (q := fun _ => True)
  . exact gets _ (fun _ _ => rfl) fun _ => trivial
  intro picks _
  apply bind (q := fun _ => True)
  . exact modify (C := S.completion e) (fun _ _ => rfl) fun _ h => h.congr rfl
  . intro _ _
    exact pure (Nat.mod_lt _ hn)

theorem saved_runs {x : α} {q : ExecutionState × α → Prop} (event : WorkflowEvent) (hs : S.Covers e s.executionId)
    (hq : ∀ version, q ({ s with version }, x))
    : (S.completion e).Runs (fun _ => do
        let state ← e.emit s event
        e.checkpoint state
        return (state, x)) q := by
  apply bind (emit_runs s event)
  rintro _ ⟨version, rfl⟩
  refine bind (checkpoint_runs ?_) fun _ _ => pure (hq version)
  exact hs

theorem Covers.follows (h : S.Covers e s.executionId) (hfollows : Follows s t) : S.Covers e t.executionId := by
  rw [hfollows.executionId]
  exact h

def Came (s : ExecutionState) (id : String) (r : ExecutionState × Step) : Prop :=
  Follows s r.1 ∧ (r.2 = .completed → r.1.Completed id)

def Stalled (s : ExecutionState) (r : ExecutionState × Step) : Prop :=
  Follows s r.1 ∧ r.2 ≠ .completed

theorem Stalled.came {r : ExecutionState × Step} (h : Stalled s r) (id : String) : Came s id r :=
  ⟨h.1, fun hcompleted => absurd hcompleted h.2⟩

structure Fresh (S : Scope) (s : ExecutionState) (id : String) : Prop where
  unfinished : ¬s.Completed id
  has : ¬S.cut → (s.activity? id).isSome = true

-- No call of the executor panics.
def Answering (e : Engine ω) : Prop :=
  ∀ x context reason, (e.execute x context).reply ≠ .panic reason

section

variable {id : String}

theorem terminalActivityFailure_stalls (hs : S.Covers e s.executionId) (hfresh : S.Fresh s id) (h : Follows s t)
    (attempt : Nat) (msg : String)
    : (S.completion e).Runs (fun _ => e.terminalActivityFailure t id attempt msg) (Stalled s) := by
  unfold Engine.terminalActivityFailure
  apply recordOf_runs fun hcut => h.has id (hfresh.has hcut)
  intro record _
  have hset (r : ActivityRecord) := h.setRecord (r := r) (.inl hfresh.unfinished)
  exact saved_runs _ (hs.follows (hset _)) fun version => ⟨(hset _).version version, nofun⟩

theorem terminalActivityFailure_runs (hs : S.Covers e s.executionId) (hfresh : S.Fresh s id) (h : Follows s t)
    (attempt : Nat) (msg : String)
    : (S.completion e).Runs (fun _ => e.terminalActivityFailure t id attempt msg) (Came s id) :=
  post (terminalActivityFailure_stalls hs hfresh h attempt msg) fun _ hr => hr.came id

theorem failOnce_stalls (hs : S.Covers e s.executionId) (hfresh : S.Fresh s id) (h : Follows s t) (msg : String)
    : (S.completion e).Runs (fun _ => e.failOnce t id msg) (Stalled s) := by
  unfold Engine.failOnce
  apply recordOf_runs fun hcut => h.has id (hfresh.has hcut)
  exact fun record _ => terminalActivityFailure_stalls hs hfresh h _ msg

theorem failOnce_runs (hs : S.Covers e s.executionId) (hfresh : S.Fresh s id) (h : Follows s t) (msg : String)
    : (S.completion e).Runs (fun _ => e.failOnce t id msg) (Came s id) :=
  post (failOnce_stalls hs hfresh h msg) fun _ hr => hr.came id

theorem completeActivity_runs (hs : S.Covers e s.executionId) (h : Follows s t) (record : ActivityRecord)
    (output : Value) : (S.completion e).Runs (fun _ => e.completeActivity t id record output) (Came s id) := by
  unfold Engine.completeActivity
  have hcomplete := h.complete id record output
  exact saved_runs _ (hs.follows hcomplete) fun version =>
    ⟨hcomplete.version version, fun _ => ExecutionState.completed_complete t id record output⟩

theorem suspend_stalls (hs : S.Covers e s.executionId) (hfresh : S.Fresh s id) (h : Follows s t)
    (target : ActivityState) (msg : String)
    : (S.completion e).Runs (fun _ => do
        e.checkpoint (t.setActivity id target)
        return (t.setActivity id target, Step.interrupted msg)) (Stalled s) := by
  have hset := h.setActivity hfresh.unfinished target
  refine bind (checkpoint_runs (hs.follows hset)) fun _ _ => pure ⟨hset, nofun⟩

theorem suspend_runs (hs : S.Covers e s.executionId) (hfresh : S.Fresh s id) (h : Follows s t)
    (target : ActivityState) (msg : String)
    : (S.completion e).Runs (fun _ => do
        e.checkpoint (t.setActivity id target)
        return (t.setActivity id target, Step.interrupted msg)) (Came s id) :=
  post (suspend_stalls hs hfresh h target msg) fun _ hr => hr.came id

theorem applySkips_runs {d : Definition} (hs : S.Covers e s.executionId) (hwhole : ¬S.cut → Whole d s)
    (n : Nat) (h : Follows s t) : (S.completion e).Runs (fun _ => e.applySkips d n t) (Follows s) := by
  induction n generalizing t with
  | zero => exact pure h
  | succ n ih =>
    unfold Engine.applySkips
    apply bind (ofOption _ (fun _ h => h) ?_)
    . intro found hfound
      cases found with
      | none => exact pure h
      | some id =>
        obtain ⟨a, -, rfl, hdead⟩ := firstId_some hfound
        obtain ⟨record, hrecord, hsettled⟩ := pending_of_isDead hdead
        have hopen : ¬s.Completed a.id := by
          intro hcompleted
          obtain ⟨record', hrecord', hstate⟩ := h.kept a.id hcompleted
          rw [hrecord] at hrecord'
          cases hrecord'
          rw [hstate] at hsettled
          cases hsettled
        have hset := h.setActivity hopen .skipped
        apply bind (emit_runs _ _)
        rintro _ ⟨version, rfl⟩
        refine bind (checkpoint_runs ?_) fun _ _ => ih (hset.version version)
        exact hs.follows (hset.version version)
    . exact fun hcut => firstId_isSome fun a ha => isSome_isDead ((hwhole hcut).follows h a (mem_forward ha).1)

theorem runAttempts_runs (hanswers : ¬S.cut → Answering e) {a : ActivityDef} (policy : RetryPolicy)
    (hs : S.Covers e s.executionId) (hfresh : S.Fresh s a.id) (h : Follows s t)
    : (S.completion e).Runs (fun g => e.runAttempts a policy g t) (Came s a.id) := by
  induction hn : policy.maxAttempts - ((t.activity? a.id).map (·.attempts)).getD 0
    using Nat.strong_induction_on generalizing t with
  | h n ih =>
    apply round (n := fun g => _) (fun g => rfl)
    apply recordOf_runs fun hcut => h.has a.id (hfresh.has hcut)
    intro record hrecord
    rw [hrecord] at hn
    have hrunning := h.setActivity hfresh.unfinished .running
    apply bind (emit_runs _ _)
    rintro _ ⟨version, rfl⟩
    apply bind (callExecutor_runs _ _ _)
    rintro ⟨progress, reply⟩ ⟨x, hreply⟩
    apply bind (emitAll_runs _ _)
    rintro _ ⟨version', rfl⟩
    apply recordOf_runs fun hcut => hrunning.has a.id (hfresh.has hcut)
    intro record' hrecord'
    have hattempts : record' = { record with state := .running } := by
      change (t.setActivity a.id .running).activity? a.id = some record' at hrecord'
      rw [ExecutionState.setActivity_eq hrecord, ExecutionState.activity?_setRecord_self] at hrecord'
      exact (Option.some.inj hrecord').symm
    have hafter := (hrunning.version version).version version'
    cases reply with
    | panic reason =>
      apply halt
      apply Classical.byContradiction
      exact fun hcut => hanswers hcut x _ reason hreply.symm
    | output output =>
      dsimp only
      cases e.checkOutputSize a.id output with
      | some msg => exact terminalActivityFailure_runs hs hfresh hafter _ msg
      | none => exact completeActivity_runs hs hafter _ output
    | error err =>
      cases err with
      | interrupted msg => exact suspend_runs hs hfresh hafter .ready msg
      | permanent msg => exact terminalActivityFailure_runs hs hfresh hafter _ msg
      | retryable msg =>
        dsimp only
        split
        . exact terminalActivityFailure_runs hs hfresh hafter _ _
        . next hleft =>
          have hset (r : ActivityRecord) := hafter.setRecord (r := r) (.inl hfresh.unfinished)
          apply bind (emit_runs _ _)
          rintro _ ⟨version'', rfl⟩
          have hretry := fun r => (hset r).version version''
          refine bind (checkpoint_runs (hs.follows (hretry _))) fun _ _ => ?_
          refine ih _ ?_ (hretry _) rfl
          change policy.maxAttempts - ((ExecutionState.activity? (ExecutionState.setRecord _ a.id _) a.id).map
            (·.attempts)).getD 0 < n
          rw [ExecutionState.activity?_setRecord_self, ← hn]
          simp only [Option.map_some, Option.getD_some] at hleft ⊢
          omega

theorem registerTimer_runs (a : ActivityDef) (spec : WaitSpec) (h : Follows s t)
    : (S.completion e).Runs (fun _ => e.registerTimer t a spec) (Follows s) := by
  unfold Engine.registerTimer
  split
  . split
    . exact pure h
    . split
      . apply bind (q := fun _ => True)
        . exact gets _ (fun _ _ => rfl) fun _ => trivial
        intro now _
        refine bind (persist_runs (fun _ _ => rfl) fun _ h => h.congr rfl) fun _ _ => ?_
        apply post (emit_runs _ _)
        rintro _ ⟨version, rfl⟩
        exact (h.setVariable _ _).version version
      . exact fail _
  . exact pure h

theorem clearTimer_runs (t : ExecutionState) (spec : WaitSpec)
    : (S.completion e).Runs (fun _ => e.clearTimer t spec)
        (fun u => u.executionId = t.executionId ∧ u.activities = t.activities) := by
  unfold Engine.clearTimer
  split
  . split
    . refine bind (persist_runs (fun _ _ => rfl) fun _ h => h.congr rfl) fun _ _ => ?_
      exact pure ⟨rfl, rfl⟩
    . exact pure ⟨rfl, rfl⟩
  . exact pure ⟨rfl, rfl⟩

theorem runWait_runs {a : ActivityDef} (hs : S.Covers e s.executionId) (hfresh : S.Fresh s a.id) (h : Follows s t)
    : (S.completion e).Runs (fun _ => e.runWait t a) (Came s a.id) := by
  unfold Engine.runWait
  apply bind (Runs.ofExcept _ fun _ h => h)
  intro spec _
  cases t.vars[spec.variableKey]? with
  | some payload =>
    apply recordOf_runs fun hcut => h.has a.id (hfresh.has hcut)
    intro record _
    have hcomplete := h.complete a.id record payload
    apply bind (clearTimer_runs _ spec)
    rintro u ⟨hid, hactivities⟩
    have hu := hcomplete.congr hid hactivities
    refine saved_runs _ (hs.follows hu) fun version => ⟨hu.version version, fun _ => ?_⟩
    unfold ExecutionState.Completed ExecutionState.activity?
    dsimp only
    rw [hactivities]
    exact ExecutionState.completed_complete t a.id record payload
  | none =>
    apply bind (registerTimer_runs a spec h)
    intro u hu
    have hset := hu.setActivity hfresh.unfinished .waiting
    exact saved_runs _ (hs.follows hset) fun version => ⟨hset.version version, nofun⟩

theorem completeForEach_runs (hs : S.Covers e s.executionId) (hfresh : S.Fresh s id) (h : Follows s t)
    (outputs : List Value)
    : (S.completion e).Runs (fun _ => e.completeForEach t id outputs) (Came s id) := by
  unfold Engine.completeForEach
  cases e.checkOutputSize id (.array outputs) with
  | some msg => exact failOnce_runs hs hfresh h msg
  | none =>
    apply recordOf_runs fun hcut => h.has id (hfresh.has hcut)
    exact fun record _ => completeActivity_runs hs h _ _

def effort : Task ⊕ IsolatedOutcome → Nat
  | .inl task => task.policy.maxAttempts - task.attempt + 2
  | .inr _ => 1

theorem effort_done (task : Task) (outcome : IsolatedOutcome) : effort (.inr outcome) < effort (.inl task) := by
  show 1 < task.policy.maxAttempts - task.attempt + 2
  omega

theorem advance_runs (executionId kind : String) (task : Task)
    : (S.completion e).Runs (fun _ => e.advance executionId kind task)
        (fun slot => slotId slot = task.activity.id ∧ effort slot < effort (.inl task)) := by
  unfold Engine.advance
  apply bind (callExecutor_runs _ _ _)
  rintro ⟨progress, reply⟩ -
  apply Runs.ofExcept
  intro slot hslot
  unfold Engine.settle at hslot
  dsimp only at hslot
  cases reply with
  | panic reason => cases hslot
  | output output =>
    cases hslot
    exact ⟨rfl, effort_done _ _⟩
  | error err =>
    cases err with
    | interrupted msg =>
      cases hslot
      exact ⟨rfl, effort_done _ _⟩
    | permanent msg =>
      cases hslot
      exact ⟨rfl, effort_done _ _⟩
    | retryable msg =>
      dsimp only at hslot
      split at hslot
      . cases hslot
        exact ⟨rfl, effort_done _ _⟩
      . cases hslot
        refine ⟨rfl, ?_⟩
        show task.policy.maxAttempts - (task.attempt + 1) + 2 < task.policy.maxAttempts - task.attempt + 2
        omega

def running (slots : List (Task ⊕ IsolatedOutcome)) : List Nat :=
  (range slots.length).filter fun i => (slots[i]?.bind Sum.getLeft?).isSome

theorem mem_running {slots : List (Task ⊕ IsolatedOutcome)} {i : Nat}
    : i ∈ running slots ↔ ∃ task, slots[i]? = some (.inl task) := by
  unfold running
  rw [mem_filter, mem_range]
  constructor
  . rintro ⟨-, hsome⟩
    obtain ⟨task, htask⟩ := Option.isSome_iff_exists.mp hsome
    obtain ⟨slot, hslot, hleft⟩ := Option.bind_eq_some_iff.mp htask
    rw [Sum.getLeft?_eq_some_iff] at hleft
    exact ⟨task, hleft ▸ hslot⟩
  . rintro ⟨task, htask⟩
    obtain ⟨hi, -⟩ := List.getElem?_eq_some_iff.mp htask
    rw [htask]
    exact ⟨hi, rfl⟩

theorem gathered_of_running {slots : List (Task ⊕ IsolatedOutcome)} (h : running slots = [])
    : (slots.filterMap Sum.getRight?).map (·.id) = slots.map slotId := by
  have hdone : ∀ slot ∈ slots, ∃ outcome, slot = .inr outcome := by
    intro slot hslot
    obtain ⟨i, hi⟩ := getElem?_of_mem hslot
    cases slot with
    | inr outcome => exact ⟨outcome, rfl⟩
    | inl task =>
      have hmem := (mem_running).mpr ⟨task, hi⟩
      rw [h] at hmem
      cases hmem
  clear h
  induction slots with
  | nil => rfl
  | cons slot slots ih =>
    obtain ⟨⟨outcome, rfl⟩, hslots⟩ := forall_mem_cons.mp hdone
    rw [map_cons, ← ih hslots]
    rfl

theorem race_runs (executionId : String) (slots : List (Task ⊕ IsolatedOutcome))
    : (S.completion e).Runs (fun g => e.race executionId g slots)
        (fun outcomes => outcomes.map (·.id) = slots.map slotId) := by
  induction hn : (slots.map effort).sum using Nat.strong_induction_on generalizing slots with
  | h n ih =>
    refine round (n := fun g => if running slots = [] then _ else _) (fun g => rfl) ?_
    by_cases hrunning : running slots = []
    . simp only [if_pos hrunning]
      exact pure (gathered_of_running hrunning)
    . simp only [if_neg hrunning]
      apply bind (pick_runs (length_pos_of_ne_nil hrunning))
      intro k hk
      obtain ⟨task, htask⟩ := (mem_running).mp (getElem_mem hk)
      have hpicked : ((running slots)[k]?.bind fun i => (slots[i]?.bind Sum.getLeft?).map fun task => (i, task))
          = some ((running slots)[k], task) := by
        rw [getElem?_eq_getElem hk, Option.bind_some, htask]
        rfl
      simp only [running] at hpicked
      simp only [hpicked]
      apply bind (advance_runs _ _ _)
      rintro slot ⟨hid, heffort⟩
      have hsum := Tasks.sum_set_lt htask heffort
      have hmap := Tasks.map_set htask hid
      apply post (ih _ (hn ▸ hsum) _ rfl)
      intro outcomes houtcomes
      exact houtcomes.trans hmap

structure Within (p : String → Prop) (go : Nat → Nat × (Task ⊕ IsolatedOutcome)) (f : Engine.FanOut) : Prop where
  inFlight : ∀ x ∈ f.inFlight, p (slotId x.2)
  queue : ∀ i ∈ f.queue, p (slotId (go i).2)
  joined : ∀ x ∈ f.joined, p x.2.id

def remaining (go : Nat → Nat × (Task ⊕ IsolatedOutcome)) (f : Engine.FanOut) : Nat :=
  (f.inFlight.map fun x => effort x.2).sum + (f.queue.map fun i => effort (go i).2).sum

section

variable {p : String → Prop} {go : Nat → Nat × (Task ⊕ IsolatedOutcome)} {f : Engine.FanOut} {k index : Nat}

theorem Within.set {task : Task} {slot : Task ⊕ IsolatedOutcome} (h : Within p go f)
    (hk : f.inFlight[k]? = some (index, .inl task)) (hslot : slotId slot = task.activity.id)
    : Within p go { f with inFlight := f.inFlight.set k (index, slot) } := by
  refine ⟨?_, h.queue, h.joined⟩
  intro x hx
  cases Tasks.mem_set hx with
  | inl hold => exact h.inFlight x hold
  | inr hnew =>
    rw [hnew]
    show p (slotId slot)
    rw [hslot]
    exact h.inFlight _ (Tasks.mem hk)

theorem Within.join {outcome : IsolatedOutcome} (h : Within p go f)
    (hk : f.inFlight[k]? = some (index, .inr outcome)) (spec : ForEachSpec)
    : Within p go (f.join e.platform spec go k index outcome)
        ∧ remaining go (f.join e.platform spec go k index outcome) < remaining go f := by
  have hsum : ((f.inFlight.eraseIdx k).map fun x => effort x.2).sum + 1 = (f.inFlight.map fun x => effort x.2).sum :=
    Tasks.sum_eraseIdx (f := fun x : Nat × (Task ⊕ IsolatedOutcome) => effort x.2) hk
  have hflight : ∀ x ∈ f.inFlight.eraseIdx k, p (slotId x.2) :=
    fun x hx => h.inFlight x (mem_of_mem_eraseIdx hx)
  have hjoined : ∀ x ∈ f.joined ++ [(index, outcome)], p x.2.id := by
    intro x hx
    cases mem_append.mp hx with
    | inl hold => exact h.joined x hold
    | inr hnew =>
      rw [mem_singleton.mp hnew]
      exact h.inFlight _ (Tasks.mem hk)
  unfold Engine.FanOut.join
  dsimp only
  split
  . next next queue _ hqueue =>
    have hmem := h.queue
    rw [hqueue] at hmem
    obtain ⟨hnext, hrest⟩ := forall_mem_cons.mp hmem
    refine ⟨⟨?_, hrest, hjoined⟩, ?_⟩
    . intro x hx
      cases mem_append.mp hx with
      | inl hold => exact hflight x hold
      | inr hnew =>
        rw [mem_singleton.mp hnew]
        exact hnext
    . unfold remaining
      dsimp only
      rw [hqueue, map_append, sum_append, map_cons, map_cons, map_nil, sum_cons,
        sum_cons, sum_nil]
      omega
  . refine ⟨⟨hflight, h.queue, hjoined⟩, ?_⟩
    unfold remaining
    dsimp only
    omega

theorem fanOut_runs (executionId : String) (spec : ForEachSpec) (h : Within p go f)
    : (S.completion e).Runs (fun g => e.fanOut executionId spec go g f) (fun f' => ∀ x ∈ f'.joined, p x.2.id) := by
  induction hn : remaining go f using Nat.strong_induction_on generalizing f with
  | h n ih =>
    refine round (n := fun g => if f.inFlight = [] then _ else _) (fun g => rfl) ?_
    by_cases hempty : f.inFlight = []
    . simp only [if_pos hempty]
      exact pure h.joined
    . simp only [if_neg hempty]
      apply bind (pick_runs (length_pos_of_ne_nil hempty))
      intro k hk
      cases hslot : f.inFlight[k]? with
      | none =>
        rw [getElem?_eq_getElem hk] at hslot
        cases hslot
      | some slot =>
        obtain ⟨index, slot⟩ := slot
        cases slot with
        | inl task =>
          apply bind (advance_runs _ _ _)
          rintro slot ⟨hid, heffort⟩
          have hsum := Tasks.sum_set_lt (f := fun x : Nat × (Task ⊕ IsolatedOutcome) => effort x.2)
            (y := (index, slot)) hslot heffort
          refine ih _ ?_ (h.set hslot hid) rfl
          rw [← hn]
          exact Nat.add_lt_add_right hsum _
        | inr outcome =>
          obtain ⟨hwithin, hless⟩ := h.join (e := e) hslot spec
          exact ih _ (hn ▸ hless) hwithin rfl

end

section

variable {outcome : IsolatedOutcome}

theorem commitFailure_runs (hs : S.Covers e s.executionId) (hfresh : S.Fresh s outcome.id) (h : Follows s t)
    (msg : String) : (S.completion e).Runs (fun _ => e.commitFailure t outcome msg) (Follows s) := by
  unfold Engine.commitFailure
  apply recordOf_runs fun hcut => h.has _ (hfresh.has hcut)
  intro record _
  have hset (r : ActivityRecord) := h.setRecord (r := r) (.inl hfresh.unfinished)
  apply bind (emit_runs _ _)
  rintro _ ⟨version, rfl⟩
  have hsaved := fun r => (hset r).version version
  exact bind (checkpoint_runs (hs.follows (hsaved _))) fun _ _ => pure (hsaved _)

theorem commitInterrupt_runs (hs : S.Covers e s.executionId) (hfresh : S.Fresh s outcome.id) (h : Follows s t)
    : (S.completion e).Runs (fun _ => e.commitInterrupt t outcome) (Follows s) := by
  unfold Engine.commitInterrupt
  have hset := h.setActivity hfresh.unfinished .ready
  exact bind (checkpoint_runs (hs.follows hset)) fun _ _ => pure hset

theorem commitItem_runs (hs : S.Covers e s.executionId) (hfresh : S.Fresh s outcome.id) (h : Follows s t)
    (v : Engine.Verdicts) (index : Nat)
    : (S.completion e).Runs (fun _ => e.commitItem t v index outcome) (fun r => Follows s r.1) := by
  unfold Engine.commitItem
  apply bind (emitAll_runs _ _)
  rintro _ ⟨version, rfl⟩
  have hrunning := (h.setActivity hfresh.unfinished .running).version version
  cases outcome.result with
  | completed output =>
    apply recordOf_runs fun hcut => hrunning.has _ (hfresh.has hcut)
    intro record _
    have hset (r : ActivityRecord) := hrunning.setRecord (r := r) (.inl hfresh.unfinished)
    exact saved_runs _ (hs.follows (hset _)) fun version => (hset _).version version
  | failed msg =>
    apply bind (commitFailure_runs hs hfresh hrunning msg)
    exact fun _ hu => pure hu
  | interrupted msg =>
    apply bind (commitInterrupt_runs hs hfresh hrunning)
    exact fun _ hu => pure hu

theorem commitItems_runs (hs : S.Covers e s.executionId) {outcomes : List (Nat × IsolatedOutcome)}
    (hfresh : ∀ x ∈ outcomes, S.Fresh s x.2.id) (h : Follows s t) (v : Engine.Verdicts)
    : (S.completion e).Runs (fun _ => e.commitItems t v outcomes) (fun r => Follows s r.1) := by
  induction outcomes generalizing t v with
  | nil => exact pure h
  | cons x outcomes ih =>
    obtain ⟨hx, houtcomes⟩ := forall_mem_cons.mp hfresh
    unfold Engine.commitItems
    apply bind (commitItem_runs hs hx h v x.1)
    rintro ⟨u, v'⟩ hu
    exact ih houtcomes hu v'

theorem finishForEach_runs {a : ActivityDef} (hs : S.Covers e s.executionId) (hfresh : S.Fresh s a.id)
    (h : Follows s t) (items : List Value) (f : Engine.FanOut) (v : Engine.Verdicts)
    : (S.completion e).Runs (fun _ => e.finishForEach t a items f v) (Came s a.id) := by
  unfold Engine.finishForEach
  split
  . exact failOnce_runs hs hfresh h _
  . exact failOnce_runs hs hfresh h _
  . exact suspend_runs hs hfresh h .ready _
  . exact completeForEach_runs hs hfresh (h.removeVariable _) _

def Clean (v : Engine.Verdicts) : Prop :=
  v.failure = none ∧ v.interrupt = none

theorem commitActivity_runs (hs : S.Covers e s.executionId) (hfresh : S.Fresh s outcome.id) (h : Follows s t)
    (v : Engine.Verdicts)
    : (S.completion e).Runs (fun _ => e.commitActivity t v outcome)
        (fun r => Follows s r.1 ∧ (Clean r.2 → r.1.Completed outcome.id)) := by
  unfold Engine.commitActivity
  apply bind (emitAll_runs _ _)
  rintro _ ⟨version, rfl⟩
  have hrunning := (h.setActivity hfresh.unfinished .running).version version
  cases outcome.result with
  | completed output =>
    apply recordOf_runs fun hcut => hrunning.has _ (hfresh.has hcut)
    intro record _
    have hcomplete := hrunning.complete outcome.id { record with attempts := outcome.attempts } output
    unfold Engine.completeActivity
    apply bind (q := fun r : ExecutionState × Step => Follows s r.1 ∧ r.1.Completed outcome.id)
    . exact saved_runs _ (hs.follows hcomplete) fun version =>
        ⟨hcomplete.version version, ExecutionState.completed_complete _ outcome.id _ output⟩
    . rintro ⟨u, step⟩ ⟨hu, hcompleted⟩
      exact pure ⟨hu, fun _ => hcompleted⟩
  | failed msg =>
    apply bind (commitFailure_runs hs hfresh hrunning msg)
    intro u hu
    refine pure ⟨hu, ?_⟩
    rintro ⟨hfailure, -⟩
    cases hv : v.failure <;> simp [Engine.Verdicts.fail, hv] at hfailure
  | interrupted msg =>
    apply bind (commitInterrupt_runs hs hfresh hrunning)
    intro u hu
    refine pure ⟨hu, ?_⟩
    rintro ⟨-, hinterrupt⟩
    cases hv : v.interrupt <;> simp [Engine.Verdicts.suspend, hv] at hinterrupt

theorem commitActivities_runs (hs : S.Covers e s.executionId) {outcomes : List IsolatedOutcome}
    (hfresh : ∀ o ∈ outcomes, S.Fresh s o.id) (h : Follows s t) (v : Engine.Verdicts)
    : (S.completion e).Runs (fun _ => e.commitActivities t v outcomes)
        (fun r => Follows s r.1 ∧ (outcomes ≠ [] → Clean r.2 → ∃ o ∈ outcomes, r.1.Completed o.id)) := by
  induction outcomes generalizing t v with
  | nil => exact pure ⟨h, fun hne => absurd rfl hne⟩
  | cons o outcomes ih =>
    obtain ⟨ho, houtcomes⟩ := forall_mem_cons.mp hfresh
    unfold Engine.commitActivities
    apply bind (commitActivity_runs hs ho h v)
    rintro ⟨u, v'⟩ ⟨hu, hcompleted⟩
    cases outcomes with
    | nil => exact pure ⟨hu, fun _ hclean => ⟨o, mem_cons_self, hcompleted hclean⟩⟩
    | cons o' outcomes =>
      apply post (ih houtcomes hu v')
      rintro r ⟨hr, hlast⟩
      refine ⟨hr, ?_⟩
      intro _ hclean
      obtain ⟨x, hx, hx'⟩ := hlast (cons_ne_nil _ _) hclean
      exact ⟨x, mem_cons_of_mem _ hx, hx'⟩

theorem addInstances_follows (h : Follows s t) (id : String) (indices : List Nat)
    : Follows s (Engine.addInstances id indices t) := by
  induction indices generalizing t with
  | nil => exact h
  | cons index indices ih =>
    unfold Engine.addInstances
    cases hrecord : t.activity? (instanceId id index) with
    | some record => exact ih h
    | none =>
      refine ih (h.setRecord (.inl ?_))
      intro hcompleted
      obtain ⟨record, hkept, -⟩ := h.kept _ hcompleted
      rw [hrecord] at hkept
      cases hkept

theorem isSome_addInstances {id : String} {indices : List Nat} {index : Nat} (hindex : index ∈ indices)
    : ((Engine.addInstances id indices t).activity? (instanceId id index)).isSome = true := by
  induction indices generalizing t with
  | nil => cases hindex
  | cons i indices ih =>
    unfold Engine.addInstances
    cases mem_cons.mp hindex with
    | inr hrest => exact ih hrest
    | inl heq =>
      rw [heq]
      apply (addInstances_follows (Follows.refl _) id indices).has
      cases hrecord : t.activity? (instanceId id i) with
      | some record => exact Option.isSome_of_eq_some hrecord
      | none =>
        show ((t.setRecord (instanceId id i) {}).activity? (instanceId id i)).isSome = true
        rw [ExecutionState.activity?_setRecord_self]
        rfl

theorem fresh_of_pendingItems {id : String} {n index : Nat}
    (h : index ∈ Engine.pendingItems (Engine.addInstances id (range n) t) id n)
    : S.Fresh (Engine.addInstances id (range n) t) (instanceId id index) := by
  unfold Engine.pendingItems at h
  obtain ⟨hrange, hopen⟩ := mem_filter.mp h
  refine ⟨?_, fun _ => isSome_addInstances hrange⟩
  rintro ⟨record, hrecord, hstate⟩
  rw [hrecord, Option.map_some, hstate] at hopen
  cases hopen

theorem runItems_runs {a : ActivityDef} (hs : S.Covers e s.executionId) (hfresh : S.Fresh s a.id)
    (h : Follows s t) (d : Definition) (spec : ForEachSpec) (items : List Value)
    : (S.completion e).Runs (fun g => e.runItems d g t a spec items) (Came s a.id) := by
  unfold Engine.runItems
  have hadded := addInstances_follows h a.id (range items.length)
  have hpending (i : Nat) (hi : i ∈ Engine.pendingItems (Engine.addInstances a.id (range items.length) t) a.id
      items.length) : S.Fresh (Engine.addInstances a.id (range items.length) t) (instanceId a.id i) :=
    fresh_of_pendingItems hi
  generalize Engine.addInstances a.id (range items.length) t = t' at hadded hpending
  dsimp only
  apply bind (q := fun f : Engine.FanOut => ∀ x ∈ f.joined, S.Fresh t' x.2.id)
  . apply fanOut_runs
    refine ⟨?_, fun i hi => hpending i (mem_of_mem_drop hi), nofun⟩
    intro x hx
    obtain ⟨i, hi, rfl⟩ := mem_map.mp hx
    exact hpending i (mem_of_mem_take hi)
  intro f hjoined
  apply bind (q := fun r : ExecutionState × Engine.Verdicts => Follows t' r.1)
  . exact commitItems_runs (hs.follows hadded) (fun x hx => hjoined x (mem_mergeSort.mp hx)) (Follows.refl t') {}
  . rintro ⟨u, v⟩ hu
    exact finishForEach_runs hs hfresh (hadded.trans hu) items f v

theorem runForEach_runs {a : ActivityDef} (hs : S.Covers e s.executionId) (hfresh : S.Fresh s a.id)
    (h : Follows s t) (d : Definition)
    : (S.completion e).Runs (fun g => e.runForEach d g t a) (Came s a.id) := by
  unfold Engine.runForEach
  apply bind (Runs.ofExcept _ fun _ h => h)
  intro spec _
  have hrest (u : ExecutionState) (hu : Follows s u) (items : List Value)
      : (S.completion e).Runs (fun g =>
          if items = [] then e.completeForEach (u.removeVariable (forEachMarker a.id)) a.id []
          else e.runItems d g u a spec items) (Came s a.id) := by
    by_cases hitems : items = []
    . simp only [if_pos hitems]
      exact completeForEach_runs hs hfresh (hu.removeVariable _) []
    . simp only [if_neg hitems]
      exact runItems_runs hs hfresh hu d spec items
  cases e.forEachItems t a spec with
  | error msg => exact failOnce_runs hs hfresh h msg
  | ok x =>
    obtain ⟨isNew, items⟩ := x
    cases isNew with
    | false => exact hrest t h items
    | true =>
      have hmarked := h.setVariable (forEachMarker a.id) (.array items)
      exact bind (checkpoint_runs (hs.follows hmarked)) fun _ _ => hrest _ hmarked items

theorem isSome_batchTasks {d : Definition} {batch : List String}
    (hdeclared : ∀ id ∈ batch, (d.activity id).isSome = true)
    (hhas : ∀ id ∈ batch, (s.activity? id).isSome = true) : (Engine.batchTasks d s batch).isSome = true := by
  induction batch with
  | nil => rfl
  | cons id batch ih =>
    obtain ⟨hid, hbatch⟩ := forall_mem_cons.mp hdeclared
    obtain ⟨hid', hbatch'⟩ := forall_mem_cons.mp hhas
    obtain ⟨a, ha⟩ := Option.isSome_iff_exists.mp hid
    obtain ⟨record, hrecord⟩ := Option.isSome_iff_exists.mp hid'
    obtain ⟨tasks, htasks⟩ := Option.isSome_iff_exists.mp (ih hbatch hbatch')
    unfold Engine.batchTasks
    rw [ha, hrecord, htasks]
    rfl

theorem map_slotId_batchTasks {d : Definition} {batch : List String} {slots : List (Task ⊕ IsolatedOutcome)}
    (h : Engine.batchTasks d s batch = some slots) : slots.map slotId = batch := by
  induction batch generalizing slots with
  | nil =>
    cases h
    rfl
  | cons id batch ih =>
    unfold Engine.batchTasks at h
    split at h
    . next a record tasks ha hrecord htasks =>
      cases h
      rw [map_cons, ih htasks]
      exact congrArg (· :: batch) (Definition.activity_id ha)
    . cases h

theorem runReadyBatch_runs {d : Definition} {batch : List String} (hs : S.Covers e s.executionId)
    (hdeclared : ∀ id ∈ batch, (d.activity id).isSome = true) (hfresh : ∀ id ∈ batch, S.Fresh s id)
    (hne : batch ≠ [])
    : (S.completion e).Runs (fun g => e.runReadyBatch d g s batch)
        (fun r => Follows s r.1 ∧ (r.2 = .allSettled → ∃ id ∈ batch, r.1.Completed id)) := by
  unfold Engine.runReadyBatch
  apply bind (q := fun slots => slots.map slotId = batch)
  . apply ofOption
    . exact fun slots hslots => map_slotId_batchTasks hslots
    . exact fun hcut => isSome_batchTasks hdeclared fun id hid => (hfresh id hid).has hcut
  intro slots hslots
  apply bind (race_runs s.executionId slots)
  intro outcomes houtcomes
  rw [hslots] at houtcomes
  have hids : ∀ o ∈ outcomes, o.id ∈ batch := fun o ho => houtcomes ▸ mem_map_of_mem ho
  apply bind (commitActivities_runs hs (fun o ho => hfresh o.id (hids o ho)) (Follows.refl s) {})
  rintro ⟨u, v⟩ ⟨hu, hlast⟩
  dsimp only
  split
  . exact pure ⟨hu, nofun⟩
  . exact pure ⟨hu, nofun⟩
  . next hfailure hinterrupt =>
    refine pure ⟨hu, fun _ => ?_⟩
    have houtcome : outcomes ≠ [] := by
      rintro rfl
      exact hne houtcomes.symm
    obtain ⟨o, ho, hcompleted⟩ := hlast houtcome ⟨hfailure, hinterrupt⟩
    exact ⟨o.id, hids o ho, hcompleted⟩

end

end

end Wovyr.Workflow.Scope
