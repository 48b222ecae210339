import Wovyr.Workflow.Course.Drive
import Wovyr.Workflow.Termination

/-!
This module contains the proof that an execution comes to its end with all of its children, since each of them
is deeper than its parent or was left open before.
-/

namespace Wovyr

open Completion Completes

namespace Workflow

def Definition.Handled (d : Definition) : Prop :=
  ∀ a ∈ d.spec.activities, ∀ handler, a.compensate = some handler → (d.activity handler).isSome = true

namespace Scope

variable {ω : Type} {e : Engine ω} {S : Scope} {d : Definition} {s t : ExecutionState}

theorem transition_runs (s : ExecutionState) (target : WorkflowState) (event : WorkflowEvent)
    : (S.completion e).Runs (fun _ => e.transition s target event)
        (fun t => ∃ version, t = { s with status := target, version }) := by
  unfold Engine.transition
  split
  . exact emit_runs _ _
  . exact Runs.fail _

theorem runCompensation_runs (hanswers : ¬S.cut → Answering e) {a : ActivityDef} (policy : RetryPolicy)
    (attempts : Nat) (hhas : ¬S.cut → (s.activity? a.id).isSome = true)
    : (S.completion e).Runs (fun g => e.runCompensation a policy g attempts s) (fun r => Follows s r.1) := by
  induction hn : policy.maxAttempts - attempts using Nat.strong_induction_on generalizing attempts with
  | h n ih =>
    apply Runs.round (n := fun g => _) (fun g => rfl)
    apply Runs.bind (callExecutor_runs _ _ _)
    rintro ⟨progress, reply⟩ ⟨x, hreply⟩
    cases reply with
    | panic reason =>
      apply Runs.halt
      apply Classical.byContradiction
      exact fun hcut => hanswers hcut x _ reason hreply.symm
    | output output =>
      apply recordOf_runs hhas
      intro record _
      exact Runs.pure (((Follows.refl s).setRecord (.inr rfl)).setVariable _ _)
    | error err =>
      cases err with
      | interrupted msg => exact Runs.pure (Follows.refl s)
      | permanent msg => exact Runs.pure (Follows.refl s)
      | retryable msg =>
        by_cases hleft : attempts + 1 < policy.maxAttempts
        . simp only [if_pos hleft]
          exact ih _ (by omega) (attempts + 1) rfl
        . simp only [if_neg hleft]
          exact Runs.pure (Follows.refl s)

theorem rollback_runs (hanswers : ¬S.cut → Answering e) (hwhole : ¬S.cut → Whole d s)
    (hs : S.Covers e s.executionId) (error : String) {plan : List (String × String)}
    (hplan : ¬S.cut → ∀ x ∈ plan, (d.activity x.2).isSome = true) (h : Follows s t)
    : (S.completion e).Runs (fun g => e.rollback d g error plan t) (fun r => r.2 ≠ .completed) := by
  induction plan generalizing t with
  | nil =>
    unfold Engine.rollback
    apply Runs.bind (transition_runs _ _ _)
    rintro _ ⟨version, rfl⟩
    have hfailed := (h.status .failed).version version
    exact Runs.bind (checkpoint_runs (hs.follows hfailed)) fun _ _ => Runs.pure (by simp)
  | cons x plan ih =>
    unfold Engine.rollback
    apply Runs.bind (q := fun a => a ∈ d.spec.activities)
    . apply Runs.ofOption
      . exact fun a ha => Definition.activity_mem ha
      . exact fun hcut => hplan hcut x List.mem_cons_self
    intro a ha
    apply Runs.bind (runCompensation_runs hanswers _ 0 fun hcut => (hwhole hcut).follows h a ha)
    rintro ⟨u, result⟩ hu
    have hfollows := h.trans hu
    cases result with
    | ok =>
      apply Runs.bind (emit_runs _ _)
      rintro _ ⟨version, rfl⟩
      have hemitted := hfollows.version version
      refine Runs.bind (checkpoint_runs (hs.follows hemitted)) fun _ _ => ih ?_ hemitted
      exact fun hcut y hy => hplan hcut y (List.mem_cons_of_mem _ hy)
    | error compErr =>
      apply Runs.bind (emit_runs _ _)
      rintro _ ⟨version, rfl⟩
      refine Runs.bind (checkpoint_runs (hs.follows (hfollows.version version))) fun _ _ => ?_
      exact Runs.pure (by simp)

theorem markFailed_runs (hs : S.Covers e s.executionId) (h : Follows s t) (error : String)
    : (S.completion e).Runs (fun _ => e.markFailed t error) (Follows s) := by
  unfold Engine.markFailed
  split
  . apply Runs.bind (transition_runs _ _ _)
    rintro _ ⟨version, rfl⟩
    have hfailed := (h.status .failed).version version
    exact Runs.bind (checkpoint_runs (hs.follows hfailed)) fun _ _ => Runs.pure hfailed
  . exact Runs.pure h

theorem handled_rollbackPlan (hhandled : d.Handled) {x : String × String} (hx : x ∈ Engine.rollbackPlan d s)
    : (d.activity x.2).isSome = true := by
  obtain ⟨id, -, hid⟩ := List.mem_filterMap.mp hx
  obtain ⟨handler, hhandler, rfl⟩ := Option.map_eq_some_iff.mp hid
  obtain ⟨a, ha, hcompensate⟩ := Option.bind_eq_some_iff.mp hhandler
  exact hhandled a (Definition.activity_mem ha) handler hcompensate

theorem compensate_runs (hanswers : ¬S.cut → Answering e) (hhandled : ¬S.cut → d.Handled)
    (hwhole : ¬S.cut → Whole d s) (hs : S.Covers e s.executionId) (h : Follows s t) (error : String)
    : (S.completion e).Runs (fun g => e.compensate d g t error) (fun r => r.1 ≠ .completed) := by
  unfold Engine.compensate
  apply Runs.bind (markFailed_runs hs h error)
  intro u hu
  by_cases hplan : Engine.rollbackPlan d u = []
  . simp only [if_pos hplan]
    exact Runs.pure nofun
  . simp only [if_neg hplan]
    apply Runs.bind (transition_runs _ _ _)
    rintro _ ⟨version, rfl⟩
    have hcompensating := (hu.status .compensating).version version
    refine Runs.bind (checkpoint_runs (hs.follows hcompensating)) fun _ _ => ?_
    apply Runs.bind (rollback_runs hanswers hwhole hs error ?_ hcompensating)
    . rintro ⟨v, outcome⟩ houtcome
      exact Runs.pure houtcome
    . exact fun hcut x hx => handled_rollbackPlan (hhandled hcut) hx

theorem interrupt_runs (hs : S.Covers e s.executionId) (h : Follows s t) (activity msg : String)
    : (S.completion e).Runs (fun _ => e.interrupt t activity msg) (fun r => r.1 ≠ .completed) := by
  unfold Engine.interrupt
  apply Runs.bind (emit_runs _ _)
  rintro _ ⟨version, rfl⟩
  exact Runs.bind (checkpoint_runs (hs.follows (h.version version))) fun _ _ => Runs.pure nofun

def loose (S : Scope) : Scope :=
  { S with pending := fun _ _ => True }

theorem Holds.loose {st : Store} (h : S.Holds e st) : S.loose.Holds e st :=
  ⟨h.keyed, fun _ _ _ _ _ => trivial, h.frame⟩

theorem Covers.loose {executionId : String} (h : S.Covers e executionId) : S.loose.Covers e executionId :=
  h

theorem Fresh.loose {id : String} (h : S.Fresh s id) : S.loose.Fresh s id :=
  ⟨h.unfinished, h.has⟩

theorem lift_runs {α : Type} {m : Nat → Action ω α} {q : α → Prop} (h : (S.completion e).Runs m q)
    : (S.loose.completion e).Completes (fun w => S.Holds e w.store) m (fun a w => q a ∧ S.Holds e w.store) := by
  have hnarrow := narrow (C := S.loose.completion e) (I := fun w => S.Holds e w.store)
    (fun _ hw => hw.loose) h
  exact pre (fun _ _ hw => ⟨trivial, hw⟩) hnarrow

theorem lower_runs {α : Type} {m : Nat → Action ω α} {q : α → Prop} {P : World ω → Prop}
    {Q : α → World ω → Prop} (h : (S.loose.completion e).Runs m q) (hq : ∀ a w, q a → Q a w)
    : (S.loose.completion e).Completes P m Q :=
  post (pre (fun _ _ _ => trivial) h) fun a w _ => hq a w

structure Sure (e : Engine ω) (S : Scope) : Prop where
  answers : Answering e
  handled : ∀ a child, e.Resolves a child → child.Handled
  whole : ∀ k t a child, S.pending k t → e.Resolves a child → Engine.pinned child t = true → Whole child t

def Driven (S : Scope) (e : Engine ω) (r : RunOutcome × ExecutionState) (w : World ω) : Prop :=
  r.1 = .completed →
    S.Holds e w.store ∧ ∃ u, w.checkpoints[S.key]? = some u ∧ u.status.isTerminal = true

def Drives (S : Scope) (e : Engine ω) (d : Definition) (s : ExecutionState) : Prop :=
  (S.loose.completion e).Completes (fun w => S.Holds e w.store) (fun g => e.drive g d s) (S.Driven e)

def Nests (S : Scope) (e : Engine ω) (executionId : String) : Prop :=
  ∀ t a child, t.executionId = executionId → e.Resolves a child →
    Engine.separators (Engine.childId t a).toList ≤ e.maxSubworkflowDepth →
    (S.loose.completion e).Completes (fun w => S.Holds e w.store)
      (fun g => e.runChild (e.drive g) child (Engine.childId t a) a.inputs)
      (fun r w => r.1 = .completed → S.Holds e w.store)

def Stepped (S : Scope) (e : Engine ω) (s : ExecutionState) (id : String) (r : ExecutionState × Step)
    (w : World ω) : Prop :=
  Came s id r ∧ (r.2 = .completed → S.Holds e w.store)

theorem stalls_completes {m : Nat → Action ω (ExecutionState × Step)} {P : World ω → Prop} (id : String)
    (h : (S.loose.completion e).Runs m (Stalled s)) : (S.loose.completion e).Completes P m (S.Stepped e s id) :=
  lower_runs h fun _ _ hr => ⟨hr.came id, fun hcompleted => absurd hcompleted hr.2⟩

theorem settleChild_completes {a : ActivityDef} (hs : S.Covers e s.executionId) (hfresh : S.Fresh s a.id)
    (childName : String) (outcome : RunOutcome) (child : ExecutionState)
    : (S.loose.completion e).Completes (fun w => outcome = .completed → S.Holds e w.store)
        (fun _ => e.settleChild s a childName outcome child) (S.Stepped e s a.id) := by
  unfold Engine.settleChild
  cases outcome with
  | completed =>
    apply pre (fun _ _ h => h rfl)
    apply post
    . exact lift_runs (recordOf_runs hfresh.has fun record _ =>
        completeActivity_runs hs (Follows.refl s) record (childResult child))
    . exact fun r w _ hr => ⟨hr.1, fun _ => hr.2⟩
  | failed msg | compensated msg =>
    exact stalls_completes a.id (failOnce_stalls hs.loose hfresh.loose (Follows.refl s) _)
  | interrupted msg => exact stalls_completes a.id (suspend_stalls hs.loose hfresh.loose (Follows.refl s) .ready _)

theorem runSubworkflow_completes (hnests : S.Nests e s.executionId) {a : ActivityDef}
    (htype : a.activityType = "workflow") (hs : S.Covers e s.executionId) (hfresh : S.Fresh s a.id)
    : (S.loose.completion e).Completes (fun w => S.Holds e w.store) (fun g => e.runSubworkflow (e.drive g) s a)
        (S.Stepped e s a.id) := by
  unfold Engine.runSubworkflow
  cases hresolver : e.subworkflows with
  | none => exact fail _
  | some resolver =>
    cases hname : a.name with
    | none => exact fail _
    | some childName =>
      apply bind (Q := fun found w =>
        S.Holds e w.store ∧ ∃ x, resolver x childName = found)
      . exact gets _ (fun _ _ => rfl) fun w _ hw => ⟨hw, w.executor, rfl⟩
      intro found
      apply given (fun _ _ h => h.2)
      rintro ⟨x, hfound⟩
      apply pre (fun _ _ h => h.1)
      cases found with
      | none => exact fail _
      | some child =>
        by_cases hdepth : e.maxSubworkflowDepth < Engine.separators (Engine.childId s a).toList
        . simp only [if_pos hdepth]
          exact stalls_completes a.id (failOnce_stalls hs.loose hfresh.loose (Follows.refl s) _)
        . simp only [if_neg hdepth]
          have hchild : e.Resolves a child := ⟨htype, resolver, x, childName, hresolver, hname, hfound⟩
          apply bind (hnests s a child rfl hchild (Nat.le_of_not_lt hdepth))
          rintro ⟨outcome, childState⟩
          exact settleChild_completes hs hfresh childName outcome childState

theorem runActivity_completes (hsure : ¬S.cut → S.Sure e) (hnests : S.Nests e s.executionId)
    (hs : S.Covers e s.executionId) {id : String} (hdeclared : (d.activity id).isSome = true)
    (hfresh : S.Fresh s id)
    : (S.loose.completion e).Completes (fun w => S.Holds e w.store)
        (fun g => e.runActivity (e.drive g) d g s id) (S.Stepped e s id) := by
  obtain ⟨a, ha⟩ := Option.isSome_iff_exists.mp hdeclared
  obtain rfl := Definition.activity_id ha
  unfold Engine.runActivity
  rw [ha]
  have hlift (m : Nat → Action ω (ExecutionState × Step)) (h : (S.completion e).Runs m (Came s a.id))
      : (S.loose.completion e).Completes (fun w => S.Holds e w.store) m (S.Stepped e s a.id) :=
    post (lift_runs h) fun _ _ _ hr => ⟨hr.1, fun _ => hr.2⟩
  show (S.loose.completion e).Completes _ (fun g => if a.activityType = "wait" then _ else _) _
  by_cases hwait : a.activityType = "wait"
  . simp only [if_pos hwait]
    exact hlift _ (runWait_runs hs hfresh (Follows.refl s))
  by_cases hworkflow : a.activityType = "workflow"
  . simp only [if_neg hwait, if_pos hworkflow]
    exact runSubworkflow_completes hnests hworkflow hs hfresh
  by_cases hforEach : isForEach a.activityType = true
  . simp only [if_neg hwait, if_neg hworkflow, if_pos hforEach]
    exact hlift _ (runForEach_runs hs hfresh (Follows.refl s) d)
  . simp only [if_neg hwait, if_neg hworkflow, if_neg hforEach]
    exact hlift _ (runAttempts_runs (fun hcut => (hsure hcut).answers) _ hs hfresh (Follows.refl s))

def unfinished (as : List ActivityDef) (s : ExecutionState) : Nat :=
  as.countP fun a => ((s.activity? a.id).map (·.state)) != some .completed

theorem completed_iff {id : String} : s.Completed id ↔ (s.activity? id).map (·.state) = some .completed := by
  rw [Option.map_eq_some_iff]
  rfl

theorem unfinished_le (h : Follows s t) (as : List ActivityDef) : unfinished as t ≤ unfinished as s := by
  apply List.countP_mono_left
  intro a _ ha
  rw [bne_iff_ne] at ha ⊢
  exact fun hcompleted => ha ((completed_iff).mp (h.kept a.id ((completed_iff).mpr hcompleted)))

theorem unfinished_lt (h : Follows s t) {as : List ActivityDef} {a : ActivityDef} (ha : a ∈ as)
    (hopen : ¬s.Completed a.id) (hdone : t.Completed a.id) : unfinished as t < unfinished as s := by
  obtain ⟨before, after, rfl⟩ := List.append_of_mem ha
  have hbefore := unfinished_le h before
  have hafter := unfinished_le h after
  rw [completed_iff] at hopen hdone
  unfold unfinished at hbefore hafter ⊢
  rw [List.countP_append, List.countP_append, List.countP_cons_of_neg, List.countP_cons_of_pos]
  . omega
  . exact bne_iff_ne.mpr hopen
  . rw [hdone]
    exact fun hne => bne_iff_ne.mp hne rfl

theorem finish_completes (hs : S.Covers e s.executionId)
    : (S.loose.completion e).Completes (fun w => S.Holds e w.store) (fun _ => e.finish s) (S.Driven e) := by
  unfold Engine.finish
  apply bind (lift_runs (transition_runs s .completed .workflowCompleted))
  intro t
  apply given (fun _ _ h => h.1)
  rintro ⟨version, ht⟩
  apply pre (fun _ _ h => h.2)
  have hs' : S.Covers e t.executionId := ht ▸ hs
  apply bind (Q := fun _ w => S.Holds e w.store ∧ w.checkpoints[S.key]? = some t)
  . apply pay (C := S.loose.completion e) (f := (·.save e t)) (fun _ _ => rfl)
    . exact fun w hw => Holds.save hw hs'.loose
    . intro w _ hw
      refine ⟨hw.save hs', ?_⟩
      unfold World.save
      rw [Map.getElem?_insert]
      exact if_pos hs'
  . intro _
    apply Completes.pure
    exact fun w _ hw _ => ⟨hw.1, t, hw.2, ht ▸ rfl⟩

theorem fresh_of_isReady {id : String} (h : e.isReady d s id = some true) : S.Fresh s id := by
  obtain ⟨⟨record, hrecord, hsettled⟩, -⟩ := decided_of_isReady h
  refine ⟨?_, fun _ => Option.isSome_of_eq_some hrecord⟩
  rintro ⟨record', hrecord', hstate⟩
  rw [hrecord] at hrecord'
  cases hrecord'
  rw [hstate] at hsettled
  cases hsettled

theorem ready_of_readyBatch {batch : List String} (h : e.readyBatch d s = some batch)
    : ∀ id ∈ batch, ∃ a ∈ Engine.forward d, a.id = id ∧ e.isReady d s id = some true := by
  unfold Engine.readyBatch at h
  obtain ⟨-, hmem⟩ := filterMapM_sublist (g := fun a : ActivityDef => a.id) (by
    intro a id hid
    obtain ⟨ready, -, hready⟩ := Option.map_eq_some_iff.mp hid
    split at hready
    . exact (Option.some.inj hready).symm
    . cases hready) h
  intro id hid
  obtain ⟨a, ha, hready⟩ := hmem id hid
  obtain ⟨ready, hisReady, heq⟩ := Option.map_eq_some_iff.mp hready
  split at heq
  . next htrue =>
    cases heq
    rw [htrue] at hisReady
    exact ⟨a, List.mem_of_mem_filter ha, rfl, hisReady⟩
  . cases heq

theorem isSome_activity {a : ActivityDef} (ha : a ∈ Engine.forward d) : (d.activity a.id).isSome = true := by
  unfold Definition.activity
  rw [List.find?_isSome]
  exact ⟨a, (mem_forward ha).1, beq_self_eq_true a.id⟩

theorem isSome_isReady {id : String} (h : (s.activity? id).isSome = true) : (e.isReady d s id).isSome = true := by
  unfold Engine.isReady
  rw [Option.isSome_map]
  exact h

theorem isSome_filterMapM {α β : Type} {f : α → Option (Option β)} {xs : List α}
    (h : ∀ x ∈ xs, (f x).isSome = true) : (xs.filterMapM f).isSome = true := by
  induction xs with
  | nil => rfl
  | cons x xs ih =>
    obtain ⟨hx, hxs⟩ := List.forall_mem_cons.mp h
    obtain ⟨found, hfound⟩ := Option.isSome_iff_exists.mp hx
    obtain ⟨ys, hys⟩ := Option.isSome_iff_exists.mp (ih hxs)
    rw [List.filterMapM_cons, hfound, hys]
    cases found <;> rfl

theorem whole_decides (h : Whole d s) : (Engine.forwardComplete d s).isSome = true
    ∧ (e.nextReady d s).isSome = true ∧ (e.readyBatch d s).isSome = true := by
  have hhas (a : ActivityDef) (ha : a ∈ Engine.forward d) := h a (mem_forward ha).1
  refine ⟨?_, firstId_isSome fun a ha => isSome_isReady (hhas a ha), ?_⟩
  . unfold Engine.forwardComplete
    rw [Option.isSome_map]
    apply firstId_isSome
    intro a ha
    rw [Option.isSome_map]
    exact hhas a ha
  . unfold Engine.readyBatch
    apply isSome_filterMapM
    intro a ha
    rw [Option.isSome_map]
    exact isSome_isReady (hhas a (List.mem_of_mem_filter ha))

theorem lift_ofOption {α : Type} (o : Option α) (hsome : ¬S.cut → o.isSome = true)
    : (S.loose.completion e).Completes (fun w => S.Holds e w.store) (fun _ => (Prog.ofOption o : Action ω α))
        (fun a w => o = some a ∧ S.Holds e w.store) :=
  lift_runs (Runs.ofOption o (fun _ h => h) hsome)

section

structure Ready (S : Scope) (e : Engine ω) (d : Definition) (s : ExecutionState) : Prop where
  covers : S.Covers e s.executionId
  sure : ¬S.cut → S.Sure e
  handled : ¬S.cut → d.Handled
  whole : ¬S.cut → Whole d s

theorem Ready.follows (h : S.Ready e d s) (hfollows : Follows s t) : S.Ready e d t :=
  { h with
    covers := h.covers.follows hfollows
    whole := fun hcut => (h.whole hcut).follows hfollows }

def GoesOn (S : Scope) (e : Engine ω) (d : Definition) (s : ExecutionState) : Prop :=
  ∀ t, Follows s t → (∃ a ∈ Engine.forward d, ¬s.Completed a.id ∧ t.Completed a.id) → S.Drives e d t

variable (h : S.Ready e d s)

include h

theorem compensate_driven (hfollows : Follows s t) (error : String) {P : World ω → Prop}
    : (S.loose.completion e).Completes P (fun g => e.compensate d g t error) (S.Driven e) :=
  lower_runs (compensate_runs (S := S.loose) (fun hcut => (h.sure hcut).answers) h.handled h.whole h.covers.loose
    hfollows error) fun _ _ hr hcompleted => absurd hcompleted hr

theorem interrupt_driven (hfollows : Follows s t) (activity msg : String) {P : World ω → Prop}
    : (S.loose.completion e).Completes P (fun _ => e.interrupt t activity msg) (S.Driven e) :=
  lower_runs (interrupt_runs h.covers.loose hfollows activity msg) fun _ _ hr hcompleted => absurd hcompleted hr

theorem batch_driven (hgoes : S.GoesOn e d s) {batch : List String} (hbatch : e.readyBatch d s = some batch)
    (hseveral : 1 < batch.length)
    : (S.loose.completion e).Completes (fun w => S.Holds e w.store) (fun g => do
        let (state, step) ← e.runReadyBatch d g s batch
        match step with
        | .allSettled => e.drive g d state
        | .failed msg => e.compensate d g state msg
        | .interrupted activity msg => e.interrupt state activity msg) (S.Driven e) := by
  have hready := ready_of_readyBatch hbatch
  apply bind (lift_runs (runReadyBatch_runs h.covers ?_ ?_ ?_))
  . rintro ⟨t, step⟩
    apply given (fun _ _ h => h.1)
    rintro ⟨ht, hsettled⟩
    cases step with
    | failed msg => exact compensate_driven h ht msg
    | interrupted activity msg => exact interrupt_driven h ht activity msg
    | allSettled =>
      obtain ⟨id, hid, hdone⟩ := hsettled rfl
      obtain ⟨a, ha, rfl, hisReady⟩ := hready id hid
      have hopen := (fresh_of_isReady (S := S) hisReady).unfinished
      exact pre (fun _ _ h => h.2) (hgoes t ht ⟨a, ha, hopen, hdone⟩)
  . intro id hid
    obtain ⟨a, ha, rfl, -⟩ := hready id hid
    exact isSome_activity ha
  . intro id hid
    obtain ⟨a, -, -, hisReady⟩ := hready id hid
    exact fresh_of_isReady hisReady
  . rintro rfl
    cases hseveral

theorem driveOne_driven (hgoes : S.GoesOn e d s) (hnests : S.Nests e s.executionId)
    : (S.loose.completion e).Completes (fun w => S.Holds e w.store) (fun g => e.driveOne (e.drive g) d g s)
        (S.Driven e) := by
  unfold Engine.driveOne
  apply bind (lift_ofOption _ fun hcut => (whole_decides (h.whole hcut)).2.1)
  intro ready
  apply given (fun _ _ h => h.1)
  intro hnext
  apply pre (fun _ _ h => h.2)
  cases ready with
  | none => exact compensate_driven h (Follows.refl s) _
  | some id =>
    obtain ⟨a, ha, rfl, hisReady⟩ := firstId_some hnext
    have hfresh : S.Fresh s a.id := fresh_of_isReady hisReady
    apply bind (runActivity_completes h.sure hnests h.covers (isSome_activity ha) hfresh)
    rintro ⟨t, step⟩
    apply given (fun _ _ h => h.1)
    rintro ⟨ht, hcompleted⟩
    cases step with
    | failed msg => exact compensate_driven h ht msg
    | interrupted msg => exact interrupt_driven h ht a.id msg
    | completed =>
      exact pre (fun _ _ h => h.2 rfl)
        (hgoes t ht ⟨a, ha, hfresh.unfinished, hcompleted rfl⟩)

theorem drive_of_nests (hnests : S.Nests e s.executionId) : S.Drives e d s := by
  induction hn : unfinished (Engine.forward d) s using Nat.strong_induction_on generalizing s with
  | h n ih =>
    apply round (n := fun g => _) (fun g => rfl)
    apply bind (lift_runs (applySkips_runs h.covers h.whole _ (Follows.refl s)))
    intro t
    apply given (fun _ _ h => h.1)
    intro hskips
    apply pre (fun _ _ h => h.2)
    have ht := h.follows hskips
    have hnests' : S.Nests e t.executionId := hskips.executionId ▸ hnests
    have hgoes : S.GoesOn e d t := by
      rintro u hu ⟨a, ha, hopen, hdone⟩
      have hcloser := unfinished_lt hu ha hopen hdone
      have hlast := unfinished_le hskips (Engine.forward d)
      refine ih _ (by omega) (ht.follows hu) ?_ rfl
      rw [hu.executionId]
      exact hnests'
    apply bind (lift_ofOption _ fun hcut => (whole_decides (e := e) (ht.whole hcut)).1)
    intro complete
    apply pre (fun _ _ h => h.2)
    cases complete with
    | true => exact finish_completes ht.covers
    | false =>
      apply bind (lift_ofOption _ fun hcut => (whole_decides (ht.whole hcut)).2.2)
      intro batch
      apply given (fun _ _ h => h.1)
      intro hbatch
      apply pre (fun _ _ h => h.2)
      by_cases hseveral : 1 < batch.length
      . simp only [if_pos hseveral]
        exact batch_driven ht hgoes hbatch hseveral
      . simp only [if_neg hseveral]
        exact driveOne_driven ht hgoes hnests'

end

theorem whole_initialState (d : Definition) (id : String) (input : Value)
    : Whole d (Engine.initialState d id input) := by
  intro a ha
  rw [ExecutionState.activity?_initialState, if_pos (List.mem_map_of_mem ha)]
  rfl

theorem start_runs {id : String} (hs : S.Covers e id) (d : Definition) (input : Value)
    : (S.completion e).Runs (fun _ => e.start d id input) (fun t => t.executionId = id ∧ Whole d t) := by
  unfold Engine.start
  have hstart := Follows.refl (Engine.initialState d id input)
  apply Runs.bind (emit_runs _ _)
  rintro _ ⟨version₁, rfl⟩
  apply Runs.bind (transition_runs _ _ _)
  rintro _ ⟨version₂, rfl⟩
  apply Runs.bind (transition_runs _ _ _)
  rintro _ ⟨version₃, rfl⟩
  apply Runs.bind (transition_runs _ _ _)
  rintro _ ⟨version₄, rfl⟩
  have hrunning := (hstart.status .running).version version₄
  refine Runs.bind (checkpoint_runs hs) fun _ _ => Runs.pure ⟨rfl, ?_⟩
  exact (whole_initialState d id input).follows hrunning

def below (S : Scope) (key : String) (st : Store) : Scope where
  key := key
  pending k t := S.pending k t ∧ key.length < k.length
  before := st
  cut := S.cut

section

variable {key : String} {st st' : Store}

theorem Holds.below (h : S.Holds e st) (hlt : S.key.length < key.length) : (S.below key st).Holds e st := by
  refine ⟨h.keyed, ?_, fun _ _ _ => rfl⟩
  intro k t ht hlength hstatus
  exact ⟨h.known k t ht (hlt.trans hlength) hstatus, hlength⟩

theorem Holds.loose_of_below (h : S.loose.Holds e st) (hlt : S.key.length < key.length)
    (hst : (S.below key st).loose.Holds e st') : S.loose.Holds e st' := by
  refine ⟨hst.keyed, fun _ _ _ _ _ => trivial, ?_⟩
  intro k hlength hne
  rw [hst.frame k (hlength.trans hlt.le)]
  . exact h.frame k hlength hne
  . rintro rfl
    exact absurd hlength (Nat.not_le_of_lt hlt)

theorem Holds.of_below (h : S.Holds e st) (hlt : S.key.length < key.length) (hst : (S.below key st).Holds e st')
    {u : ExecutionState} (hu : st'.checkpoints[key]? = some u) (hstatus : u.status.isTerminal = true)
    : S.Holds e st' := by
  refine ⟨hst.keyed, ?_, (h.loose.loose_of_below hlt hst.loose).frame⟩
  intro k t ht hlength hopen
  by_cases hkey : k = key
  . subst hkey
    rw [hu] at ht
    cases ht
    rw [hstatus] at hopen
    cases hopen
  by_cases hlonger : key.length < k.length
  . exact (hst.known k t ht hlonger hopen).1
  . rw [hst.frame k (Nat.le_of_not_lt hlonger) hkey] at ht
    exact h.known k t ht hlength hopen

end

theorem Sure.below (h : S.Sure e) (key : String) (st : Store) : (S.below key st).Sure e :=
  { h with whole := fun k t a child hpending => h.whole k t a child hpending.1 }

theorem runWith_completes {id : String} (input : Value) (hs : S.Covers e id)
    (hdrive : ∀ s, s.executionId = id → Whole d s → S.Drives e d s)
    : (S.loose.completion e).Completes (fun w => S.Holds e w.store)
        (fun g => e.runWith (e.drive g) d id input) (S.Driven e) := by
  unfold Engine.runWith
  apply bind (lift_runs (start_runs hs d input))
  intro s
  apply given (fun _ _ h => h.1)
  rintro ⟨hid, hwhole⟩
  exact pre (fun _ _ h => h.2) (hdrive s hid hwhole)

theorem resumeWith_completes {id : String} (hs : S.Covers e id) {w₀ : World ω} {s : ExecutionState}
    (hlatest : w₀.latest e id = some s)
    (hdrive : Engine.pinned d s = true → s.status.isTerminal = false → S.Drives e d s)
    : (S.loose.completion e).Completes (fun w => w = w₀ ∧ S.Holds e w.store)
        (fun g => e.resumeWith (e.drive g) d id) (S.Driven e) := by
  unfold Engine.resumeWith
  apply bind (Q := fun found w => (w = w₀ ∧ S.Holds e w.store) ∧ found = some s)
  . apply gets _ (fun _ _ => rfl)
    rintro w _ ⟨rfl, hw⟩
    exact ⟨⟨rfl, hw⟩, hlatest⟩
  intro found
  apply given (fun _ _ h => h.2)
  rintro rfl
  apply pre (fun _ _ h => h.1)
  apply bind (Q := fun _ w => (w = w₀ ∧ S.Holds e w.store) ∧ Engine.pinned d s = true)
  . apply Completes.ofExcept
    exact fun _ w hpinned _ hw => ⟨hw, Contract.pinned_of_assert hpinned⟩
  intro _
  apply given (fun _ _ h => h.2)
  intro hpinned
  apply pre (fun _ _ h => h.1)
  have hopen (hstatus : s.status.isTerminal = false) : (S.loose.completion e).Completes
      (fun w => w = w₀ ∧ S.Holds e w.store) (fun g => e.drive g d s) (S.Driven e) :=
    pre (fun _ _ h => h.2) (hdrive hpinned hstatus)
  cases hstatus : s.status with
  | completed =>
    apply Completes.pure
    rintro w _ ⟨rfl, hw⟩ _
    refine ⟨hw, s, ?_, by rw [hstatus]; rfl⟩
    rw [← hs]
    exact hlatest
  | failed | cancelled =>
    apply Completes.pure
    exact fun _ _ _ => nofun
  | created | validated | scheduled | running | waiting | resumed | compensating =>
    exact hopen (by rw [hstatus]; rfl)

theorem runChild_completes {id : String} (input : Value) (hs : S.Covers e id) (w₀ : World ω)
    (hstarts : ∀ s, s.executionId = id → Whole d s → S.Drives e d s)
    (hresumes : ∀ s, w₀.latest e id = some s → Engine.pinned d s = true → s.status.isTerminal = false →
      S.Drives e d s)
    : (S.loose.completion e).Completes (fun w => w = w₀ ∧ S.Holds e w.store)
        (fun g => e.runChild (e.drive g) d id input) (S.Driven e) := by
  unfold Engine.runChild
  apply bind (Q := fun found w => (w = w₀ ∧ S.Holds e w.store) ∧ w₀.latest e id = found)
  . apply gets _ (fun _ _ => rfl)
    rintro w _ ⟨rfl, hw⟩
    exact ⟨⟨rfl, hw⟩, rfl⟩
  intro found
  apply given (fun _ _ h => h.2)
  intro hlatest
  apply pre (fun _ _ h => h.1)
  cases found with
  | none => exact pre (fun _ _ h => h.2) (runWith_completes input hs hstarts)
  | some s => exact resumeWith_completes hs hlatest (hresumes s hlatest)

theorem nests_of_drives {executionId : String} (hs : S.Covers e executionId) (hsure : ¬S.cut → S.Sure e)
    (hdrives : ∀ (key : String) (st : Store) (d : Definition) (t : ExecutionState), S.key.length < key.length →
      (Engine.separators executionId.toList < Engine.separators t.executionId.toList
        ∧ Engine.separators t.executionId.toList ≤ e.maxSubworkflowDepth) ∨ S.pending key t →
      (S.below key st).Ready e d t → (S.below key st).Drives e d t)
    : S.Nests e executionId := by
  rintro s a child rfl hchild hdepth
  have hlt : S.key.length < (e.backend.key (Engine.childId s a)).length := by
    rw [← hs]
    exact key_childId_length e s a
  have hdeeper : Engine.separators s.executionId.toList < Engine.separators (Engine.childId s a).toList :=
    separators_childId s a
  have hhandled := fun hcut => (hsure hcut).handled a child hchild
  generalize Engine.childId s a = id at *
  apply each
  intro w₀ _ hw₀
  have hready (t : ExecutionState) (hkey : e.backend.key t.executionId = e.backend.key id)
      (hwhole : ¬S.cut → Whole child t) : (S.below (e.backend.key id) w₀.store).Ready e child t :=
    ⟨hkey, fun hcut => (hsure hcut).below _ _, hhandled, hwhole⟩
  have hrun := runChild_completes (S := S.below (e.backend.key id) w₀.store) (d := child) a.inputs
    (show e.backend.key id = e.backend.key id from rfl) w₀
    (by
      rintro t rfl hwhole
      exact hdrives _ _ child t hlt (.inl ⟨hdeeper, hdepth⟩) (hready t rfl fun _ => hwhole))
    (by
      intro t ht hpinned hstatus
      have hpending := hw₀.known _ t ht hlt hstatus
      refine hdrives _ _ child t hlt (.inr hpending) (hready t (hw₀.keyed _ t ht) ?_)
      exact fun hcut => (hsure hcut).whole _ t a child hpending hchild hpinned)
  have hnarrow := narrow (C := S.loose.completion e)
    (I := fun w => (S.below (e.backend.key id) w₀.store).loose.Holds e w.store)
    (fun w hw => hw₀.loose.loose_of_below hlt hw) hrun
  refine pre ?_ (post hnarrow ?_)
  . rintro w _ rfl
    exact ⟨⟨rfl, hw₀.below hlt⟩, (hw₀.below hlt).loose⟩
  . rintro r w _ ⟨hdriven, -⟩ hcompleted
    obtain ⟨hheld, u, hu, hstatus⟩ := hdriven hcompleted
    exact hw₀.of_below hlt hheld hu hstatus

theorem drive_completes (keys : List String) (hkeys : ∀ k t, S.pending k t → k ∈ keys) (h : S.Ready e d s)
    : S.Drives e d s := by
  induction hn : keys.length * (e.maxSubworkflowDepth + 2)
      + (e.maxSubworkflowDepth + 1 - Engine.separators s.executionId.toList)
    using Nat.strong_induction_on generalizing S keys d s with
  | h n ih =>
    apply drive_of_nests h
    apply nests_of_drives h.covers h.sure
    intro key st child t hlt hless hready
    have hleft : (keys.filter fun k => key.length < k.length).length ≤ keys.length := List.length_filter_le _ _
    refine ih _ ?_ (keys.filter fun k => key.length < k.length) ?_ hready rfl
    . rw [← hn]
      cases hless with
      | inl hdeeper =>
        have hmul := Nat.mul_le_mul_right (e.maxSubworkflowDepth + 2) hleft
        omega
      | inr hpending =>
        have hfewer : (keys.filter fun k => key.length < k.length).length < keys.length := by
          rw [List.length_filter_lt_length_iff_exists]
          exact ⟨key, hkeys key t hpending, by simp⟩
        have hmul := Nat.mul_le_mul_right (e.maxSubworkflowDepth + 2) (Nat.succ_le_of_lt hfewer)
        rw [Nat.succ_mul] at hmul
        omega
    . rintro k u ⟨hpending, hlonger⟩
      exact List.mem_filter.mpr ⟨hkeys k u hpending, by simpa using hlonger⟩

end Wovyr.Workflow.Scope
