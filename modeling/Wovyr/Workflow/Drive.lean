import Wovyr.Workflow.Forward

/-!
This module contains the proof that driving an execution to its end, with its rollback and its
children, keeps every contract that does not depend on the status of an execution.
-/

namespace Wovyr.Workflow.Contract

open Keeping Keeps Engine

variable {ω : Type} {e : Engine ω}

structure Closed (K : Contract e) : Prop where
  status : ∀ w d s target, K.inv w → K.good w d s → K.good w d { s with status := target }
  skip : ∀ w d s, K.inv w → K.good w d s →
    K.good w d { s with activities := s.activities.map fun _ record => skipOpen record }
  child : ∀ w d s a resolver childName child, K.inv w → K.good w d s →
    d.activity a.id = some a → a.activityType = "workflow" →
    e.subworkflows = some resolver → a.name = some childName →
    (∃ w', K.inv w' ∧ resolver w'.executor childName = some child) →
    separators (childId s a).toList ≤ e.maxSubworkflowDepth →
    K.good w child (initialState child (childId s a) a.inputs)
      ∧ ∀ t, w.latest e (childId s a) = some t → K.good w child t

variable {K : Contract e} {d : Definition} {s : ExecutionState}

theorem transition_keeps {target : WorkflowState}
    (hstatus : ∀ w, K.inv w → K.good w d s → K.good w d { s with status := target })
    (event : WorkflowEvent)
    : K.Keeps (K.Good d s) (e.transition s target event) (fun t => K.Good d t) := by
  unfold transition
  split
  . exact pre hstatus (emit_keeps event)
  . exact fail _

theorem start_keeps (hK : K.Closed) (executionId : String) (input : Value)
    : K.Keeps (K.Good d (initialState d executionId input)) (e.start d executionId input)
        (fun t => K.Good d t) := by
  unfold start
  apply Keeps.bind (emit_keeps _)
  intro created
  apply Keeps.bind (transition_keeps (fun w => hK.status w d _ _) _)
  intro validated
  apply Keeps.bind (transition_keeps (fun w => hK.status w d _ _) _)
  intro scheduled
  apply Keeps.bind (transition_keeps (fun w => hK.status w d _ _) _)
  intro running
  apply Keeps.bind checkpoint_keeps
  intro _
  exact Keeps.pure _ fun _ _ h => h

theorem runCompensation_keeps {a : ActivityDef} (ha : d.activity a.id = some a) (policy : RetryPolicy)
    (gas attempts : Nat)
    : K.Keeps (K.Good d s) (e.runCompensation a policy gas attempts s) (K.Yields d) := by
  induction gas generalizing attempts with
  | zero => exact halt
  | succ gas ih =>
    unfold runCompensation
    apply Keeps.bind (callExecutor_keeps true (.declared ha _))
    rintro ⟨progress, reply⟩
    dsimp only
    split
    . exact halt
    next output =>
      apply recordOf_keeps a.id
      intro record hrecord
      apply Keeps.pure
      intro w hinv h
      have hearned : Earned e.platform w d s.executionId a.id output :=
        .inl ⟨a, .declared ha, rfl, h.2 output rfl⟩
      have hset := K.edit w d s _ hinv h.1
        (.record a.id
          { record with state := .completed, attempts := attempts + 1, output := some output }
          (by rw [hrecord]; rfl) fun _ => ⟨output, rfl, hearned⟩)
      exact K.edit w d _ _ hinv hset (.variable a output ha hearned)
    next msg =>
      apply pre fun _ _ h => h.1
      split
      . exact ih _
      . exact Keeps.pure _ fun _ _ h => h
    . exact Keeps.pure _ fun _ _ h => h.1

theorem rollback_keeps (hK : K.Closed) (gas : Nat) (error : String) (plan : List (String × String))
    : K.Keeps (K.Good d s) (e.rollback d gas error plan s) (K.Yields d) := by
  induction plan generalizing s with
  | nil =>
    unfold rollback
    exact Keeps.bind (transition_keeps (fun w => hK.status w d _ _) _) fun _ => saved_keeps _
  | cons x plan ih =>
    unfold rollback
    apply Keeps.bind (Q := fun a w => K.Good d s w ∧ d.activity x.2 = some a)
    . exact ofOption _ fun a w ha _ h => ⟨h, ha⟩
    intro a
    apply given fun _ _ h => Definition.activity_self h.2
    intro ha
    apply pre fun _ _ h => h.1
    apply Keeps.bind (runCompensation_keeps ha _ gas 0)
    rintro ⟨t, result⟩
    cases result with
    | ok =>
      apply Keeps.bind (emit_keeps _)
      intro u
      exact Keeps.bind checkpoint_keeps fun _ => ih
    | error compErr => exact Keeps.bind (emit_keeps _) fun _ => saved_keeps _

theorem markFailed_keeps (hK : K.Closed) (error : String)
    : K.Keeps (K.Good d s) (e.markFailed s error) (fun t => K.Good d t) := by
  unfold markFailed
  split
  . apply Keeps.bind (transition_keeps (fun w => hK.status w d _ _) _)
    intro t
    apply Keeps.bind checkpoint_keeps
    intro _
    exact Keeps.pure _ fun _ _ h => h
  . exact Keeps.pure _ fun _ _ h => h

theorem compensate_keeps (hK : K.Closed) (gas : Nat) (error : String)
    : K.Keeps (K.Good d s) (e.compensate d gas s error) (fun r => K.Good d r.2) := by
  unfold compensate
  apply Keeps.bind (markFailed_keeps hK error)
  intro t
  split
  . exact Keeps.pure _ fun _ _ h => h
  . apply Keeps.bind (transition_keeps (fun w => hK.status w d _ _) _)
    intro u
    apply Keeps.bind checkpoint_keeps
    intro _
    apply Keeps.bind (rollback_keeps hK gas error _)
    rintro ⟨v, outcome⟩
    exact Keeps.pure _ fun _ _ h => h

theorem interrupt_keeps (activity msg : String)
    : K.Keeps (K.Good d s) (e.interrupt s activity msg) (fun r => K.Good d r.2) := by
  unfold interrupt
  apply Keeps.bind (emit_keeps _)
  intro t
  apply Keeps.bind checkpoint_keeps
  intro _
  exact Keeps.pure _ fun _ _ h => h

theorem finish_keeps
    (hstatus : ∀ w, K.inv w → K.good w d s → K.good w d { s with status := .completed })
    : K.Keeps (K.Good d s) (e.finish s) (fun r => K.Good d r.2) := by
  unfold finish
  apply Keeps.bind (transition_keeps hstatus _)
  intro t
  apply Keeps.bind checkpoint_keeps
  intro _
  exact Keeps.pure _ fun _ _ h => h

section

variable {drive : Definition → ExecutionState → Action ω (RunOutcome × ExecutionState)}

def Drives (K : Contract e) (drive : Definition → ExecutionState → Action ω (RunOutcome × ExecutionState))
    : Prop :=
  ∀ d s, K.Keeps (K.Good d s) (drive d s) (fun r => K.Good d r.2)

theorem pinned_of_assert (h : assertPinnedDefinition d s = .ok ()) : pinned d s = true := by
  unfold assertPinnedDefinition at h
  split at h
  . assumption
  . cases h

theorem resumeWith_keeps (hdrive : Drives K drive) {executionId : String} {P : World ω → Prop}
    (hload : ∀ w t, K.inv w → P w → w.latest e executionId = some t → pinned d t = true →
      K.good w d t)
    : K.Keeps P (e.resumeWith drive d executionId) (fun r => K.Good d r.2) := by
  unfold resumeWith
  apply Keeps.bind (Q := fun found w => P w ∧ w.latest e executionId = found)
  . exact gets _ fun w hinv h => ⟨h, rfl⟩
  intro found
  cases found with
  | none => exact fail _
  | some t =>
    apply Keeps.bind (Q := fun _ => K.Good d t)
    . apply Keeps.ofExcept
      intro _ w hpinned hinv h
      exact hload w t hinv h.1 h.2 (pinned_of_assert hpinned)
    intro _
    split
    . exact Keeps.pure _ fun _ _ h => h
    . exact Keeps.pure _ fun _ _ h => h
    . exact Keeps.pure _ fun _ _ h => h
    . exact hdrive d t

theorem runWith_keeps (hK : K.Closed) (hdrive : Drives K drive) (executionId : String) (input : Value)
    : K.Keeps (K.Good d (initialState d executionId input)) (e.runWith drive d executionId input)
        (fun r => K.Good d r.2) := by
  unfold runWith
  apply Keeps.bind (start_keeps hK executionId input)
  intro t
  exact hdrive d t

theorem runChild_keeps (hK : K.Closed) (hdrive : Drives K drive) (id : String) (input : Value)
    {P : World ω → Prop}
    (hinit : ∀ w, K.inv w → P w → K.good w d (initialState d id input))
    (hload : ∀ w t, K.inv w → P w → w.latest e id = some t → K.good w d t)
    : K.Keeps P (e.runChild drive d id input) (fun r => K.Good d r.2) := by
  unfold runChild
  apply Keeps.bind (reads _)
  intro found
  cases found with
  | some t => exact resumeWith_keeps hdrive fun w t hinv h hlatest _ => hload w t hinv h hlatest
  | none => exact pre hinit (runWith_keeps hK hdrive _ _)

theorem nests_of_drives (hK : K.Closed) (hdrive : Drives K drive) (d : Definition) : Nests K drive d := by
  intro s a resolver childName child ha htype hresolver hname hdepth
  apply given fun _ _ h => h.2
  intro hchild
  apply pre fun _ _ h => h.1
  have hstep := fun w hinv h => hK.child w d s a resolver childName child hinv h ha htype hresolver hname hchild
    hdepth
  apply stays stable_good
  apply runChild_keeps hK hdrive _ _
  . exact fun w hinv h => (hstep w hinv h).1
  . exact fun w t hinv h => (hstep w hinv h).2 t

theorem driveOne_keeps (hK : K.Closed) (hdrive : Drives K drive) (gas : Nat)
    : K.Keeps (K.Good d s) (e.driveOne drive d gas s) (fun r => K.Good d r.2) := by
  unfold driveOne
  apply Keeps.bind (ofOption _ fun _ _ _ _ h => h)
  intro ready
  cases ready with
  | none => exact compensate_keeps hK gas _
  | some id =>
    apply Keeps.bind (runActivity_keeps (nests_of_drives hK hdrive d) gas id)
    rintro ⟨t, step⟩
    cases step with
    | completed => exact hdrive d t
    | failed msg => exact compensate_keeps hK gas msg
    | interrupted msg => exact interrupt_keeps id msg

end

theorem drive_keeps (hK : K.Closed) (gas : Nat) : Drives K (e.drive gas) := by
  induction gas with
  | zero => exact fun _ _ => halt
  | succ gas ih =>
    intro d s
    unfold drive
    apply Keeps.bind (applySkips_keeps _)
    intro t
    apply Keeps.bind (ofOption _ fun _ _ _ _ h => h)
    intro complete
    split
    . exact finish_keeps fun w => hK.status w d t _
    . apply Keeps.bind (ofOption _ fun _ _ _ _ h => h)
      intro batch
      split
      . apply Keeps.bind (runReadyBatch_keeps gas batch)
        rintro ⟨u, step⟩
        cases step with
        | allSettled => exact ih d u
        | failed msg => exact compensate_keeps hK gas msg
        | interrupted activity msg => exact interrupt_keeps activity msg
      . exact driveOne_keeps hK ih gas

theorem resume_keeps (hK : K.Closed) {executionId : String} {P : World ω → Prop}
    (hload : ∀ w t, K.inv w → P w → w.latest e executionId = some t → pinned d t = true →
      K.good w d t) (gas : Nat)
    : K.Keeps P (e.resume gas d executionId) (fun r => K.Good d r.2) :=
  resumeWith_keeps (drive_keeps hK gas) hload

theorem deliver_keeps (hK : K.Closed) {executionId key : String} {payload : Value}
    {P : World ω → Prop}
    (hkey : ∀ w t, K.inv w → w.latest e executionId = some t →
      e.backend.key t.executionId = e.backend.key executionId)
    (hdeliver : ∀ w t, K.inv w → P w → w.latest e executionId = some t →
      (∃ d', K.good w d' (t.setVariable key payload))
        ∧ (pinned d t = true → ∀ w', K.inv w' →
          w'.latest e executionId = some (t.setVariable key payload) →
          K.good w' d (t.setVariable key payload))) (gas : Nat)
    : K.Keeps P (e.deliver gas d executionId key payload) (fun r => K.Good d r.2) := by
  unfold deliver
  apply Keeps.bind (Q := fun found w => P w ∧ w.latest e executionId = found)
  . exact gets _ fun w hinv h => ⟨h, rfl⟩
  intro found
  cases found with
  | none => exact fail _
  | some t =>
    apply given fun w hinv h => (hdeliver w t hinv h.1 h.2).2
    intro hpin
    apply Keeps.bind (Q := fun _ w => w.latest e executionId = some (t.setVariable key payload))
    . intro w hinv h
      obtain ⟨d', hd'⟩ := (hdeliver w t hinv h.1 h.2).1
      obtain ⟨hinv', hle, -⟩ := checkpoint_keeps w hinv hd'
      exact ⟨hinv', hle, fun _ hok => latest_checkpoint hok (hkey w t hinv h.2)⟩
    . intro _
      apply resume_keeps hK
      intro w t' hinv h hlatest hpinned
      cases h.symm.trans hlatest
      exact hpin hpinned w hinv h

theorem cancel_keeps (hK : K.Closed) {executionId : String} {P : World ω → Prop}
    (hload : ∀ w t, K.inv w → P w → w.latest e executionId = some t → K.good w d t)
    : K.Keeps P (e.cancel executionId) (fun t => K.Good d t) := by
  unfold cancel
  apply Keeps.bind (Q := fun found w => P w ∧ w.latest e executionId = found)
  . exact gets _ fun w hinv h => ⟨h, rfl⟩
  intro found
  cases found with
  | none => exact fail _
  | some t =>
    dsimp only
    split
    . exact fail _
    . apply Keeps.bind
      . refine pre ?_ (transition_keeps (fun w => hK.status w d _ _) _)
        intro w hinv h
        exact hK.skip w d t hinv (hload w t hinv h.1 h.2)
      . intro u
        apply Keeps.bind checkpoint_keeps
        intro _
        exact Keeps.pure _ fun _ _ h => h

end Wovyr.Workflow.Contract
