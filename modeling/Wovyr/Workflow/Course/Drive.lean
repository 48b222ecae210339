import Wovyr.Workflow.Course.Forward

/-!
This module contains the proof that an execution that is started, driven, rolled back or resumed takes
its course, and so do its children.
-/

namespace Wovyr.Workflow

open Engine

theorem key_childId_length {ω : Type} (e : Engine ω) (s : ExecutionState) (a : ActivityDef)
    : (e.backend.key s.executionId).length < (e.backend.key (childId s a)).length := by
  rw [Backend.key_length, Backend.key_length]
  simp only [childId, String.length_append]
  have hsep : "::".length = 2 := by decide
  omega

namespace Course

variable {ω : Type} {e : Engine ω}

def nest (K : Course e) (d : Definition) (s : ExecutionState) : Course e where
  inv st := K.good .failing .rest st d s
  may := K.may
  fault := K.fault
  whole := K.whole
  vacant := K.vacant
  heir d' id := K.heir d' id ∧ (e.backend.key s.executionId).length < (e.backend.key id).length
  takes := K.takes
  good ph l st d' t := K.good ph l st d' t ∧ K.good .failing .rest st d s
    ∧ (e.backend.key s.executionId).length < (e.backend.key t.executionId).length
  safe _ _ _ _ _ h := h.2.1
  sane _ _ _ _ _ h := K.sane _ _ _ _ _ h.1
  onward l st d' t := by
    rw [K.onward]
    constructor
    . exact fun h => ⟨⟨h.1.1, h.2⟩, h.1.2⟩
    . exact fun h => ⟨⟨h.1.1, h.2⟩, h.1.2⟩
  ended _ _ _ _ h := K.ended _ _ _ _ h.1
  other := K.other
  refused _ _ _ _ h := K.refused _ _ _ _ h.1
  dress _ _ _ _ _ _ _ h hvars := ⟨K.dress _ _ _ _ _ _ _ h.1 hvars, h.2⟩
  move _ _ _ _ _ _ h hmove := by
    refine ⟨K.move _ _ _ _ _ _ h.1 hmove, h.2.1, ?_⟩
    rw [hmove.executionId_eq]
    exact h.2.2
  note _ _ _ _ _ _ h hevent hl :=
    have happended := K.note _ _ _ _ _ _ h.1 hevent hl
    ⟨happended, K.apart _ _ _ _ _ h.2.1 h.2.2 (K.safe _ _ _ _ _ happended), h.2.2⟩
  pay _ _ _ _ _ h :=
    have hpaid := K.pay _ _ _ _ _ h.1
    ⟨hpaid, K.apart _ _ _ _ _ h.2.1 h.2.2 (K.safe _ _ _ _ _ hpaid), h.2.2⟩
  save _ _ _ _ h :=
    have hsaved := K.save _ _ _ _ h.1
    ⟨hsaved, K.aside _ _ _ _ h.2.1 h.2.2 (K.safe _ _ _ _ _ hsaved), h.2.2⟩
  finish _ _ _ h hstatus hcomplete :=
    have hfinished := K.finish _ _ _ h.1 hstatus hcomplete
    ⟨hfinished, K.apart _ _ _ _ _ h.2.1 h.2.2 (K.safe _ _ _ _ _ hfinished), h.2.2⟩
  fail _ _ _ _ h hstatus :=
    have hfailed := K.fail _ _ _ _ h.1 hstatus
    ⟨hfailed, K.apart _ _ _ _ _ h.2.1 h.2.2 (K.safe _ _ _ _ _ hfailed), h.2.2⟩
  fall _ _ _ h hstatus := ⟨K.fall _ _ _ h.1 hstatus, h.2⟩
  turn _ _ _ h hstatus :=
    have hturned := K.turn _ _ _ h.1 hstatus
    ⟨hturned, K.apart _ _ _ _ _ h.2.1 h.2.2 (K.safe _ _ _ _ _ hturned), h.2.2⟩
  settle _ _ _ h hstatus :=
    have hsettled := K.settle _ _ _ h.1 hstatus
    ⟨hsettled, K.apart _ _ _ _ _ h.2.1 h.2.2 (K.safe _ _ _ _ _ hsettled), h.2.2⟩
  undo _ _ _ _ _ _ _ _ h hid hr hanswer := ⟨K.undo _ _ _ _ _ _ _ _ h.1 hid hr hanswer, h.2⟩
  calls _ _ _ _ _ _ h := K.calls _ _ _ _ _ _ h.1
  undoes _ _ _ _ _ h := K.undoes _ _ _ _ _ h.1
  keyed _ _ _ hinv := K.keyed _ _ _ (K.safe _ _ _ _ _ hinv)
  vacates _ _ hinv := K.vacates _ _ (K.safe _ _ _ _ _ hinv)
  opens _ _ _ _ hinv hwhole hvacant hheir hevent :=
    have hopened := K.opens _ _ _ _ (K.safe _ _ _ _ _ hinv) hwhole hvacant hheir.1 hevent
    ⟨K.apart _ _ _ _ _ hinv hheir.2 hopened.1, hopened.2⟩
  begins _ _ _ _ _ hinv hwhole hvacant hheir htakes :=
    have hbegun := K.begins _ _ _ _ _ (K.safe _ _ _ _ _ hinv) hwhole hvacant hheir.1 htakes
    ⟨hbegun, K.aside _ _ _ _ hinv hheir.2 (K.safe _ _ _ _ _ hbegun), hheir.2⟩
  loads _ _ _ _ hinv hwhole hheir hlatest hstatus := by
    refine ⟨K.loads _ _ _ _ (K.safe _ _ _ _ _ hinv) hwhole hheir.1 hlatest hstatus, hinv, ?_⟩
    rw [K.keyed _ _ _ (K.safe _ _ _ _ _ hinv) hlatest]
    exact hheir.2
  child _ _ t a _ h ha hchild := by
    obtain ⟨hheir, htakes⟩ := K.child _ _ _ _ _ h.1 ha hchild
    exact ⟨⟨hheir, Nat.lt_trans h.2.2 (key_childId_length e t a)⟩, htakes⟩
  apart _ _ _ _ _ h hlt hinv := ⟨K.apart _ _ _ _ _ h.1 hlt (K.safe _ _ _ _ _ hinv), hinv, h.2.2⟩
  aside _ _ _ _ h hlt hinv := ⟨K.aside _ _ _ _ h.1 hlt (K.safe _ _ _ _ _ hinv), hinv, h.2.2⟩

variable {K : Course e} {d : Definition} {s : ExecutionState} {β : Type}

theorem transition_eq {target : WorkflowState} (h : s.status.canTransition target = true)
    (event : WorkflowEvent)
    : e.transition s target event = e.emit { s with status := target } event := by
  unfold transition
  rw [if_pos h]

theorem transition_keeps {ph ph' : Phase} {target : WorkflowState} {event : WorkflowEvent}
    {f : ExecutionState → Action ω β} {R : β → Store → Prop}
    (hstatus : s.status.canTransition target = true)
    (h : ∀ st, K.At ph .rest d s st →
      K.At ph' .rest d { s with status := target } (st.append e s.executionId event))
    (hf : ∀ version, K.Keeps (K.At ph' .rest d { s with status := target, version })
      (f { s with status := target, version }) R)
    : K.Keeps (K.At ph .rest d s) (e.transition s target event >>= f) R := by
  rw [transition_eq hstatus, emit_bind]
  refine bind_keeps (append_keeps s.executionId event ?_) fun _ => hf _
  intro st _ hst
  have happended := h st hst
  exact ⟨K.safe _ _ _ _ _ happended, K.dress _ _ _ _ _ _ _ happended fun _ _ => rfl⟩

def Settled (K : Course e) (d : Definition) (r : RunOutcome × ExecutionState) (st : Store) : Prop :=
  (∃ ph, K.good ph .rest st d r.2) ∧ (Clean r.1 → K.whole st)

theorem refuse_keeps {α : Type} {Q : α → Store → Prop} {P : Store → Prop} {target : WorkflowState}
    {event : WorkflowEvent} {f : ExecutionState → Action ω α}
    (h : s.status.canTransition target = false) (hfault : ∀ st, P st → K.fault (refusal s.status target))
    : K.Keeps P (e.transition s target event >>= f) Q := by
  unfold transition
  rw [h]
  exact Watch.Keeps.fail (W := K.watch) _ fun st _ hst => hfault st hst

theorem finish_keeps (hcomplete : forwardComplete d s = some true)
    : K.Keeps (K.At .onward .rest d s) (e.finish s) (Settled K d) := by
  unfold Engine.finish
  by_cases hstatus : s.status = .running
  . refine transition_keeps (by rw [hstatus]; rfl) (fun st h => K.finish st d s h hstatus hcomplete) ?_
    intro version
    apply bind_keeps checkpoint_keeps
    intro _
    exact pure_keeps _ fun st h => ⟨⟨.done, h⟩, fun _ => K.ended _ _ _ _ h⟩
  . apply refuse_keeps
    . revert hstatus
      cases s.status <;> simp [WorkflowState.canTransition]
    . exact fun st h => K.refused st d s _ (at_failing h) hstatus

theorem interrupt_keeps (activity msg : String)
    : K.Keeps (K.At .onward .rest d s) (e.interrupt s activity msg) (Settled K d) := by
  unfold interrupt
  apply emit_keeps rfl rfl
  intro version
  apply bind_keeps checkpoint_keeps
  intro _
  exact pure_keeps _ fun st h => ⟨⟨.onward, h⟩, fun _ => ((K.onward _ _ _ _).mp h).2⟩

theorem runCompensation_keeps {a : ActivityDef} (ha : a.id ∈ d.compensationTargets) (activity : String)
    (policy : RetryPolicy) (gas attempts : Nat)
    : K.Keeps (K.At .backward .rest d s) (e.runCompensation a policy gas attempts s)
        (fun r st => K.At .backward
          (if r.2.isOk then .owing (.compensationStepCompleted activity a.id) else .rest) d r.1 st
          ∧ r.1.status = s.status) := by
  induction gas generalizing attempts with
  | zero => exact halt_keeps
  | succ gas ih =>
    unfold runCompensation
    apply callExecutor_keeps
    . exact fun st reply _ h => K.undoes st d s _ reply h
    rintro ⟨progress, reply⟩ hanswer
    dsimp only
    split
    . exact halt_keeps
    next output =>
      cases hrecord : s.activity? a.id with
      | none =>
        unfold recordOf
        rw [hrecord]
        exact ofOption_keeps nofun
      | some record =>
        apply recordOf_keeps hrecord
        apply pure_keeps
        intro st h
        refine ⟨?_, rfl⟩
        exact K.undo st d s activity a.id record (attempts + 1) output h ha hrecord (hanswer output rfl)
    next msg =>
      split
      . exact ih _
      . exact pure_keeps _ fun st h => ⟨h, rfl⟩
    . exact pure_keeps _ fun st h => ⟨h, rfl⟩

theorem rollback_keeps (hstatus : s.status = .compensating) (gas : Nat) (error : String)
    {plan : List (String × String)} (hplan : ∀ x ∈ plan, x.2 ∈ d.compensationTargets)
    : K.Keeps (K.At .backward .rest d s) (e.rollback d gas error plan s)
        (fun r st => K.At .backward .rest d r.1 st ∧ ¬Clean r.2) := by
  induction plan generalizing s with
  | nil =>
    unfold rollback
    refine transition_keeps (by rw [hstatus]; rfl) (fun st h => K.settle st d s h hstatus) ?_
    intro version
    exact saved_keeps _ fun st h => ⟨h, fun hclean => hclean⟩
  | cons x plan ih =>
    unfold rollback
    apply ofOption_keeps
    intro a ha
    have hid := Definition.activity_id ha
    apply bind_keeps
    . refine runCompensation_keeps ?_ x.1 _ _ _
      rw [hid]
      exact hplan x List.mem_cons_self
    rintro ⟨t, result⟩
    apply given_keeps fun st h => h.2
    intro hsame
    apply pre_keeps fun st h => h.1
    cases result with
    | ok =>
      rw [hid]
      apply pay_keeps
      intro version
      apply bind_keeps checkpoint_keeps
      intro _
      exact ih (hsame.trans hstatus) fun y hy => hplan y (List.mem_cons_of_mem _ hy)
    | error compErr =>
      apply emit_keeps rfl rfl
      intro version
      exact saved_keeps _ fun st h => ⟨h, fun hclean => hclean⟩

theorem target_of_rollbackPlan {x : String × String} (h : x ∈ rollbackPlan d s)
    : x.2 ∈ d.compensationTargets := by
  unfold rollbackPlan at h
  obtain ⟨id, -, hid⟩ := List.mem_filterMap.mp h
  obtain ⟨comp, hcomp, rfl⟩ := Option.map_eq_some_iff.mp hid
  obtain ⟨a, ha, hcompensate⟩ := Option.bind_eq_some_iff.mp hcomp
  exact List.mem_filterMap.mpr ⟨a, Definition.activity_mem ha, hcompensate⟩

theorem undo_keeps (hstatus : s.status = .failed) (gas : Nat) (error : String)
    : K.Keeps (K.At .backward .rest d s)
        (if rollbackPlan d s = [] then
          return (.failed error, s)
        else do
          let state ← e.transition s .compensating .compensationStarted
          e.checkpoint state
          let (state, outcome) ← e.rollback d gas error (rollbackPlan d s) state
          return (outcome, state)) (Settled K d) := by
  split
  . exact pure_keeps _ fun st h => ⟨⟨.backward, h⟩, fun hclean => hclean.elim⟩
  . refine transition_keeps (by rw [hstatus]; rfl) (fun st h => K.turn st d s h hstatus) ?_
    intro version
    apply bind_keeps checkpoint_keeps
    intro _
    apply bind_keeps (rollback_keeps rfl gas error fun x hx => target_of_rollbackPlan hx)
    rintro ⟨t, outcome⟩
    exact pure_keeps _ fun st h => ⟨⟨.backward, h.1⟩, fun hclean => absurd hclean h.2⟩

theorem compensate_keeps (gas : Nat) (error : String)
    : K.Keeps (K.At .failing .rest d s) (e.compensate d gas s error) (Settled K d) := by
  unfold compensate markFailed
  by_cases hrunning : s.status = .running
  . rw [if_pos hrunning, Prog.bind_assoc]
    refine transition_keeps (by rw [hrunning]; rfl) (fun st h => K.fail st d s error h hrunning) ?_
    intro version
    rw [Prog.bind_assoc]
    apply bind_keeps checkpoint_keeps
    intro _
    exact undo_keeps rfl gas error
  . rw [if_neg hrunning, Prog.pure_bind]
    by_cases hfailed : s.status = .failed
    . exact pre_keeps (fun st h => K.fall st d s h hfailed) (undo_keeps hfailed gas error)
    . split
      . apply pure_keeps
        exact fun st h => ⟨⟨.failing, h⟩, fun hclean => hclean.elim⟩
      . apply refuse_keeps
        . revert hfailed
          cases s.status <;> simp [WorkflowState.canTransition]
        . exact fun st h => K.refused st d s _ h hrunning

section

variable {drive : Definition → ExecutionState → Action ω (RunOutcome × ExecutionState)}

def Drives (K : Course e) (drive : Definition → ExecutionState → Action ω (RunOutcome × ExecutionState))
    : Prop :=
  ∀ d s, K.Keeps (K.At .onward .rest d s) (drive d s) (Settled K d)

theorem open_keeps {id : String} {event : WorkflowEvent} {f : ExecutionState → Action ω β}
    {R : β → Store → Prop} (hid : s.executionId = id) (hheir : K.heir d id)
    (hevent : event.isNeutral = true)
    (hf : ∀ version, K.Keeps (fun st => K.whole st ∧ K.vacant st id) (f { s with version }) R)
    : K.Keeps (fun st => K.whole st ∧ K.vacant st id) (e.emit s event >>= f) R := by
  subst hid
  rw [emit_bind]
  refine bind_keeps (append_keeps s.executionId event ?_) fun _ => hf _
  intro st hinv h
  exact K.opens st d s.executionId event hinv h.1 h.2 hheir hevent

theorem start_keeps {id : String} (hheir : K.heir d id) {input : Value} (htakes : K.takes d id input)
    : K.Keeps (fun st => K.whole st ∧ K.vacant st id) (e.start d id input) (fun t => K.At .onward .rest d t) := by
  unfold start
  refine open_keeps rfl hheir rfl fun version => ?_
  rw [transition_eq (by rfl)]
  refine open_keeps rfl hheir rfl fun version => ?_
  rw [transition_eq (by rfl)]
  refine open_keeps rfl hheir rfl fun version => ?_
  rw [transition_eq (by rfl)]
  refine open_keeps rfl hheir rfl fun version => ?_
  refine bind_keeps (save_keeps (Q := fun _ => K.At .onward .rest d
    { initialState d id input with status := .running, version }) ?_) ?_
  . intro st hinv h
    have hbegun := K.begins st d id input version hinv h.1 h.2 hheir htakes
    exact ⟨K.safe _ _ _ _ _ hbegun, hbegun⟩
  . exact fun _ => pure_keeps _ fun st h => h

def Resumed (K : Course e) (d : Definition) (id : String) (r : RunOutcome × ExecutionState) (st : Store)
    : Prop :=
  ((∃ ph, K.good ph .rest st d r.2) ∨ st.latest e id = some r.2) ∧ (Clean r.1 → K.whole st)

theorem settled_resumed {id : String} {r : RunOutcome × ExecutionState} {st : Store}
    (h : Settled K d r st) : Resumed K d id r st :=
  ⟨.inl h.1, h.2⟩

theorem resumeWith_keeps (hdrive : Drives K drive) {id : String} (hheir : K.heir d id)
    : K.Keeps K.whole (e.resumeWith drive d id) (Resumed K d id) := by
  unfold resumeWith
  apply latest_keeps
  intro found
  cases found with
  | none =>
    refine fail_keeps _ ?_
    rintro ⟨status, target, heq⟩
    cases heq
  | some t =>
    apply ofExcept_keeps
    . intro err herr
      unfold assertPinnedDefinition at herr
      split at herr
      . cases herr
      . cases herr
        exact not_refusal_invalid _
    intro _ _
    have hdone (outcome : RunOutcome) : K.Keeps (fun st => K.whole st ∧ st.latest e id = some t)
        (pure (outcome, t)) (Resumed K d id) :=
      pure_keeps _ fun st h => ⟨.inr h.2, fun _ => h.1⟩
    have hgo (hstatus : t.status.isTerminal = false)
        : K.Keeps (fun st => K.whole st ∧ st.latest e id = some t) (drive d t) (Resumed K d id) := by
      apply Watch.Keeps.pre (W := K.watch) _ (post_keeps (hdrive d t) fun r st h => settled_resumed h)
      intro st hinv h
      exact K.loads st d id t hinv h.1 hheir h.2 hstatus
    cases hstatus : t.status with
    | completed | failed | cancelled => exact hdone _
    | _ => exact hgo (by rw [hstatus]; rfl)

theorem runWith_keeps (hdrive : Drives K drive) {id : String} (hheir : K.heir d id) {input : Value}
    (htakes : K.takes d id input)
    : K.Keeps (fun st => K.whole st ∧ K.vacant st id) (e.runWith drive d id input) (Settled K d) := by
  unfold runWith
  apply bind_keeps (start_keeps hheir htakes)
  intro t
  exact hdrive d t

theorem runChild_keeps (hdrive : Drives K drive) {id : String} (hheir : K.heir d id) {input : Value}
    (htakes : K.takes d id input)
    : K.Keeps K.whole (e.runChild drive d id input) (Resumed K d id) := by
  unfold runChild
  apply latest_keeps
  intro found
  cases found with
  | some t => exact pre_keeps (fun st h => h.1) (resumeWith_keeps hdrive hheir)
  | none =>
    apply Watch.Keeps.pre (W := K.watch) _
      (post_keeps (runWith_keeps hdrive hheir htakes) fun r st h => settled_resumed h)
    exact fun st hinv h => ⟨h.1, K.vacates st id hinv h.1 h.2⟩

theorem nests_of_drives (hdrive : ∀ K : Course e, Drives K drive) (d : Definition) : Nests K drive d := by
  intro s a child ha hchild
  apply given_keeps fun st h => K.child st d s a child h ha hchild
  rintro ⟨hheir, htakes⟩
  have hnested := runChild_keeps (hdrive (K.nest d s)) (d := child)
    ⟨hheir, key_childId_length e s a⟩ htakes
  have hkept := Watch.Keeps.narrow (W := K.watch) (fun st h => K.safe _ _ _ _ _ h) hnested
  apply Watch.Keeps.pre (W := K.watch) _ (Watch.Keeps.post (W := K.watch) hkept _)
  . exact fun st _ h => ⟨((K.onward _ _ _ _).mp h).2, at_failing h⟩
  . exact fun r st _ h => ⟨h.2, h.1.2⟩

theorem driveOne_keeps (hdrive : Drives K drive) (hnests : Nests K drive d) (gas : Nat)
    : K.Keeps (K.At .onward .rest d s) (e.driveOne drive d gas s) (Settled K d) := by
  apply sane_keeps
  intro hsane
  unfold driveOne
  apply ofOption_keeps
  intro ready hready
  cases ready with
  | none => exact pre_keeps (fun st h => at_failing h) (compensate_keeps gas _)
  | some id =>
    obtain ⟨a, ha, hrun⟩ := runnable_of_nextReady hsane hready
    apply bind_keeps (runActivity_keeps hnests gas ha hrun)
    rintro ⟨t, step⟩
    cases step with
    | completed => exact pre_keeps (fun st h => at_onward h.1 (h.2 nofun)) (hdrive d t)
    | failed msg => exact pre_keeps (fun st h => h.1) (compensate_keeps gas msg)
    | interrupted msg => exact pre_keeps (fun st h => at_onward h.1 (h.2 nofun)) (interrupt_keeps id msg)

end

theorem drive_keeps (gas : Nat) : ∀ K : Course e, Drives K (e.drive gas) := by
  induction gas with
  | zero => exact fun _ _ _ => halt_keeps
  | succ gas ih =>
    intro K d s
    unfold drive
    apply bind_keeps (applySkips_keeps _)
    intro t
    apply ofOption_keeps
    intro complete hcomplete
    split
    next htrue =>
      rw [htrue] at hcomplete
      exact finish_keeps hcomplete
    next =>
      apply ofOption_keeps
      intro batch hbatch
      split
      . apply bind_keeps (runReadyBatch_keeps hbatch gas)
        rintro ⟨u, step⟩
        cases step with
        | allSettled => exact ih K d u
        | failed msg => exact pre_keeps (fun st h => at_failing h) (compensate_keeps gas msg)
        | interrupted activity msg => exact interrupt_keeps activity msg
      . exact driveOne_keeps (ih K) (nests_of_drives ih d) gas

theorem resume_keeps {id : String} (hheir : K.heir d id) (gas : Nat)
    : K.Keeps K.whole (e.resume gas d id) (Resumed K d id) :=
  resumeWith_keeps (drive_keeps gas K) hheir

theorem deliver_keeps {id : String} (hheir : K.heir d id) {key : String} {payload : Value}
    (hdeliver : ∀ st t, K.inv st → K.whole st → st.latest e id = some t →
      K.inv (st.save e (t.setVariable key payload)) ∧ K.whole (st.save e (t.setVariable key payload)))
    (gas : Nat)
    : K.Keeps K.whole (e.deliver gas d id key payload) (Resumed K d id) := by
  unfold deliver
  apply latest_keeps
  intro found
  cases found with
  | none =>
    refine fail_keeps _ ?_
    rintro ⟨status, target, heq⟩
    cases heq
  | some t =>
    apply bind_keeps (save_keeps (Q := fun _ => K.whole) fun st hinv h => hdeliver st t hinv h.1 h.2)
    intro _
    exact resume_keeps hheir gas

end Wovyr.Workflow.Course
