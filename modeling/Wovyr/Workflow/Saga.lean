import Wovyr.Workflow.Footprint

/-!
This module contains the completeness of rollbacks: when an execution ends failed, every completed
activity that declares a handler has been rolled back.
-/

namespace Wovyr.Workflow

open Keeping Engine Contract

section

variable {ω : Type}

def Compensated (w : World ω) (executionId handler : String) : Prop :=
  ∃ call ∈ w.calls, call.executionId = executionId ∧ call.rollback = true
    ∧ call.context.id = handler ∧ ∃ v, call.reply = .output v

def RolledBack (d : Definition) (w : World ω) (s : ExecutionState) : Prop :=
  ∀ id ∈ s.completedOrder, ∀ a handler, d.activity id = some a → a.compensate = some handler →
    Compensated w s.executionId handler

variable (e : Engine ω) (d : Definition) (executionId : String)

def HandlerFailed (w : World ω) : Prop :=
  ∃ activity compensation error,
    .compensationStepFailed activity compensation error
      ∈ w.events[e.backend.key executionId]?.getD []

def Unfinished (w : World ω) : Prop :=
  ∃ s, w.latest e executionId = some s
    ∧ (s.status = .compensating ∨ (s.status = .failed ∧ ¬RolledBack d w s))

structure SagaComplete (w : World ω) (r : Outcome Error (RunOutcome × ExecutionState) × World ω)
    : Prop where
  rolledBack : r.1 ≠ .halted → ∀ s, r.2.latest e executionId = some s → s.status = .failed →
    RolledBack d r.2 s ∨ HandlerFailed e executionId r.2
  continued : Unfinished e d executionId w → r.1 ≠ .halted →
    (∀ err, r.1 ≠ .err err) ∧ ∀ msg s, r.1 = .ok (.failed msg, s) → s.status ≠ .failed

def Engine.startBy (input : Value) (w : World ω) (process : Process ω) : World ω :=
  (e.start d executionId input (w.boot process)).2

def Engine.resumeBy (w : World ω) (process : Process ω)
    : Outcome Error (RunOutcome × ExecutionState) × World ω :=
  e.resume process.gas d executionId (w.boot process)

end

theorem Edit.status_eq {ω : Type} {p : Platform} {w : World ω} {d : Definition}
    {s t : ExecutionState} (h : Edit p w d s t) : t.status = s.status := by
  cases h <;> rfl

namespace Saga

variable {ω : Type} {e : Engine ω} {d : Definition} {k : String} {α : Type}

def contract (e : Engine ω) (k : String) : Contract e where
  inv w := w.WellKeyed e ∧ ∀ s, w.checkpoints[k]? = some s → s.status ≠ .failed
  le w w' := w.calls ⊆ w'.calls
  refl _ _ h := h
  trans := World.calls_trans
  good _ _ s := e.backend.key s.executionId = k ∧ s.status ≠ .failed
  stable _ _ _ _ _ h := h
  calls _ _ h := h
  edit _ _ _ _ _ h hedit := by
    rw [hedit.executionId_eq, hedit.status_eq]
    exact h
  tick _ _ _ _ hinv := ⟨hinv, fun _ h => h⟩
  append _ _ _ _ hinv _ := ⟨hinv, fun _ h => h⟩
  save w _ s hinv h := by
    refine ⟨⟨hinv.1.save s, ?_⟩, fun _ h => h⟩
    intro t ht
    unfold World.save at ht
    rw [Map.getElem?_insert, if_pos h.1] at ht
    cases ht
    exact h.2
  react _ _ _ _ _ _ hinv _ _ := ⟨hinv, fun _ h => List.mem_append_left _ h⟩

def Settles (e : Engine ω) (d : Definition) (k : String) (r : Outcome Error α × World ω) : Prop :=
  r.2.WellKeyed e
    ∧ (r.1 ≠ .halted → ∀ s, r.2.checkpoints[k]? = some s → s.status = .failed → RolledBack d r.2 s)

theorem settles_of_inv {r : Outcome Error α × World ω} (h : (contract e k).inv r.2)
    : Settles e d k r := by
  refine ⟨h.1, ?_⟩
  intro _ s hs hfailed
  exact absurd hfailed (h.2 s hs)

theorem settles_of_keeps {P : World ω → Prop} {m : Action ω α} {Q : α → World ω → Prop} {w : World ω}
    (hm : (contract e k).Keeps P m Q) (hinv : (contract e k).inv w) (hw : P w)
    : Settles e d k (m w) :=
  settles_of_inv (hm w hinv hw).1

theorem settles_bind {β : Type} {P : World ω → Prop} {m : Action ω α} {Q : α → World ω → Prop}
    {f : α → Action ω β} {w : World ω} (hm : (contract e k).Keeps P m Q)
    (hf : ∀ a w', (contract e k).inv w' → Q a w' → Settles e d k (f a w'))
    (hinv : (contract e k).inv w) (hw : P w) : Settles e d k ((m >>= f) w) := by
  obtain ⟨hinv', -, hpost⟩ := hm w hinv hw
  rw [Prog.bind_apply]
  cases hmw : m w with
  | mk o w' =>
    rw [hmw] at hinv' hpost
    cases o with
    | ok a => exact hf a w' hinv' (hpost a rfl)
    | err err => exact settles_of_inv hinv'
    | halted => exact settles_of_inv hinv'

theorem settles_persist {f : World ω → World ω} {m : Unit → Action ω α} {w : World ω}
    (hw : w.WellKeyed e) (h : Settles e d k (m () (f { w with writes := w.writes - 1 })))
    : Settles e d k ((persist f >>= m) w) := by
  rw [Prog.bind_apply]
  unfold persist
  split
  next heq =>
    split at heq
    . cases heq
    . cases heq
      exact h
  next heq =>
    split at heq
    . cases heq
    . cases heq
  next heq =>
    split at heq
    . cases heq
      exact ⟨hw, fun hhalted => absurd rfl hhalted⟩
    . cases heq

theorem emit_bind (s : ExecutionState) (event : WorkflowEvent) (f : ExecutionState → Action ω α)
    : (e.emit s event >>= f)
        =
      (persist (·.append e s.executionId event)
        >>= fun _ => f { s with version := s.version + 1 }) := by
  funext w
  unfold emit
  simp only [Prog.bind_apply]
  cases persist (·.append e s.executionId event) w with
  | mk o w' => cases o <;> rfl

theorem emit_ok {s t : ExecutionState} {event : WorkflowEvent} {w w' : World ω}
    (h : e.emit s event w = (.ok t, w')) : t = { s with version := s.version + 1 } := by
  unfold emit at h
  rw [Prog.bind_apply] at h
  split at h
  . cases h
    rfl
  . cases h
  . cases h

theorem Compensated.mono {w w' : World ω} {executionId handler : String} (hcalls : w.calls ⊆ w'.calls)
    (h : Compensated w executionId handler) : Compensated w' executionId handler := by
  obtain ⟨call, hmem, hcall⟩ := h
  exact ⟨call, hcalls hmem, hcall⟩

theorem runCompensation_ok {a : ActivityDef} {policy : RetryPolicy} {gas attempts : Nat}
    {s t : ExecutionState} {w w' : World ω}
    (h : e.runCompensation a policy gas attempts s w = (.ok (t, .ok ()), w'))
    : t.executionId = s.executionId ∧ t.status = s.status ∧ t.completedOrder = s.completedOrder
        ∧ Compensated w' s.executionId a.id := by
  induction gas generalizing attempts w with
  | zero => cases h
  | succ gas ih =>
    unfold runCompensation at h
    rw [Prog.bind_apply] at h
    have hcall : e.callExecutor s.executionId true (a.context s.vars (attempts + 1)) w
        = (.ok ((e.execute w.executor (a.context s.vars (attempts + 1))).progress,
            (e.execute w.executor (a.context s.vars (attempts + 1))).reply),
          w.react e s.executionId true (a.context s.vars (attempts + 1))) := rfl
    rw [hcall] at h
    generalize hreply : (e.execute w.executor (a.context s.vars (attempts + 1))).reply = reply at h
    cases reply with
    | panic reason => cases h
    | output output =>
      cases hrecord : s.activity? a.id with
      | none =>
        simp only [recordOf, hrecord, Prog.ofOption, Prog.bind_apply, Prog.halt] at h
        cases h
      | some record =>
        simp only [recordOf, hrecord, Prog.ofOption, Prog.bind_apply, Prog.pure_apply] at h
        cases h
        refine ⟨rfl, rfl, rfl, _, List.mem_append_right _ (List.mem_singleton_self _), rfl, rfl, rfl, ?_⟩
        exact ⟨output, hreply⟩
    | error err =>
      cases err with
      | retryable msg =>
        dsimp only at h
        split at h
        . exact ih h
        . cases h
      | permanent msg => cases h
      | interrupted msg => cases h

theorem mem_rollbackPlan {s : ExecutionState} {id handler : String} {a : ActivityDef}
    (hid : id ∈ s.completedOrder) (ha : d.activity id = some a) (hhandler : a.compensate = some handler)
    : (id, handler) ∈ rollbackPlan d s := by
  unfold rollbackPlan
  rw [List.mem_filterMap]
  refine ⟨id, List.mem_reverse.mpr hid, ?_⟩
  rw [ha]
  simp only [Option.bind_some, hhandler, Option.map_some]

theorem rolledBack_of_plan {s : ExecutionState} {w : World ω}
    (h : ∀ x ∈ rollbackPlan d s, Compensated w s.executionId x.2) : RolledBack d w s := by
  intro id hid a handler ha hhandler
  exact h _ (mem_rollbackPlan hid ha hhandler)

theorem settles_failed {β : Type} {s : ExecutionState} {w : World ω} (r : β) (hw : w.WellKeyed e)
    (hkey : e.backend.key s.executionId = k)
    (hplan : ∀ x ∈ rollbackPlan d s, Compensated w s.executionId x.2)
    : Settles e d k ((do e.checkpoint s; return r : Action ω β) w) := by
  apply settles_persist hw
  refine ⟨World.WellKeyed.save hw s, ?_⟩
  intro _ t ht _
  have hs : (World.save e { w with writes := w.writes - 1 } s).checkpoints[k]? = some s := by
    unfold World.save
    rw [Map.getElem?_insert, if_pos hkey]
  cases hs.symm.trans ht
  exact rolledBack_of_plan hplan

theorem transition_bind {s : ExecutionState} {target : WorkflowState}
    (h : s.status.canTransition target = true) (event : WorkflowEvent)
    (f : ExecutionState → Action ω α)
    : (e.transition s target event >>= f)
        =
      (persist (·.append e s.executionId event)
        >>= fun _ => f { s with status := target, version := s.version + 1 }) := by
  unfold transition
  rw [if_pos h, emit_bind]

def Planned (d : Definition) (s : ExecutionState) (plan : List (String × String)) (w : World ω) : Prop :=
  ∀ x ∈ rollbackPlan d s, x ∈ plan ∨ Compensated w s.executionId x.2

theorem stable_planned (s : ExecutionState) (plan : List (String × String))
    : (contract e k).Stable (Planned d s plan) := by
  intro w w' hcalls h x hx
  exact (h x hx).imp_right fun hdone => Compensated.mono hcalls hdone

theorem Planned.step {s t : ExecutionState} {x : String × String} {plan : List (String × String)}
    {w : World ω} (h : Planned d s (x :: plan) w) (hid : t.executionId = s.executionId)
    (horder : t.completedOrder = s.completedOrder) (hdone : Compensated w s.executionId x.2)
    : Planned d t plan w := by
  unfold Planned rollbackPlan
  rw [hid, horder]
  intro y hy
  cases h y hy with
  | inr hy => exact .inr hy
  | inl hy =>
    cases List.mem_cons.mp hy with
    | inl heq => exact .inr (heq ▸ hdone)
    | inr hy => exact .inl hy

theorem runCompensation_compensated {a : ActivityDef} {s : ExecutionState}
    (ha : d.activity a.id = some a) (policy : RetryPolicy) (gas : Nat)
    : (contract e k).Keeps ((contract e k).Good d s) (e.runCompensation a policy gas 0 s)
        (fun r w => (contract e k).Yields d r w
          ∧ (r.2 = .ok () → r.1.executionId = s.executionId ∧ r.1.status = s.status
            ∧ r.1.completedOrder = s.completedOrder ∧ Compensated w s.executionId a.id)) := by
  apply Keeps.result (runCompensation_keeps ha policy gas 0)
  rintro w ⟨t, result⟩ w' hrun hok
  cases hok
  exact runCompensation_ok hrun

theorem rollback_settles {s : ExecutionState} {w : World ω} (gas : Nat) (error : String)
    (plan : List (String × String)) (hinv : (contract e k).inv w)
    (hkey : e.backend.key s.executionId = k) (hstatus : s.status = .compensating)
    (hplan : Planned d s plan w) : Settles e d k (e.rollback d gas error plan s w) := by
  induction plan generalizing s w with
  | nil =>
    unfold rollback
    rw [transition_bind (by rw [hstatus]; rfl)]
    apply settles_persist hinv.1
    apply settles_failed
    . exact hinv.1
    . exact hkey
    . intro x hx
      exact (hplan x hx).resolve_left List.not_mem_nil
  | cons x plan ih =>
    unfold rollback
    have hgood : (contract e k).Good d s w := ⟨hkey, by rw [hstatus]; decide⟩
    apply settles_bind (Q := fun a w' => w' = w ∧ d.activity x.2 = some a)
      (Keeps.ofOption _ fun a w' ha _ (h : w' = w) => ⟨h, ha⟩) _ hinv rfl
    rintro a _ - ⟨rfl, ha⟩
    have hself := Definition.activity_self ha
    apply settles_bind
      (Keeps.frame (stable_planned s (x :: plan)) (runCompensation_compensated hself _ gas))
      _ hinv ⟨hgood, hplan⟩
    rintro ⟨t, result⟩ w₁ hinv₁ ⟨⟨ht, hdone⟩, hplan₁⟩
    cases result with
    | error compErr =>
      apply settles_bind (emit_keeps _) _ hinv₁ ht
      intro u w₂ hinv₂ hu
      exact settles_of_keeps (saved_keeps _) hinv₂ hu
    | ok =>
      obtain ⟨hid, hst, horder, hcompensated⟩ := hdone rfl
      rw [Definition.activity_id ha] at hcompensated
      apply settles_bind
        (Keeps.frame (stable_planned t plan)
          (Keeps.result (emit_keeps _) fun w u w' hrun => emit_ok hrun))
        _ hinv₁ ⟨ht, hplan₁.step hid horder hcompensated⟩
      rintro u w₂ hinv₂ ⟨⟨hu, rfl⟩, hplan₂⟩
      apply settles_bind (Keeps.frame (stable_planned t plan) checkpoint_keeps)
        _ hinv₂ ⟨hu, hplan₂⟩
      rintro _ w₃ hinv₃ ⟨-, hplan₃⟩
      exact ih hinv₃ hu.1 (hst.trans hstatus) hplan₃

theorem settles_map {β : Type} {m : Action ω α} {f : α → Action ω β} {w : World ω}
    (hf : ∀ a, ∃ b, f a = pure b) (h : Settles e d k (m w)) : Settles e d k ((m >>= f) w) := by
  rw [Prog.bind_apply]
  cases hm : m w with
  | mk o w' =>
    rw [hm] at h
    cases o with
    | ok a =>
      obtain ⟨b, hb⟩ := hf a
      dsimp only
      rw [hb]
      exact ⟨h.1, fun _ => h.2 nofun⟩
    | err err => exact ⟨h.1, fun _ => h.2 nofun⟩
    | halted => exact ⟨h.1, fun hhalted => absurd rfl hhalted⟩

theorem compensate_settles {s : ExecutionState} {w : World ω} (gas : Nat) (error : String)
    (hinv : (contract e k).inv w) (hgood : (contract e k).Good d s w)
    : Settles e d k (e.compensate d gas s error w) := by
  unfold compensate markFailed
  by_cases hrunning : s.status = .running
  . rw [if_pos hrunning, transition_bind (by rw [hrunning]; rfl), Prog.bind_assoc]
    apply settles_persist hinv.1
    rw [Prog.bind_assoc]
    simp only [Prog.pure_bind]
    by_cases hplan : rollbackPlan d { s with status := .failed, version := s.version + 1 } = []
    . simp only [if_pos hplan]
      apply settles_failed
      . exact hinv.1
      . exact hgood.1
      . rw [hplan]
        exact nofun
    . simp only [if_neg hplan]
      apply settles_persist
      . exact hinv.1
      rw [transition_bind (by rfl)]
      apply settles_persist
      . exact hinv.1.save _
      apply settles_persist
      . exact hinv.1.save _
      apply settles_map fun x => ⟨_, rfl⟩
      apply rollback_settles gas error
      . refine ⟨World.WellKeyed.save (hinv.1.save _) _, ?_⟩
        intro t ht
        unfold World.save at ht
        rw [Map.getElem?_insert, if_pos hgood.1] at ht
        cases ht
        exact nofun
      . exact hgood.1
      . rfl
      . exact fun x hx => .inl hx
  . rw [if_neg hrunning, Prog.pure_bind]
    split
    . exact settles_of_inv hinv
    . unfold transition
      rw [if_neg, Prog.fail_bind]
      . exact settles_of_inv hinv
      . have hfailed : s.status ≠ .failed := hgood.2
        cases hstatus : s.status <;> simp_all [WorkflowState.canTransition]

theorem nests (gas : Nat) (d : Definition) : Nests (contract e k) (e.drive gas) d := by
  intro s a resolver childName child ha htype hresolver hname _ w hinv h
  have hkey : e.backend.key s.executionId = k := h.1.1
  let root := e.backend.key (childId s a)
  have hoff : ¬Footprint e root k := by
    intro hfoot
    have hle := hfoot.length_le
    rw [← hkey, Backend.key_length, Backend.key_length] at hle
    simp only [childId, String.length_append] at hle
    have hsep : "::".length = 2 := by decide
    omega
  have hchild := runChild_keeps (footprintContract_closed root)
    (drive_keeps (footprintContract_closed root) gas) (childId s a) a.inputs
    (d := child) (P := fun _ => True)
    (fun w' hinv' _ => .inl rfl) (fun w' t hinv' _ ht => footprint_latest hinv' ht)
  obtain ⟨hwellKeyed, huntouched, -⟩ := hchild w hinv.1 trivial
  refine ⟨⟨hwellKeyed, ?_⟩, huntouched.calls, fun _ _ => h.1⟩
  intro t ht
  rw [huntouched.checkpoints k hoff] at ht
  exact hinv.2 t ht

theorem drive_settles (gas : Nat) {s : ExecutionState} {w : World ω}
    (hinv : (contract e k).inv w) (hgood : (contract e k).Good d s w)
    : Settles e d k (e.drive gas d s w) := by
  induction gas generalizing s w with
  | zero => exact settles_of_inv hinv
  | succ gas ih =>
    unfold drive
    apply settles_bind (applySkips_keeps _) _ hinv hgood
    intro t w₁ hinv₁ ht
    apply settles_bind (Keeps.ofOption _ fun _ _ _ _ h => h) _ hinv₁ ht
    intro complete w₂ hinv₂ ht
    split
    . refine settles_of_keeps (finish_keeps ?_) hinv₂ ht
      exact fun _ _ h => ⟨h.1, by simp⟩
    . apply settles_bind (Keeps.ofOption _ fun _ _ _ _ h => h) _ hinv₂ ht
      intro batch w₃ hinv₃ ht
      split
      . apply settles_bind (runReadyBatch_keeps gas batch) _ hinv₃ ht
        rintro ⟨u, step⟩ w₄ hinv₄ hu
        cases step with
        | allSettled => exact ih hinv₄ hu
        | failed msg => exact compensate_settles gas msg hinv₄ hu
        | interrupted activity msg =>
          exact settles_of_keeps (interrupt_keeps activity msg) hinv₄ hu
      . unfold driveOne
        apply settles_bind (Keeps.ofOption _ fun _ _ _ _ h => h) _ hinv₃ ht
        intro ready w₄ hinv₄ ht
        cases ready with
        | none => exact compensate_settles gas _ hinv₄ ht
        | some id =>
          apply settles_bind (runActivity_keeps (nests gas d) gas id) _ hinv₄ ht
          rintro ⟨u, step⟩ w₅ hinv₅ hu
          cases step with
          | completed => exact ih hinv₅ hu
          | failed msg => exact compensate_settles gas msg hinv₅ hu
          | interrupted msg => exact settles_of_keeps (interrupt_keeps id msg) hinv₅ hu

theorem resumeBy_settles {executionId : String} {w : World ω} (process : Process ω)
    (hw : w.WellKeyed e) (hguard : ¬Unfinished e d executionId w)
    : Settles e d (e.backend.key executionId) (e.resumeBy d executionId w process) := by
  -- A resume that changes nothing returns with what the guard says.
  have hsame : ∀ r : Outcome Error (RunOutcome × ExecutionState),
      Settles e d (e.backend.key executionId) (r, w.boot process) := by
    intro r
    refine ⟨hw, ?_⟩
    intro _ s hs hfailed
    by_contra hrolledBack
    exact hguard ⟨s, hs, .inr ⟨hfailed, hrolledBack⟩⟩
  unfold resumeBy resume resumeWith
  rw [Prog.bind_apply]
  have hlatest : e.latest executionId (w.boot process)
      = (.ok (w.latest e executionId), w.boot process) := rfl
  rw [hlatest]
  cases hfound : w.latest e executionId with
  | none => exact hsame _
  | some s =>
    dsimp only
    cases hpin : assertPinnedDefinition d s with
    | error err => exact hsame _
    | ok =>
      have hdrive (hstatus : s.status ≠ .failed)
          : Settles e d (e.backend.key executionId) (e.drive process.gas d s (w.boot process)) := by
        apply drive_settles process.gas
        . refine ⟨hw, ?_⟩
          intro t ht
          cases hfound.symm.trans ht
          exact hstatus
        . exact ⟨hw.latest hfound, hstatus⟩
      simp only [Prog.ofExcept, Prog.pure_bind]
      cases hstatus : s.status with
      | completed => exact hsame _
      | failed => exact hsame _
      | cancelled => exact hsame _
      | _ => exact hdrive (by rw [hstatus]; decide)

theorem wellKeyed_startBy {executionId : String} {w : World ω} (input : Value) (process : Process ω)
    (hw : w.WellKeyed e) : (e.startBy d executionId input w process).WellKeyed e := by
  exact (start_footprint d executionId input (w.boot process) hw trivial).1

theorem wellKeyed_resumeBy {executionId : String} {w : World ω} (process : Process ω)
    (hw : w.WellKeyed e) : (e.resumeBy d executionId w process).2.WellKeyed e := by
  exact (resume_footprint d executionId process.gas (w.boot process) hw trivial).1

end Saga

open Saga

/--
In every run that starts an execution and resumes it any number of times, where a process may stop
before any of its writes: a resume is complete if it does not start in the middle of a rollback.
-/
theorem sagaComplete_of_run {ω : Type} (e : Engine ω) (d : Definition) (executionId : String)
    (input : Value) (w₀ : World ω) (process₀ : Process ω) (hw₀ : w₀.WellKeyed e)
    (processes : List (Process ω)) (w : World ω)
    (hrun : Run (Guarded (fun w _ => ¬Unfinished e d executionId w)
        fun w process => (e.resumeBy d executionId w process).2)
      (e.startBy d executionId input w₀ process₀) processes w)
    (process : Process ω) (hguard : ¬Unfinished e d executionId w)
    : SagaComplete e d executionId w (e.resumeBy d executionId w process) := by
  have hw : w.WellKeyed e := by
    apply Run.invariant (P := fun w => w.WellKeyed e) _ hrun
    . exact wellKeyed_startBy input process₀ hw₀
    . rintro w process' _ hw ⟨-, rfl⟩
      exact wellKeyed_resumeBy process' hw
  obtain ⟨-, hsettled⟩ := resumeBy_settles process hw hguard
  refine ⟨?_, ?_⟩
  . intro hreturns s hs hfailed
    exact .inl (hsettled hreturns s hs hfailed)
  . intro hunfinished
    exact absurd hunfinished hguard

theorem not_unfinished_of_status {ω : Type} {e : Engine ω} {d : Definition} {executionId : String}
    {w : World ω} (h : (w.latest e executionId).map ExecutionState.status = some .running)
    : ¬Unfinished e d executionId w := by
  rintro ⟨s, hs, hstatus⟩
  rw [hs, Option.map_some, Option.some.injEq] at h
  rw [h] at hstatus
  cases hstatus with
  | inl hcompensating => cases hcompensating
  | inr hfailed => cases hfailed.1

namespace Saga

def shipment : Definition where
  metadata := { name := "shipment" }
  spec := {
    activities := [
      { id := "reserve", activityType := "function", compensate := some "release" },
      { id := "ship", activityType := "function" },
      { id := "release", activityType := "function" }]
    transitions := [{ source := "reserve", target := "ship" }] }

def carrier : Engine Unit where
  platform := .integral
  backend := .file
  execute _ ctx :=
    { executor := ()
      progress := []
      reply :=
        if ctx.id = "ship" then
          .error (.permanent "carrier rejected shipment")
        else
          .output .null }
  nowMillis _ := 0
  timers := true
  subworkflows := none

def submitted : World Unit :=
  carrier.startBy shipment "order-1" .null { executor := (), writes := 0 } ⟨(), 9, 5, []⟩

def stoppedAfter (writes : Nat) : World Unit :=
  (carrier.resumeBy shipment "order-1" submitted ⟨(), 9, writes, []⟩).2

end Saga

theorem sagaComplete_stopped_early
    : SagaComplete carrier shipment "order-1" (stoppedAfter 3)
        (carrier.resumeBy shipment "order-1" (stoppedAfter 3) ⟨(), 9, 99, []⟩) := by
  apply sagaComplete_of_run carrier shipment "order-1" .null { executor := (), writes := 0 }
    ⟨(), 9, 5, []⟩ _ [⟨(), 9, 3, []⟩]
  . refine .cons ⟨?_, rfl⟩ (.nil _)
    exact not_unfinished_of_status (by decide +kernel)
  . exact not_unfinished_of_status (by decide +kernel)
  . intro k s hs
    exact absurd hs (by simp)

theorem not_sagaComplete_stopped_failed
    : shipment.validate carrier.platform = .ok ()
        ∧ ¬SagaComplete carrier shipment "order-1" (stoppedAfter 8)
          (carrier.resumeBy shipment "order-1" (stoppedAfter 8) ⟨(), 9, 99, []⟩) := by
  refine ⟨by decide, ?_⟩
  intro h
  have hreturns := h.rolledBack
  generalize hresumed : carrier.resumeBy shipment "order-1" (stoppedAfter 8)
    ⟨(), 9, 99, []⟩ = r at hreturns
  have hpersisted : (r.2.latest carrier "order-1").map
      (fun s => (s.status, s.completedOrder)) = some (.failed, ["reserve"]) := by
    rw [← hresumed]
    decide +kernel
  have hcalls : r.2.calls.all (fun call => !call.rollback) = true := by
    rw [← hresumed]
    decide +kernel
  have hevents : (r.2.events["order-1"]?.getD []).all
      (fun event => match event with | .compensationStepFailed .. => false | _ => true) = true := by
    rw [← hresumed]
    decide +kernel
  have hnotHalted : r.1 ≠ .halted := by
    intro hhalted
    have hok : (match r.1 with | .halted => false | _ => true) = true := by
      rw [← hresumed]
      decide +kernel
    rw [hhalted] at hok
    cases hok
  obtain ⟨s, hs, hstate⟩ := Option.map_eq_some_iff.mp hpersisted
  obtain ⟨hstatus, horder⟩ := Prod.mk.inj hstate
  cases hreturns hnotHalted s hs hstatus with
  | inl hrolledBack =>
    have hid : "reserve" ∈ s.completedOrder := by
      rw [horder]
      exact List.mem_singleton_self _
    obtain ⟨call, hmem, -, hrollback, -⟩ := hrolledBack "reserve" hid
      { id := "reserve", activityType := "function", compensate := some "release" } "release"
      (by decide) rfl
    have := List.all_eq_true.mp hcalls call hmem
    rw [hrollback] at this
    cases this
  | inr hfailed =>
    obtain ⟨activity, compensation, error, hmem⟩ := hfailed
    cases List.all_eq_true.mp hevents _ hmem

end Wovyr.Workflow
