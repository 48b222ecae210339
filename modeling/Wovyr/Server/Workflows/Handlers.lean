import Wovyr.Server.Workflows

/-!
This module contains the rules for the handlers of workflow requests: what such a handler keeps follows
from what its calls of the engine and its changes of the state of the server keep.
-/

namespace Wovyr.Server.Workflows

open Workflow Keeping

variable {ω : Type} (srv : Host ω)

def submissionId (s : AppState ω) (req : SubmitRequest) (d : Definition) : String :=
  req.executionId.getD (d.metadata.name ++ "-" ++ toString s.runCounter)

def definitionFor (s : AppState ω) (executionId : String) : Option String → Option Definition
  | some manifest => (fromYaml srv.engine.platform srv.parseYaml manifest).toOption
  | none => (s.world.latest srv.engine executionId).bind fun t => definitionResolver srv s t.workflowName

def Allows (K : Keeping (AppState ω)) (f : AppState ω → AppState ω) : Prop :=
  ∀ s, K.inv s → K.inv (f s) ∧ K.le s (f s)

structure Bookkeeping (K : Keeping (AppState ω)) : Prop where
  definitions : ∀ save : Std.ExtTreeMap String String → Std.ExtTreeMap String String,
    Allows K fun s => { s with definitions := save s.definitions }
  runCounter : Allows K fun s => { s with runCounter := s.runCounter + 1 }
  -- The write of a file of the server counts like the writes of the engine.
  write : K.Keeps (fun _ => True) (onEngine (Engine.persist id) : Handler ω Unit) (fun _ _ => True)

variable {srv} {K : Keeping (AppState ω)} {P : AppState ω → Prop} {headers : Headers}

theorem Allows.modify {f : AppState ω → AppState ω} (h : Allows K f) {Q : AppState ω → Prop}
    (hQ : ∀ s, P s → Q (f s)) : K.Keeps P (Prog.modify f : Handler ω Unit) (fun _ => Q) :=
  Keeps.modify f (fun s hinv _ => (h s hinv).1) (fun s hinv _ => (h s hinv).2) (fun s _ hP => hQ s hP)

theorem onEngine_state {α : Type} (m : Action ω α) (s : AppState ω)
    : (onEngine m s).2 = { s with world := (m s.world).2 } := by
  unfold onEngine
  cases m s.world with
  | mk o w => cases o <;> rfl

theorem tenantAuthorize_keeps (headers : Headers) (scope : String)
    : K.Keeps P (tenantAuthorize srv headers scope)
        (fun tenant s => P s ∧ Tenancy.tenantAuthorize srv.admins s.tenancy headers scope = .ok tenant) := by
  unfold tenantAuthorize
  apply Keeps.bind (Q := fun tenancy s => P s ∧ s.tenancy = tenancy)
  . exact Keeps.gets _ fun s _ h => ⟨h, rfl⟩
  . intro tenancy
    apply Keeps.ofExcept
    rintro tenant s hok - ⟨h, rfl⟩
    exact ⟨h, hok⟩

theorem requireWorkflowVisible_keeps (id tenant : String)
    : K.Keeps P (requireWorkflowVisible id tenant) (fun _ s => P s ∧ s.workflowVisible id tenant = true) := by
  unfold requireWorkflowVisible
  apply Keeps.bind (Q := fun visible s => P s ∧ s.workflowVisible id tenant = visible)
  . exact Keeps.gets _ fun s _ h => ⟨h, rfl⟩
  . intro visible
    cases visible with
    | true => exact Keeps.pure _ fun _ _ h => h
    | false => exact Keeps.fail _

theorem fromYaml_keeps (manifest : String)
    : K.Keeps P
        (Prog.ofExcept ((fromYaml srv.engine.platform srv.parseYaml manifest).mapError validationFailed)
          : Handler ω Definition)
        (fun d s => P s ∧ fromYaml srv.engine.platform srv.parseYaml manifest = .ok d) := by
  apply Keeps.ofExcept
  intro d s hok _ h
  cases hyaml : fromYaml srv.engine.platform srv.parseYaml manifest with
  | error e =>
    rw [hyaml] at hok
    cases hok
  | ok d' =>
    rw [hyaml] at hok
    cases hok
    exact ⟨h, rfl⟩

theorem resolveDefinition_keeps (id : String) (manifest : Option String)
    : K.Keeps P (resolveDefinition srv id manifest)
        (fun d s => P s ∧ definitionFor srv s id manifest = some d) := by
  unfold resolveDefinition
  cases manifest with
  | some manifest =>
    apply Keeps.post (fromYaml_keeps manifest)
    intro d s h
    refine ⟨h.1, ?_⟩
    unfold definitionFor
    dsimp only
    rw [h.2]
    rfl
  | none =>
    apply Keeps.bind (Q := fun found s => P s ∧ s.world.latest srv.engine id = found)
    . intro s hinv h
      have hrun : onEngine (srv.engine.latest id) s = (.ok (s.world.latest srv.engine id), s) := rfl
      rw [hrun]
      refine ⟨hinv, K.refl s, ?_⟩
      intro found hfound
      cases hfound
      exact ⟨h, rfl⟩
    intro found
    cases found with
    | none => exact Keeps.fail _
    | some t =>
      apply Keeps.bind (Q := fun found s => (P s ∧ s.world.latest srv.engine id = some t)
        ∧ definitionResolver srv s t.workflowName = found)
      . exact Keeps.gets _ fun s _ h => ⟨h, rfl⟩
      intro found
      cases found with
      | none => exact Keeps.fail _
      | some d =>
        apply Keeps.pure
        rintro s - ⟨⟨h, hlatest⟩, hfound⟩
        refine ⟨h, ?_⟩
        unfold definitionFor
        dsimp only
        rw [hlatest]
        exact hfound

theorem deriveExecutionId_keeps (hbooks : Bookkeeping K) {A : String → Prop} (req : SubmitRequest)
    (d : Definition)
    : K.Keeps (fun s => A (submissionId s req d)) (deriveExecutionId req d) (fun id _ => A id) := by
  unfold deriveExecutionId submissionId
  cases req.executionId with
  | some executionId => exact Keeps.pure _ fun _ _ h => h
  | none =>
    apply Keeps.bind (Q := fun counter _ => A (d.metadata.name ++ "-" ++ toString counter))
    . exact Keeps.gets _ fun _ _ h => h
    intro counter
    apply Keeps.bind (Q := fun _ _ => A (d.metadata.name ++ "-" ++ toString counter))
    . exact hbooks.runCounter.modify fun _ h => h
    intro _
    exact Keeps.pure _ fun _ _ h => h

theorem saveDefinition_keeps (hbooks : Bookkeeping K) {name manifest : String}
    (hP : ∀ s definitions, P s → P { s with definitions })
    : K.Keeps P (saveDefinition srv name manifest) (fun _ => P) := by
  unfold saveDefinition
  cases srv.engine.backend with
  | file =>
    have hsave := hbooks.definitions fun definitions => definitions.insert (Backend.file.key name) manifest
    exact hsave.modify fun s h => hP s _ h
  | memory => exact Allows.modify (fun s hinv => ⟨hinv, K.refl s⟩) fun _ h => h

theorem recordOwner_keeps (hbooks : Bookkeeping K) {executionId tenant : String}
    (howner : Allows K (·.recordWorkflowOwner executionId tenant))
    : K.Keeps P (recordOwner executionId tenant)
        (fun _ s => s.workflowOwners[executionId]? = some tenant) := by
  unfold recordOwner
  apply Keeps.bind (Keeps.pre (fun _ _ _ => trivial) hbooks.write)
  intro _
  apply howner.modify
  intro s _
  unfold AppState.recordWorkflowOwner
  rw [Map.getElem?_insert, if_pos rfl]

/--
A submission: `A` is what is known of the tenant, the definition and the id before anything is filed.
-/
theorem submit_keeps (hbooks : Bookkeeping K) {req : SubmitRequest} {A : String → Definition → String → Prop}
    (hP : ∀ s tenant d, P s →
      Tenancy.tenantAuthorize srv.admins s.tenancy headers "workflows:run" = .ok tenant →
      fromYaml srv.engine.platform srv.parseYaml req.manifest = .ok d → A tenant d (submissionId s req d))
    (hstart : ∀ tenant d id, A tenant d id → K.Keeps (fun _ => True)
      (onEngine (srv.engine.start d id (stampInput tenant (Tenancy.runProject headers) req.input)))
      (fun _ _ => True))
    (howner : ∀ tenant d id, A tenant d id → Allows K (·.recordWorkflowOwner id tenant))
    (hspawn : ∀ tenant d id, A tenant d id → K.Keeps (fun s => s.workflowOwners[id]? = some tenant)
      (Prog.modify fun s => { s with spawned := s.spawned ++ [⟨tenant, d, id⟩] } : Handler ω Unit)
      (fun _ _ => True))
    : K.Keeps P (submit srv headers req) (fun _ _ => True) := by
  unfold submit
  apply Keeps.bind (tenantAuthorize_keeps headers "workflows:run")
  intro tenant
  apply Keeps.bind (Q := fun d s => A tenant d (submissionId s req d))
  . apply Keeps.post (fromYaml_keeps req.manifest)
    rintro d s ⟨⟨h, hauth⟩, hyaml⟩
    exact hP s tenant d h hauth hyaml
  intro d
  apply Keeps.bind (saveDefinition_keeps hbooks fun s definitions h => h)
  intro _
  apply Keeps.bind (deriveExecutionId_keeps hbooks req d)
  intro id
  apply Keeps.given fun _ _ h => h
  intro hid
  apply Keeps.bind (Keeps.pre (fun _ _ _ => trivial) (hstart tenant d id hid))
  intro _
  apply Keeps.bind (recordOwner_keeps hbooks (howner tenant d id hid))
  intro _
  apply Keeps.bind (hspawn tenant d id hid)
  intro _
  exact Keeps.pure _ fun _ _ _ => trivial

theorem deliver_keeps {gas : Nat} {id : String} {manifest : Option String} {event : String} {payload : Value}
    (hsignal : ∀ tenant d, K.Keeps
      (fun s => ((P s ∧ Tenancy.tenantAuthorize srv.admins s.tenancy headers "workflows:run" = .ok tenant)
        ∧ s.workflowVisible id tenant = true) ∧ definitionFor srv s id manifest = some d)
      (onEngine (srv.engine.signalEvent gas d id event payload)) (fun _ _ => True))
    : K.Keeps P (deliver srv headers gas id manifest event payload) (fun _ _ => True) := by
  unfold deliver
  apply Keeps.bind (tenantAuthorize_keeps headers "workflows:run")
  intro tenant
  apply Keeps.bind (requireWorkflowVisible_keeps id tenant)
  intro _
  apply Keeps.bind (resolveDefinition_keeps id manifest)
  intro d
  apply Keeps.bind (hsignal tenant d)
  intro _
  exact Keeps.pure _ fun _ _ _ => trivial

theorem cancel_keeps {id : String}
    (hcancel : ∀ tenant, K.Keeps
      (fun s => (P s ∧ Tenancy.tenantAuthorize srv.admins s.tenancy headers "workflows:write" = .ok tenant)
        ∧ s.workflowVisible id tenant = true)
      (onEngine (srv.engine.cancel id)) (fun _ _ => True))
    : K.Keeps P (cancel srv headers id) (fun _ _ => True) := by
  unfold cancel
  apply Keeps.bind (tenantAuthorize_keeps headers "workflows:write")
  intro tenant
  apply Keeps.bind (requireWorkflowVisible_keeps id tenant)
  intro _
  apply Keeps.bind (hcancel tenant)
  intro _
  exact Keeps.pure _ fun _ _ _ => trivial

end Wovyr.Server.Workflows
