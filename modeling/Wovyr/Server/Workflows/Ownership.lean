import Wovyr.Server.Workflows.Handlers
import Wovyr.Workflow.Footprint

/-!
This module contains the owners of executions over whole runs of the server: requests of any
tenants, what they leave to the background, timers and restarts.
-/

namespace Wovyr.Server.Workflows

open Workflow Keeping

inductive Request where
  | submit (req : SubmitRequest)
  | signal (id : String) (req : SignalRequest)
  | approve (id : String) (req : ApproveRequest)
  | cancel (id : String)

def Request.scope : Request → String
  | .cancel _ => "workflows:write"
  | _ => "workflows:run"

inductive Move (ω : Type) where
  | request (process : Process ω) (headers : Headers) (request : Request)
  | background (process : Process ω) (i : Nat)
  | fireTimer (process : Process ω) (definition : Definition) (executionId timer : String)
  | draw
  | setTenancy (tenancy : TenancyState)
  | restart

section

variable {ω : Type} (srv : Host ω)

def handle (headers : Headers) (gas : Nat) : Request → Handler ω Value
  | .submit req => submit srv headers req
  | .signal id req => signal srv headers gas id req
  | .approve id req => approve srv headers gas id req
  | .cancel id => cancel srv headers id

def runTask (gas : Nat) (task : Spawned) : Handler ω Unit := do
  let _ ← onEngine (srv.engine.resume gas task.definition task.executionId)

namespace AppState

def boot (s : AppState ω) (process : Process ω) : AppState ω :=
  { s with world := s.world.boot process }

-- The stores are gone after a restart if they are kept in memory.
def restart (s : AppState ω) : AppState ω :=
  match srv.engine.backend with
  | .file => { s with runCounter := 1, spawned := [] }
  | .memory =>
    { tenancy := s.tenancy
      world := { executor := s.world.executor, calls := s.world.calls, writes := 0 } }

end AppState

def move (s : AppState ω) : Move ω → AppState ω
  | .request process headers request => (handle srv headers process.gas request (s.boot process)).2
  | .background process i =>
    match s.spawned[i]? with
    | some task =>
      (runTask srv process.gas task { s.boot process with spawned := s.spawned.eraseIdx i }).2
    | none => s
  | .fireTimer process d executionId timer =>
    (onEngine (srv.engine.fireTimer process.gas d executionId timer) (s.boot process)).2
  | .draw => { s with runCounter := s.runCounter + 1 }
  | .setTenancy tenancy => { s with tenancy }
  | .restart => s.restart srv

def actsFor (s : AppState ω) : Move ω → Option String
  | .request _ headers request =>
    (Tenancy.tenantAuthorize srv.admins s.tenancy headers request.scope).toOption
  | .background _ i => (s.spawned[i]?).map Spawned.tenant
  | _ => none

-- The execution that a request takes though the index does not name its tenant as the owner.
def Takes (s : AppState ω) (id : String) : Request → Prop
  | .submit req =>
    ∃ d, fromYaml srv.engine.platform srv.parseYaml req.manifest = .ok d ∧ submissionId s req d = id
  | .signal id' _ | .approve id' _ | .cancel id' => id' = id ∧ s.workflowOwners[id]? = none

-- No other tenant owns an execution that is kept under the key of the id.
def Clear (s : AppState ω) (tenant id : String) : Prop :=
  ∀ id' owner, s.workflowOwners[id']? = some owner →
    srv.engine.backend.key id' = srv.engine.backend.key id → owner = tenant

def Apart (s : AppState ω) (m : Move ω) : Prop :=
  match m with
  | .request _ _ request =>
    ∀ tenant id, actsFor srv s m = some tenant → Takes srv s id request → Clear srv s tenant id
  | _ => True

structure Unchanged (id owner tenant : String) (s t : AppState ω) : Prop where
  checkpoint : t.world.latest srv.engine id = s.world.latest srv.engine id
  events : t.world.events[srv.engine.backend.key id]? = s.world.events[srv.engine.backend.key id]?
  owner : t.workflowOwners[id]? = some owner
  invisible : t.workflowVisible id tenant = false

def Isolated (s : AppState ω) (m : Move ω) : Prop :=
  ∀ tenant id owner, actsFor srv s m = some tenant → s.workflowOwners[id]? = some owner →
    owner ≠ tenant → Unchanged srv id owner tenant s (move srv s m)

structure Consistent (s : AppState ω) : Prop where
  keyed : s.world.WellKeyed srv.engine
  agree : ∀ id owner, s.workflowOwners[id]? = some owner → Clear srv s owner id
  tasks : ∀ task ∈ s.spawned, s.workflowOwners[task.executionId]? = some task.tenant

end

namespace Ownership

variable {ω : Type} {srv : Host ω} {tenant id : String}

structure Moves (srv : Host ω) (tenant id : String) (s t : AppState ω) : Prop where
  world : Untouched (fun k => ¬Footprint srv.engine (srv.engine.backend.key id) k) s.world t.world
  owners : ∀ id', t.workflowOwners[id']? = s.workflowOwners[id']?
    ∨ (id' = id ∧ t.workflowOwners[id]? = some tenant)
  tasks : ∀ task ∈ t.spawned, task ∈ s.spawned
    ∨ (task.executionId = id ∧ task.tenant = tenant ∧ t.workflowOwners[id]? = some tenant)

theorem Moves.refl (s : AppState ω) : Moves srv tenant id s s where
  world := (footprintContract srv.engine (srv.engine.backend.key id)).refl s.world
  owners _ := .inl rfl
  tasks _ h := .inl h

theorem Moves.trans {s t u : AppState ω} (h : Moves srv tenant id s t) (h' : Moves srv tenant id t u)
    : Moves srv tenant id s u where
  world := (footprintContract srv.engine (srv.engine.backend.key id)).trans _ _ _ h.world h'.world
  owners id' := by
    cases h'.owners id' with
    | inr hown => exact .inr hown
    | inl hsame =>
      rw [hsame]
      cases h.owners id' with
      | inl hsame' => exact .inl hsame'
      | inr hown => exact .inr ⟨hown.1, (hown.1 ▸ hsame).trans hown.2⟩
  tasks task htask := by
    cases h'.tasks task htask with
    | inr hown => exact .inr hown
    | inl htask =>
      cases h.tasks task htask with
      | inl htask => exact .inl htask
      | inr hown =>
        refine .inr ⟨hown.1, hown.2.1, ?_⟩
        cases h'.owners id with
        | inl hsame => exact hsame.trans hown.2.2
        | inr hown' => exact hown'.2

def keeping (srv : Host ω) (tenant id : String) : Keeping (AppState ω) where
  inv s := s.world.WellKeyed srv.engine
  le := Moves srv tenant id
  refl := Moves.refl
  trans _ _ _ := Moves.trans

theorem onEngine_keeps {α : Type} {P : AppState ω → Prop} {m : Action ω α}
    (h : (footprintContract srv.engine (srv.engine.backend.key id)).Keeps (fun _ => True) m
      (fun _ _ => True))
    : (keeping srv tenant id).Keeps P (onEngine m) (fun _ _ => True) := by
  intro s hinv _
  obtain ⟨hinv', hle, -⟩ := h s.world hinv trivial
  rw [onEngine_state]
  exact ⟨hinv', ⟨hle, fun _ => .inl rfl, fun _ h => .inl h⟩, fun _ _ => trivial⟩

theorem untouched_refl (outside : String → Prop) (w : World ω) : Untouched outside w w :=
  ⟨fun _ _ => rfl, fun _ _ => rfl, fun _ h => h⟩

theorem bookkeeping : Bookkeeping (keeping srv tenant id) where
  definitions save s hinv := ⟨hinv, untouched_refl _ _, fun _ => .inl rfl, fun _ h => .inl h⟩
  runCounter s hinv := ⟨hinv, untouched_refl _ _, fun _ => .inl rfl, fun _ h => .inl h⟩
  write := by
    apply onEngine_keeps
    intro w hinv _
    unfold Engine.persist
    split
    . exact ⟨hinv, untouched_refl _ _, fun _ _ => trivial⟩
    . exact ⟨hinv, ⟨fun _ _ => rfl, fun _ _ => rfl, fun _ h => h⟩, fun _ _ => trivial⟩

theorem allows_recordWorkflowOwner : Allows (keeping srv tenant id) (·.recordWorkflowOwner id tenant) := by
  intro s hinv
  refine ⟨hinv, untouched_refl _ _, ?_, fun _ h => .inl h⟩
  intro id'
  unfold AppState.recordWorkflowOwner
  dsimp only
  rw [Map.getElem?_insert, Map.getElem?_insert, if_pos rfl]
  by_cases h : id = id'
  . exact .inr ⟨h.symm, rfl⟩
  . exact .inl (if_neg h)

theorem spawn_keeps (d : Definition)
    : (keeping srv tenant id).Keeps (fun s => s.workflowOwners[id]? = some tenant)
        (Prog.modify fun s => { s with spawned := s.spawned ++ [⟨tenant, d, id⟩] } : Handler ω Unit)
        (fun _ _ => True) := by
  apply Keeps.modify
  . intro s hinv _
    exact hinv
  . intro s _ howner
    refine ⟨untouched_refl _ _, fun _ => .inl rfl, ?_⟩
    apply forall_mem_snoc fun _ => Or.inl
    exact .inr ⟨rfl, rfl, howner⟩
  . intro _ _ _
    trivial

theorem submit_keeps {headers : Headers} {req : SubmitRequest}
    : (keeping srv tenant id).Keeps
        (fun s => Tenancy.tenantAuthorize srv.admins s.tenancy headers "workflows:run" = .ok tenant
          ∧ ∀ d, fromYaml srv.engine.platform srv.parseYaml req.manifest = .ok d →
            submissionId s req d = id)
        (submit srv headers req) (fun _ _ => True) := by
  apply Workflows.submit_keeps bookkeeping (A := fun found _ executionId => found = tenant ∧ executionId = id)
  . rintro s found d ⟨htenant, hid⟩ hauth hyaml
    exact ⟨Except.ok.inj (hauth.symm.trans htenant), hid d hyaml⟩
  . rintro found d executionId ⟨rfl, rfl⟩
    exact onEngine_keeps (start_footprint d _ _)
  . rintro found d executionId ⟨rfl, rfl⟩
    exact allows_recordWorkflowOwner
  . rintro found d executionId ⟨rfl, rfl⟩
    exact spawn_keeps d

theorem deliver_keeps {P : AppState ω → Prop} {headers : Headers} {gas : Nat} {manifest : Option String}
    {event : String} {payload : Value}
    : (keeping srv tenant id).Keeps P (deliver srv headers gas id manifest event payload)
        (fun _ _ => True) := by
  apply Workflows.deliver_keeps
  intro found d
  exact onEngine_keeps (deliver_footprint d id gas _ payload)

theorem cancel_keeps {P : AppState ω → Prop} {headers : Headers}
    : (keeping srv tenant id).Keeps P (cancel srv headers id) (fun _ _ => True) := by
  apply Workflows.cancel_keeps
  intro found
  exact onEngine_keeps (cancel_footprint id)

theorem runTask_keeps {gas : Nat} {task : Spawned}
    : (keeping srv tenant task.executionId).Keeps (fun _ => True) (runTask srv gas task)
        (fun _ _ => True) := by
  unfold runTask
  apply Keeps.bind (onEngine_keeps (resume_footprint task.definition task.executionId gas))
  intro _
  exact Keeps.pure _ fun _ _ _ => trivial

theorem authorize_apply {headers : Headers} {scope : String} {s : AppState ω}
    (h : Tenancy.tenantAuthorize srv.admins s.tenancy headers scope = .ok tenant)
    : tenantAuthorize srv headers scope s = (.ok tenant, s) := by
  unfold tenantAuthorize
  rw [Prog.bind_apply]
  dsimp only [Prog.gets]
  rw [h]
  rfl

theorem unauthorized_apply {headers : Headers} {scope : String} {s : AppState ω} {error : ApiError}
    (h : Tenancy.tenantAuthorize srv.admins s.tenancy headers scope = .error error)
    : tenantAuthorize srv headers scope s = (.err error, s) := by
  unfold tenantAuthorize
  rw [Prog.bind_apply]
  dsimp only [Prog.gets]
  rw [h]
  rfl

theorem invisible_apply {s : AppState ω} (h : s.workflowVisible id tenant = false)
    : requireWorkflowVisible id tenant s = (.err (executionNotFound id), s) := by
  unfold requireWorkflowVisible
  rw [Prog.bind_apply]
  dsimp only [Prog.gets]
  rw [h]
  rfl

theorem clear_of_visible {s : AppState ω} (hs : Consistent srv s)
    (hvisible : s.workflowVisible id tenant = true)
    (htakes : s.workflowOwners[id]? = none → Clear srv s tenant id) : Clear srv s tenant id := by
  unfold AppState.workflowVisible at hvisible
  split at hvisible
  next owner howner =>
    rw [← eq_of_beq hvisible]
    exact hs.agree id owner howner
  next hnone => exact htakes hnone

theorem consistent_moves {s t : AppState ω} (hs : Consistent srv s) (hclear : Clear srv s tenant id)
    (hkeyed : t.world.WellKeyed srv.engine) (h : Moves srv tenant id s t) : Consistent srv t where
  keyed := hkeyed
  agree x owner hx y owner' hy hkey := by
    cases h.owners x with
    | inl hsame =>
      rw [hsame] at hx
      cases h.owners y with
      | inl hsame' =>
        rw [hsame'] at hy
        exact hs.agree x owner hx y owner' hy hkey
      | inr hown =>
        rw [hown.1] at hy hkey
        rw [hown.2] at hy
        cases hy
        exact (hclear x owner hx hkey.symm).symm
    | inr hown =>
      rw [hown.1] at hx hkey
      rw [hown.2] at hx
      cases hx
      cases h.owners y with
      | inl hsame' =>
        rw [hsame'] at hy
        exact hclear y owner' hy hkey
      | inr hown' =>
        rw [hown'.1, hown'.2] at hy
        cases hy
        rfl
  tasks task htask := by
    cases h.tasks task htask with
    | inl hold =>
      have howner := hs.tasks task hold
      cases h.owners task.executionId with
      | inl hsame => rw [hsame, howner]
      | inr hown =>
        rw [hown.1, hown.2, hclear task.executionId task.tenant howner (by rw [hown.1])]
    | inr hnew => rw [hnew.1, hnew.2.1, hnew.2.2]

theorem unchanged_moves {s t : AppState ω} {x owner : String} (hclear : Clear srv s tenant id)
    (howner : s.workflowOwners[x]? = some owner) (hne : owner ≠ tenant)
    (h : Moves srv tenant id s t) : Unchanged srv x owner tenant s t := by
  have hkey : srv.engine.backend.key x ≠ srv.engine.backend.key id := by
    intro hkey
    exact hne (hclear x owner howner hkey)
  have houtside : ¬Footprint srv.engine (srv.engine.backend.key id) (srv.engine.backend.key x) := by
    rintro (heq | ⟨hchildren, -⟩)
    . exact hkey heq
    . rw [srv.noChildren] at hchildren
      cases hchildren
  have hsame : t.workflowOwners[x]? = some owner := by
    cases h.owners x with
    | inl hsame => rw [hsame, howner]
    | inr hown => exact absurd (congrArg _ hown.1) hkey
  refine ⟨h.world.checkpoints _ houtside, h.world.events _ houtside, hsame, ?_⟩
  unfold AppState.workflowVisible
  rw [hsame]
  exact beq_false_of_ne hne

def Touches (srv : Host ω) (tenant : String) (s t : AppState ω) : Prop :=
  t = s ∨ ∃ id, Clear srv s tenant id ∧ t.world.WellKeyed srv.engine ∧ Moves srv tenant id s t

theorem deliver_state {headers : Headers} {gas : Nat} {manifest : Option String} {event : String}
    {payload : Value} {s : AppState ω} (hs : Consistent srv s)
    (hauth : Tenancy.tenantAuthorize srv.admins s.tenancy headers "workflows:run" = .ok tenant)
    (hclear : s.workflowOwners[id]? = none → Clear srv s tenant id)
    : Touches srv tenant s (deliver srv headers gas id manifest event payload s).2 := by
  cases hvisible : s.workflowVisible id tenant with
  | false =>
    left
    unfold deliver
    rw [Prog.bind_of_ok (authorize_apply hauth), Prog.bind_of_err (invisible_apply hvisible)]
  | true =>
    have hkeeps : (keeping srv tenant id).Keeps (fun _ => True)
        (deliver srv headers gas id manifest event payload) _ := deliver_keeps
    obtain ⟨hkeyed, hmoves, -⟩ := hkeeps s hs.keyed trivial
    exact .inr ⟨id, clear_of_visible hs hvisible hclear, hkeyed, hmoves⟩

theorem cancel_state {headers : Headers} {s : AppState ω} (hs : Consistent srv s)
    (hauth : Tenancy.tenantAuthorize srv.admins s.tenancy headers "workflows:write" = .ok tenant)
    (hclear : s.workflowOwners[id]? = none → Clear srv s tenant id)
    : Touches srv tenant s (cancel srv headers id s).2 := by
  cases hvisible : s.workflowVisible id tenant with
  | false =>
    left
    unfold cancel
    rw [Prog.bind_of_ok (authorize_apply hauth), Prog.bind_of_err (invisible_apply hvisible)]
  | true =>
    have hkeeps : (keeping srv tenant id).Keeps (fun _ => True) (cancel srv headers id) _ := cancel_keeps
    obtain ⟨hkeyed, hmoves, -⟩ := hkeeps s hs.keyed trivial
    exact .inr ⟨id, clear_of_visible hs hvisible hclear, hkeyed, hmoves⟩

theorem submit_state {headers : Headers} {req : SubmitRequest} {s : AppState ω}
    (hs : Consistent srv s)
    (hauth : Tenancy.tenantAuthorize srv.admins s.tenancy headers "workflows:run" = .ok tenant)
    (hclear : ∀ id, Takes srv s id (.submit req) → Clear srv s tenant id)
    : Touches srv tenant s (submit srv headers req s).2 := by
  cases hyaml : fromYaml srv.engine.platform srv.parseYaml req.manifest with
  | error e =>
    left
    unfold submit
    rw [Prog.bind_of_ok (authorize_apply hauth), hyaml]
    rfl
  | ok d =>
    have hid : ∀ d', fromYaml srv.engine.platform srv.parseYaml req.manifest = .ok d' →
        submissionId s req d' = submissionId s req d := by
      intro d' hd'
      rw [Except.ok.inj (hyaml.symm.trans hd')]
    obtain ⟨hkeyed, hmoves, -⟩ := submit_keeps s hs.keyed ⟨hauth, hid⟩
    exact .inr ⟨_, hclear _ ⟨d, hyaml, rfl⟩, hkeyed, hmoves⟩

theorem handle_state {s : AppState ω} {headers : Headers} {gas : Nat} {request : Request}
    (hs : Consistent srv s)
    (hauth : Tenancy.tenantAuthorize srv.admins s.tenancy headers request.scope = .ok tenant)
    (hclear : ∀ id, Takes srv s id request → Clear srv s tenant id)
    : Touches srv tenant s (handle srv headers gas request s).2 := by
  cases request with
  | submit req => exact submit_state hs hauth hclear
  | signal id req =>
    show Touches srv tenant s (signal srv headers gas id req s).2
    unfold signal
    rw [Prog.bind_pure_state]
    exact deliver_state hs hauth fun hnone => hclear id ⟨rfl, hnone⟩
  | approve id req =>
    show Touches srv tenant s (approve srv headers gas id req s).2
    unfold approve
    rw [Prog.bind_pure_state]
    exact deliver_state hs hauth fun hnone => hclear id ⟨rfl, hnone⟩
  | cancel id => exact cancel_state hs hauth fun hnone => hclear id ⟨rfl, hnone⟩

theorem handle_unauthorized {headers : Headers} {gas : Nat} {request : Request} {s : AppState ω}
    {error : ApiError}
    (h : Tenancy.tenantAuthorize srv.admins s.tenancy headers request.scope = .error error)
    : (handle srv headers gas request s).2 = s := by
  have herr := unauthorized_apply h
  cases request with
  | submit req =>
    show (submit srv headers req s).2 = s
    exact congrArg Prod.snd (Prog.bind_of_err herr)
  | signal id req =>
    show (signal srv headers gas id req s).2 = s
    unfold signal deliver
    rw [Prog.bind_pure_state]
    exact congrArg Prod.snd (Prog.bind_of_err herr)
  | approve id req =>
    show (approve srv headers gas id req s).2 = s
    unfold approve deliver
    rw [Prog.bind_pure_state]
    exact congrArg Prod.snd (Prog.bind_of_err herr)
  | cancel id =>
    show (cancel srv headers id s).2 = s
    exact congrArg Prod.snd (Prog.bind_of_err herr)

theorem consistent_touches {s t : AppState ω} (hs : Consistent srv s) (h : Touches srv tenant s t)
    : Consistent srv t := by
  cases h with
  | inl hsame => exact hsame ▸ hs
  | inr hmoves =>
    obtain ⟨id, hclear, hkeyed, hmoves⟩ := hmoves
    exact consistent_moves hs hclear hkeyed hmoves

theorem unchanged_touches {s t : AppState ω} {x owner : String} (h : Touches srv tenant s t)
    (howner : s.workflowOwners[x]? = some owner) (hne : owner ≠ tenant)
    : Unchanged srv x owner tenant s t := by
  cases h with
  | inl hsame =>
    rw [hsame]
    refine ⟨rfl, rfl, howner, ?_⟩
    unfold AppState.workflowVisible
    rw [howner]
    exact beq_false_of_ne hne
  | inr hmoves =>
    obtain ⟨id, hclear, -, hmoves⟩ := hmoves
    exact unchanged_moves hclear howner hne hmoves

theorem consistent_boot {s : AppState ω} (hs : Consistent srv s) (process : Process ω)
    : Consistent srv (s.boot process) :=
  ⟨hs.keyed, hs.agree, hs.tasks⟩

theorem actsFor_request (s : AppState ω) (process : Process ω) (headers : Headers) (request : Request)
    : actsFor srv s (.request process headers request)
        = (Tenancy.tenantAuthorize srv.admins s.tenancy headers request.scope).toOption :=
  rfl

theorem request_state {s : AppState ω} {process : Process ω} {headers : Headers} {request : Request}
    (hs : Consistent srv s) (hapart : Apart srv s (.request process headers request))
    (hauth : Tenancy.tenantAuthorize srv.admins s.tenancy headers request.scope = .ok tenant)
    : Touches srv tenant (s.boot process) (move srv s (.request process headers request)) := by
  apply handle_state (consistent_boot hs process) hauth
  intro id htakes
  refine hapart tenant id (by rw [actsFor_request, hauth]; rfl) ?_
  cases request with
  | submit req => exact htakes
  | signal | approve | cancel => exact htakes

theorem actsFor_background (s : AppState ω) (process : Process ω) (i : Nat)
    : actsFor srv s (.background process i) = (s.spawned[i]?).map Spawned.tenant :=
  rfl

theorem background_state {s : AppState ω} (process : Process ω) {i : Nat} {task : Spawned}
    (hs : Consistent srv s) (htask : s.spawned[i]? = some task)
    : Touches srv task.tenant { s.boot process with spawned := s.spawned.eraseIdx i }
        (move srv s (.background process i)) := by
  have hclear : Clear srv s task.tenant task.executionId :=
    hs.agree _ _ (hs.tasks task (List.mem_of_getElem? htask))
  unfold move
  dsimp only
  rw [htask]
  have hkeeps : (keeping srv task.tenant task.executionId).Keeps _ (runTask srv process.gas task) _ :=
    runTask_keeps
  obtain ⟨hkeyed, hmoves, -⟩ :=
    hkeeps { s.boot process with spawned := s.spawned.eraseIdx i } hs.keyed trivial
  exact .inr ⟨task.executionId, hclear, hkeyed, hmoves⟩

theorem consistent_erase {s : AppState ω} (hs : Consistent srv s) (process : Process ω) (i : Nat)
    : Consistent srv { s.boot process with spawned := s.spawned.eraseIdx i } :=
  ⟨hs.keyed, hs.agree, fun task htask => hs.tasks task (List.mem_of_mem_eraseIdx htask)⟩

theorem consistent_empty {s : AppState ω} (hkeyed : s.world.WellKeyed srv.engine)
    (howners : s.workflowOwners = ∅) (hspawned : s.spawned = []) : Consistent srv s where
  keyed := hkeyed
  agree id owner howner := by
    rw [howners] at howner
    exact absurd howner (by simp)
  tasks task htask := by
    rw [hspawned] at htask
    cases htask

theorem consistent_restart {s : AppState ω} (hs : Consistent srv s)
    : Consistent srv (s.restart srv) := by
  unfold AppState.restart
  split
  . exact ⟨hs.keyed, hs.agree, fun _ h => by cases h⟩
  . exact consistent_empty (fun k t h => absurd h (by simp)) rfl rfl

theorem consistent_move {s : AppState ω} {m : Move ω} (hs : Consistent srv s) (hapart : Apart srv s m)
    : Consistent srv (move srv s m) := by
  cases m with
  | request process headers request =>
    cases hauth : Tenancy.tenantAuthorize srv.admins s.tenancy headers request.scope with
    | ok tenant =>
      exact consistent_touches (consistent_boot hs process) (request_state hs hapart hauth)
    | error e =>
      have hsame : move srv s (.request process headers request) = s.boot process :=
        handle_unauthorized hauth
      rw [hsame]
      exact consistent_boot hs process
  | background process i =>
    cases htask : s.spawned[i]? with
    | some task => exact consistent_touches (consistent_erase hs process i) (background_state process hs htask)
    | none =>
      unfold move
      dsimp only
      rw [htask]
      exact hs
  | fireTimer process d executionId timer =>
    unfold move
    dsimp only
    rw [onEngine_state]
    have hkeyed := (deliver_footprint d executionId process.gas ("timer." ++ timer) (.bool true)
      (s.boot process).world hs.keyed trivial).1
    exact ⟨hkeyed, hs.agree, hs.tasks⟩
  | draw => exact ⟨hs.keyed, hs.agree, hs.tasks⟩
  | setTenancy tenancy => exact ⟨hs.keyed, hs.agree, hs.tasks⟩
  | restart => exact consistent_restart hs

theorem isolated_move {s : AppState ω} {m : Move ω} (hs : Consistent srv s) (hapart : Apart srv s m)
    : Isolated srv s m := by
  intro tenant id owner hacts howner hne
  cases m with
  | request process headers request =>
    rw [actsFor_request] at hacts
    cases hauth : Tenancy.tenantAuthorize srv.admins s.tenancy headers request.scope with
    | error e =>
      rw [hauth] at hacts
      cases hacts
    | ok found =>
      rw [hauth] at hacts
      cases hacts
      obtain ⟨hcheckpoint, hevents, howner', hinvisible⟩ :=
        unchanged_touches (request_state hs hapart hauth) howner hne
      exact ⟨hcheckpoint, hevents, howner', hinvisible⟩
  | background process i =>
    cases htask : s.spawned[i]? with
    | none =>
      rw [actsFor_background, htask] at hacts
      cases hacts
    | some task =>
      rw [actsFor_background, htask] at hacts
      cases hacts
      obtain ⟨hcheckpoint, hevents, howner', hinvisible⟩ :=
        unchanged_touches (background_state process hs htask) howner hne
      exact ⟨hcheckpoint, hevents, howner', hinvisible⟩
  | fireTimer | draw | setTenancy | restart => cases hacts

end Ownership

open Ownership

/--
In every run of the server, by any tenants and with any number of restarts: a request of a tenant
leaves the executions of the others alone, if every request of the run that takes an execution
without asking for its owner finds no execution of another tenant under its key.
-/
theorem isolated_of_run {ω : Type} (srv : Host ω) (s₀ : AppState ω)
    (hkeyed : s₀.world.WellKeyed srv.engine) (howners : s₀.workflowOwners = ∅)
    (hspawned : s₀.spawned = []) (moves : List (Move ω)) (s : AppState ω)
    (hrun : Run (Guarded (Apart srv) (move srv)) s₀ moves s) (m : Move ω) (hapart : Apart srv s m)
    : Isolated srv s m := by
  have hs : Consistent srv s := by
    apply Run.invariant (P := Consistent srv) _ hrun
    . exact consistent_empty hkeyed howners hspawned
    . rintro s m _ hs ⟨hapart, rfl⟩
      exact consistent_move hs hapart
  exact isolated_move hs hapart

namespace Ownership

def greeting : Definition where
  metadata := { name := "greeting" }
  spec := { activities := [{ id := "greet", activityType := "agent" }] }

def desk : Host Unit where
  engine := {
    platform := .integral
    backend := .file
    execute _ _ := { executor := (), progress := [], reply := .output .null }
    nowMillis _ := 0
    timers := true
    subworkflows := none }
  noChildren := rfl
  admins := none
  parseYaml _ := .ok greeting

def twoOwners : AppState Unit where
  tenancy :=
    let acme := Organization.new "acme" "ops"
    let globex := Organization.new "globex" "lab"
    { TenancyState.empty with
      orgs := (TenancyState.empty.orgs.insert acme.id acme).insert globex.id globex
      memberships := [⟨"alice", .orgAdmin, .organization acme.id⟩,
        ⟨"bob", .orgAdmin, .organization globex.id⟩] }
  world := { executor := (), writes := 0 }

def submits (tenant principal : String) (executionId : Option String) : Move Unit :=
  .request ⟨(), 9, 9, []⟩
    (((∅ : Headers).insert "x-wovyr-tenant" tenant).insert "x-wovyr-principal" principal)
    (.submit { manifest := "greeting.yaml", executionId })

def afterBob : AppState Unit :=
  move desk twoOwners (submits "globex" "bob" none)

theorem apart_bob : Apart desk twoOwners (submits "globex" "bob" none) := by
  intro tenant id _ _ id' owner howner
  exact absurd howner (by simp [twoOwners])

theorem apart_alice : Apart desk afterBob (submits "acme" "alice" (some "hello")) := by
  rintro tenant id - ⟨d, -, rfl⟩ id' owner howner hkey
  have howners : afterBob.workflowOwners.toList = [("greeting-1", "globex")] := by decide
  rw [← Std.ExtTreeMap.mem_toList_iff_getElem?_eq_some, howners, List.mem_singleton] at howner
  cases howner
  have hne : Backend.file.key "greeting-1" ≠ Backend.file.key "hello" := by decide
  exact absurd hkey hne

end Ownership

theorem isolated_own_id
    : (move desk afterBob
        (submits "acme" "alice" (some "hello"))).workflowOwners["greeting-1"]?
        = some "globex" := by
  have hisolated := isolated_of_run desk twoOwners
    (fun _ _ h => absurd h (by simp [twoOwners])) rfl rfl
    [submits "globex" "bob" none] afterBob
    (.cons ⟨apart_bob, rfl⟩ (.nil _)) (submits "acme" "alice" (some "hello"))
    apart_alice
  have hunchanged := hisolated "acme" "greeting-1" "globex" (by decide) (by decide)
    (by decide)
  exact hunchanged.owner

theorem not_isolated_restart
    : ¬Isolated desk (move desk afterBob .restart)
        (submits "acme" "alice" none) := by
  intro h
  have hunchanged := h "acme" "greeting-1" "globex" (by decide) (by decide) (by decide)
  have howner := hunchanged.owner
  revert howner
  decide

end Wovyr.Server.Workflows
