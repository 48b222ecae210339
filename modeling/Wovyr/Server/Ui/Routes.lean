import Wovyr.Server.Ui.Boundary
import Wovyr.Server.Workflows.Ownership

/-!
This module contains the runs of the server in which requests submit executions, signal and approve
them and decide on frames.
-/

namespace Wovyr.Server.Ui

open Wovyr.Ui Workflow Server.Workflows Boundary

namespace Boundary

inductive Move (ι : Type) where
  | request (process : Process ι) (headers : Headers) (request : Workflows.Request)
  | decide (process : Process ι) (headers : Headers) (frameId action : String)
    (values : Std.ExtTreeMap String Value)
  | present (headers : Headers) (frameValue : Value)
  | background (process : Process ι) (i : Nat)
  | fireTimer (process : Process ι) (definition : Definition) (executionId timer : String)
  | draw
  | setTenancy (tenancy : TenancyState)
  | setClock (clockMs : Nat)
  | restart

section

variable {ι : Type} (srv : UiHost ι) (root : String) (library : List Definition)

-- The other activities find what the process brings, the frames stay.
def seat (desk : UiDesk ι) (process : Process ι) : Process (UiDesk ι) :=
  { process with executor := { desk with inner := process.executor } }

def boot (s : AppState (UiDesk ι)) (process : Process ι) : AppState (UiDesk ι) :=
  s.boot (seat s.world.executor process)

def setDesk (s : AppState (UiDesk ι)) (desk : UiDesk ι) : AppState (UiDesk ι) :=
  { s with world := { s.world with executor := desk } }

-- The pending frames are kept in a file, if the executions are.
def restart (s : AppState (UiDesk ι)) : AppState (UiDesk ι) :=
  let s := s.restart srv.host
  let desk : UiDesk ι := { s.world.executor with decisions := {}, standaloneSeq := 0 }
  match srv.host.engine.backend with
  | .file => setDesk s desk
  | .memory => setDesk s { desk with frames := ∅ }

def move (s : AppState (UiDesk ι)) : Move ι → AppState (UiDesk ι)
  | .request process headers request => (handle srv.host headers process.gas request (boot s process)).2
  | .decide process headers frameId action values =>
    (decideHandler srv headers process.gas frameId action values (boot s process)).2
  | .present headers frameValue => (presentHandler srv headers frameValue s).2
  | .background process i =>
    match s.spawned[i]? with
    | some task =>
      (runTask srv.host process.gas task { boot s process with spawned := s.spawned.eraseIdx i }).2
    | none => s
  | .fireTimer process d executionId timer =>
    (onEngine (srv.host.engine.fireTimer process.gas d executionId timer) (boot s process)).2
  | .draw => { s with runCounter := s.runCounter + 1 }
  | .setTenancy tenancy => { s with tenancy }
  | .setClock clockMs => setDesk s { s.world.executor with clockMs }
  | .restart => restart srv s

def resolved (s : AppState (UiDesk ι)) (executionId : String) : Option String → Option Definition
  | some manifest => (Workflows.fromYaml srv.host.engine.platform srv.host.parseYaml manifest).toOption
  | none =>
    (s.world.latest srv.host.engine executionId).bind fun t =>
      definitionResolver srv.host s t.workflowName

-- No `ui` activity of the execution looks at the variable.
def Spares (w : World (UiDesk ι)) (key : String) : Prop :=
  ∀ t d a, w.latest srv.host.engine root = some t → d ∈ library → Of d t → UiActivity srv d a →
    key ≠ a.id ∧ key ≠ "event." ++ a.id

def Delivers (s : AppState (UiDesk ι)) (headers : Headers) (id : String) (manifest : Option String)
    (d : Definition) : Prop :=
  (∃ tenant, Tenancy.tenantAuthorize srv.host.admins s.tenancy headers "workflows:run" = .ok tenant
    ∧ s.workflowVisible id tenant = true) ∧ resolved srv s id manifest = some d

def CarefulRequest (s : AppState (UiDesk ι)) (headers : Headers) : Workflows.Request → Prop
  | .submit req => ∀ tenant d,
    Tenancy.tenantAuthorize srv.host.admins s.tenancy headers "workflows:run" = .ok tenant →
    Workflows.fromYaml srv.host.engine.platform srv.host.parseYaml req.manifest = .ok d →
      Apart srv root (submissionId s req d)
        ∧ (submissionId s req d = root → d ∈ library
          ∧ Fresh srv root d (stampInput tenant (Tenancy.runProject headers) req.input))
  | .signal id req => ∀ d, Delivers srv s headers id req.manifest d → Apart srv root id
    ∧ (id = root → Matches srv root library s.world d
      ∧ Spares srv root library s.world ("event." ++ req.event))
  | .approve id req => ∀ d, Delivers srv s headers id req.manifest d → Apart srv root id
    ∧ (id = root → Matches srv root library s.world d
      ∧ Spares srv root library s.world ("event." ++ req.activityId))
  | .cancel id => Apart srv root id

def Careful (s : AppState (UiDesk ι)) : Move ι → Prop
  | .request _ headers request => CarefulRequest srv root library s headers request
  | .decide _ headers frameId _ _ => ∀ tenant pending executionId activityId d,
    Tenancy.tenantAuthorize srv.host.admins s.tenancy headers "ui:write" = .ok tenant →
    s.world.executor.frames[frameId]? = some pending → pending.tenant = tenant →
    pending.executionId = some executionId → pending.activityId = some activityId →
    resolved srv s executionId none = some d → Apart srv root executionId
      ∧ (executionId = root → Matches srv root library s.world d
        ∧ ∀ t d' a, s.world.latest srv.host.engine root = some t → d' ∈ library → Of d' t →
          UiActivity srv d' a → "event." ++ activityId ≠ a.id)
  | .fireTimer _ d executionId timer => Apart srv root executionId
    ∧ (executionId = root → Matches srv root library s.world d
      ∧ Spares srv root library s.world ("timer." ++ timer))
  | _ => True

structure Inv (s : AppState (UiDesk ι)) : Prop where
  world : WorldInv srv root library s.world
  tasks : ∀ task ∈ s.spawned, Apart srv root task.executionId
    ∧ (task.executionId = root → task.definition ∈ library)

def keeping : Keeping (AppState (UiDesk ι)) where
  inv := Inv srv root library
  le _ _ := True
  refl _ := trivial
  trans _ _ _ _ _ := trivial

end

section

open Keeping

variable {ι : Type} {srv : UiHost ι} {root : String} {library : List Definition}
  {P : AppState (UiDesk ι) → Prop}

theorem modify_keeps {f : AppState (UiDesk ι) → AppState (UiDesk ι)} {Q : AppState (UiDesk ι) → Prop}
    (hinv : ∀ s, Inv srv root library s → P s → Inv srv root library (f s)) (hQ : ∀ s, P s → Q (f s))
    : (keeping srv root library).Keeps P (Prog.modify f : Handler (UiDesk ι) Unit) (fun _ => Q) :=
  Keeps.modify f hinv (fun _ _ _ => trivial) (fun s _ h => hQ s h)

theorem onEngine_keeps {α : Type} {m : Action (UiDesk ι) α}
    (h : ∀ s, Inv srv root library s → P s → WorldInv srv root library (m s.world).2)
    : (keeping srv root library).Keeps P (onEngine m) (fun _ _ => True) := by
  intro s hinv hP
  rw [onEngine_state]
  exact ⟨⟨h s hinv hP, hinv.tasks⟩, trivial, fun _ _ => trivial⟩

theorem definitionFor_eq (s : AppState (UiDesk ι)) (id : String) (manifest : Option String)
    : definitionFor srv.host s id manifest = resolved srv s id manifest := by
  cases manifest <;> rfl

theorem Spares.admits {w : World (UiDesk ι)} {key : String} (h : Spares srv root library w key)
    (payload : Value) : Admits srv root library w key payload := by
  intro t d a ht hd hof ha hkey
  obtain ⟨hid, hevent⟩ := h t d a ht hd hof ha
  exact absurd hkey (not_or.mpr ⟨hid, hevent⟩)

theorem deliver_keeps (hcurated : Curated srv library) (headers : Headers) (gas : Nat) (id : String)
    (manifest : Option String) (event : String) (payload : Value)
    : (keeping srv root library).Keeps
        (fun s => ∀ d, Delivers srv s headers id manifest d → Apart srv root id
          ∧ (id = root → Matches srv root library s.world d
            ∧ Spares srv root library s.world ("event." ++ event)))
        (deliver srv.host headers gas id manifest event payload) (fun _ _ => True) := by
  apply Workflows.deliver_keeps
  intro tenant d
  apply onEngine_keeps
  rintro s hinv ⟨⟨⟨hcareful, hauth⟩, hvisible⟩, hresolved⟩
  rw [definitionFor_eq] at hresolved
  obtain ⟨hapart, hroot⟩ := hcareful d ⟨⟨tenant, hauth, hvisible⟩, hresolved⟩
  exact deliver_inv hcurated hinv.world gas hapart (fun h => (hroot h).1) (fun h => (hroot h).2.admits payload)

theorem cancel_keeps (hcurated : Curated srv library) (headers : Headers) {id : String}
    (hapart : Apart srv root id)
    : (keeping srv root library).Keeps (fun _ => True) (cancel srv.host headers id) (fun _ _ => True) := by
  apply Workflows.cancel_keeps
  intro tenant
  apply onEngine_keeps
  intro s hinv _
  exact cancel_inv hcurated hinv.world hapart

def Admissible (srv : UiHost ι) (root : String) (library : List Definition) (input : Value) (d : Definition)
    (executionId : String) : Prop :=
  Apart srv root executionId ∧ (executionId = root → d ∈ library ∧ Fresh srv root d input)

theorem bookkeeping : Bookkeeping (keeping srv root library) where
  definitions save s hinv := ⟨⟨hinv.world, hinv.tasks⟩, trivial⟩
  runCounter s hinv := ⟨⟨hinv.world, hinv.tasks⟩, trivial⟩
  write := by
    apply onEngine_keeps
    intro s hinv _
    unfold Engine.persist
    split
    . exact hinv.world
    . exact ⟨hinv.world.keyed, hinv.world.filed, hinv.world.calls, hinv.world.checkpoint⟩

theorem submit_keeps (hcurated : Curated srv library) (headers : Headers) (req : SubmitRequest)
    : (keeping srv root library).Keeps
        (fun s => CarefulRequest srv root library s headers (.submit req))
        (submit srv.host headers req) (fun _ _ => True) := by
  apply Workflows.submit_keeps bookkeeping (A := fun tenant d executionId =>
    Admissible srv root library (stampInput tenant (Tenancy.runProject headers) req.input) d executionId)
  . intro s tenant d hcareful hauth hyaml
    exact hcareful tenant d hauth hyaml
  . intro tenant d executionId hadmissible
    apply onEngine_keeps
    intro s hinv _
    exact start_inv hcurated hinv.world _ hadmissible.1 hadmissible.2
  . intro tenant d executionId _ s hinv
    exact ⟨⟨hinv.world, hinv.tasks⟩, trivial⟩
  . intro tenant d executionId hadmissible
    apply modify_keeps
    . intro s hinv _
      refine ⟨hinv.world, ?_⟩
      apply forall_mem_snoc hinv.tasks
      exact ⟨hadmissible.1, fun h => (hadmissible.2 h).1⟩
    . intro _ _
      trivial

theorem Inv.setDesk {s : AppState (UiDesk ι)} (h : Inv srv root library s) {desk : UiDesk ι}
    (hextends : Extends s.world.executor desk) : Inv srv root library (setDesk s desk) := by
  refine ⟨⟨h.world.keyed, hextends.filed h.world.filed, ?_, ?_⟩, h.tasks⟩
  . intro call hcall hroot hui v hv
    exact (h.world.calls call hcall hroot hui v hv).mono hextends.stored
  . intro t ht
    obtain ⟨hid, d, hd, hof, hsafe⟩ := h.world.checkpoint t ht
    exact ⟨hid, d, hd, hof, hsafe.mono hextends.stored⟩

theorem onDesk_keeps {f : UiDesk ι → UiDesk ι} (hf : ∀ desk, Extends desk (f desk))
    : (keeping srv root library).Keeps P (onDesk f) (fun _ _ => True) := by
  unfold onDesk
  apply modify_keeps
  . intro s hinv _
    exact hinv.setDesk (hf s.world.executor)
  . intro _ _
    trivial

theorem presentHandler_keeps (headers : Headers) (frameValue : Value)
    : (keeping srv root library).Keeps P (presentHandler srv headers frameValue) (fun _ _ => True) := by
  unfold presentHandler
  apply Keeps.bind (tenantAuthorize_keeps headers "ui:write")
  intro tenant
  unfold presentStandalone
  apply Keeps.bind (Keeps.reads _)
  intro desk
  apply Keeps.bind (Q := fun _ _ => True)
  . exact onDesk_keeps fun _ => ⟨List.Subset.refl _, fun h => h⟩
  intro _
  split
  . exact Keeps.halt
  . exact Keeps.fail _
  . apply Keeps.bind (onDesk_keeps fun desk => extends_upsert desk _)
    intro _
    exact Keeps.pure _ fun _ _ _ => trivial

theorem checkDecision_eq_ok {tenant : String} {pending : PendingFrame} {req : DecideRequest}
    (h : checkDecision srv tenant pending req = .ok ())
    : pending.tenant = tenant ∧ ∃ frame, fromValue srv.parts.decode pending.frame = .ok frame
        ∧ validateDecision srv.parts.f64 frame req.decision = .ok () := by
  unfold checkDecision at h
  split at h
  . cases h
  . next htenant =>
    split at h
    . cases h
    . next frame hframe =>
      split at h
      . cases h
      . next hvalid => exact ⟨not_not.mp htenant, frame, hframe, hvalid⟩

theorem decideHandler_keeps (hcurated : Curated srv library) (headers : Headers) (process : Process ι)
    (frameId action : String) (values : Std.ExtTreeMap String Value)
    : (keeping srv root library).Keeps
        (fun s => Careful srv root library s (.decide process headers frameId action values))
        (decideHandler srv headers process.gas frameId action values) (fun _ _ => True) := by
  unfold decideHandler
  apply Keeps.bind (tenantAuthorize_keeps headers "ui:write")
  intro tenant
  apply Keeps.bind (Q := fun desk s =>
    (Careful srv root library s (.decide process headers frameId action values)
      ∧ Tenancy.tenantAuthorize srv.host.admins s.tenancy headers "ui:write" = .ok tenant)
    ∧ s.world.executor = desk)
  . exact Keeps.gets _ fun s _ h => ⟨h, rfl⟩
  intro desk
  dsimp only
  split
  . exact Keeps.fail _
  next pending hpending =>
    generalize hreq : DecideRequest.mk (.ok tenant) frameId action values
      (Tenancy.requestPrincipal headers) desk.clockMs = req
    apply Keeps.bind (Q := fun _ s =>
      ((Careful srv root library s (.decide process headers frameId action values)
        ∧ Tenancy.tenantAuthorize srv.host.admins s.tenancy headers "ui:write" = .ok tenant)
      ∧ s.world.executor = desk) ∧ checkDecision srv tenant pending req = .ok ())
    . exact Keeps.ofExcept _ fun _ _ hok _ h => ⟨h, hok⟩
    intro _
    apply Keeps.given fun _ _ h => h.2
    intro hcheck
    obtain ⟨htenant, frame, hframe, hvalid⟩ := checkDecision_eq_ok hcheck
    apply Keeps.bind (Q := fun _ _ => True)
    . unfold deliverDecision
      split
      . next executionId activityId hexecution hactivity =>
        apply Keeps.bind (resolveDefinition_keeps executionId none)
        intro d
        apply Keeps.bind
        . apply onEngine_keeps
          rintro s hinv ⟨⟨⟨⟨hcareful, hauth⟩, rfl⟩, -⟩, hresolved⟩
          obtain ⟨hapart, hroot⟩ := hcareful tenant pending executionId activityId d hauth hpending htenant
            hexecution hactivity hresolved
          apply deliver_inv hcurated hinv.world process.gas hapart fun h => (hroot h).1
          -- Under the key of the decision it is looked at by the activity it was validated for.
          intro h t d' a ht hd' hof ha hkey
          rcases hkey with hid | hevent
          . exact absurd hid ((hroot h).2 t d' a ht hd' hof ha)
          . have hactivityId : activityId = a.id := by
              rw [← String.toList_inj, String.toList_append, String.toList_append] at hevent
              exact String.toList_inj.mp (List.append_cancel_left hevent)
            left
            refine ⟨pending, hinv.world.filed frameId pending hpending, ?_, ?_, frame, req, hframe, hvalid, rfl⟩
            . rw [hexecution, h]
            . rw [hactivity, hactivityId]
        . intro _
          exact Keeps.pure _ fun _ _ _ => trivial
      . exact onDesk_keeps fun _ => ⟨List.Subset.refl _, fun h => h⟩
    intro _
    apply Keeps.bind (onDesk_keeps fun desk => extends_remove desk frameId)
    intro _
    exact Keeps.pure _ fun _ _ _ => trivial

theorem handle_keeps (hcurated : Curated srv library) (headers : Headers) (gas : Nat)
    (request : Workflows.Request)
    : (keeping srv root library).Keeps (fun s => CarefulRequest srv root library s headers request)
        (handle srv.host headers gas request) (fun _ _ => True) := by
  cases request with
  | submit req => exact submit_keeps hcurated headers req
  | signal id req =>
    show (keeping srv root library).Keeps _ (signal srv.host headers gas id req) _
    unfold signal
    apply Keeps.bind (deliver_keeps hcurated headers gas id req.manifest req.event _)
    intro _
    exact Keeps.pure _ fun _ _ _ => trivial
  | approve id req =>
    show (keeping srv root library).Keeps _ (approve srv.host headers gas id req) _
    unfold approve
    apply Keeps.bind (deliver_keeps hcurated headers gas id req.manifest req.activityId _)
    intro _
    exact Keeps.pure _ fun _ _ _ => trivial
  | cancel id =>
    apply Keeps.given fun _ _ h => h
    intro hapart
    exact Keeps.pre (fun _ _ _ => trivial) (cancel_keeps hcurated headers hapart)

variable {s : AppState (UiDesk ι)}

theorem Inv.boot (h : Inv srv root library s) (process : Process ι)
    : Inv srv root library (boot s process) :=
  ⟨⟨h.world.keyed, h.world.filed, h.world.calls, h.world.checkpoint⟩, h.tasks⟩

theorem matches_of_mem (hcurated : Curated srv library) {d : Definition} (hd : d ∈ library)
    (w : World (UiDesk ι)) : Matches srv root library w d := by
  intro t d' ht hd' hof hpinned
  apply hcurated.distinct d hd d' hd'
  have hhash := (hcurated.tidy d hd).hashed
  unfold Engine.pinned at hpinned
  rw [hof.1, hof.2] at hpinned
  cases hsource' : d'.sourceHash with
  | none => exact absurd hsource' (hcurated.tidy d' hd').hashed
  | some pin =>
    cases hsource : d.sourceHash with
    | none => exact absurd hsource hhash
    | some current =>
      rw [hsource, hsource', Bool.and_eq_true, beq_iff_eq, beq_iff_eq] at hpinned
      unfold SamePin
      rw [hsource, hsource', hpinned.1]
      exact ⟨rfl, hpinned.2⟩

theorem Inv.background (hcurated : Curated srv library) (h : Inv srv root library s) (process : Process ι)
    {i : Nat} {task : Spawned} (htask : s.spawned[i]? = some task)
    : Inv srv root library
        (runTask srv.host process.gas task { Boundary.boot s process with spawned := s.spawned.eraseIdx i }).2 := by
  obtain ⟨hapart, hmem⟩ := h.tasks task (List.mem_of_getElem? htask)
  have hbooted := h.boot process
  have herased : Inv srv root library { Boundary.boot s process with spawned := s.spawned.eraseIdx i } :=
    ⟨⟨hbooted.world.keyed, hbooted.world.filed, hbooted.world.calls, hbooted.world.checkpoint⟩,
      fun task' htask' => h.tasks task' (List.mem_of_mem_eraseIdx htask')⟩
  have hkeeps : (keeping srv root library).Keeps (fun _ => True) (runTask srv.host process.gas task)
      (fun _ _ => True) := by
    unfold runTask
    apply Keeps.bind
    . apply onEngine_keeps
      intro s hinv _
      exact resume_inv hcurated hinv.world process.gas hapart fun hroot => matches_of_mem hcurated (hmem hroot) _
    . intro _
      exact Keeps.pure _ fun _ _ _ => trivial
  exact (hkeeps _ herased trivial).1

theorem Inv.restart (h : Inv srv root library s) : Inv srv root library (restart srv s) := by
  unfold Boundary.restart AppState.restart
  cases srv.host.engine.backend with
  | file =>
    have hstopped : Inv srv root library { s with runCounter := 1, spawned := [] } := by
      refine ⟨⟨h.world.keyed, h.world.filed, h.world.calls, h.world.checkpoint⟩, ?_⟩
      intro task htask
      cases htask
    exact hstopped.setDesk ⟨List.Subset.refl _, fun h => h⟩
  | memory =>
    refine ⟨⟨?_, ?_, h.world.calls, ?_⟩, ?_⟩
    . intro k t ht
      simp [Boundary.setDesk] at ht
    . intro id pending hpending
      simp [Boundary.setDesk] at hpending
    . intro t ht
      simp [Boundary.setDesk, World.latest] at ht
    . intro task htask
      cases htask

theorem Inv.move (hcurated : Curated srv library) (h : Inv srv root library s) {m : Move ι}
    (hcareful : Careful srv root library s m) : Inv srv root library (move srv s m) := by
  cases m with
  | request process headers request =>
    refine (handle_keeps hcurated headers process.gas request _ (h.boot process) ?_).1
    cases request with
    | submit | signal | approve | cancel => exact hcareful
  | decide process headers frameId action values =>
    exact (decideHandler_keeps hcurated headers process frameId action values _ (h.boot process) hcareful).1
  | present headers frameValue =>
    have hkeeps : (keeping srv root library).Keeps (fun _ => True) (presentHandler srv headers frameValue)
        (fun _ _ => True) := presentHandler_keeps headers frameValue
    exact (hkeeps s h trivial).1
  | background process i =>
    unfold Boundary.move
    dsimp only
    split
    . next task htask => exact h.background hcurated process htask
    . exact h
  | fireTimer process d executionId timer =>
    unfold Boundary.move
    dsimp only
    rw [onEngine_state]
    refine ⟨?_, h.tasks⟩
    exact deliver_inv hcurated (h.boot process).world process.gas hcareful.1
      (fun hroot => (hcareful.2 hroot).1) (fun hroot => (hcareful.2 hroot).2.admits _)
  | draw => exact ⟨h.world, h.tasks⟩
  | setTenancy tenancy => exact ⟨h.world, h.tasks⟩
  | setClock clockMs => exact h.setDesk ⟨List.Subset.refl _, fun h => h⟩
  | restart => exact h.restart

theorem Inv.validated (hcurated : Curated srv library) (h : Inv srv root library s)
    : Validated srv root library s := by
  refine ⟨h.world.calls, ?_⟩
  intro t d a r v ht hd hof ha hr hstate hv
  obtain ⟨-, d', hd', hof', hsafe⟩ := h.world.checkpoint t ht
  have hpin : SamePin d d' := ⟨hof.1.symm.trans hof'.1, hof.2.symm.trans hof'.2⟩
  cases hcurated.distinct d hd d' hd' hpin
  exact hsafe.records a r v ha hr hstate hv

end

end Boundary

/--
In every run of the server: a `ui` activity of the execution completes with a decision that is valid for
the frame which was stored as pending for it, or it has no action to offer. That is, if neither the input
nor the definition brings a variable that a `ui` activity looks at, no signal, approval or timer writes
one, no activity is named like one, a definition that passes for the one of the execution is that one, and
other executions are kept under other keys.
-/
theorem validated_of_run {ι : Type} (srv : UiHost ι) (root : String) (library : List Definition)
    (hcurated : Curated srv library) (s₀ : AppState (UiDesk ι))
    (hkeyed : s₀.world.WellKeyed srv.host.engine) (hnew : s₀.world.latest srv.host.engine root = none)
    (hcalls : ∀ call ∈ s₀.world.calls, call.executionId ≠ root)
    (hfiled : Filed s₀.world.executor) (hspawned : s₀.spawned = [])
    (moves : List (Boundary.Move ι)) (s : AppState (UiDesk ι))
    (hrun : Run (Guarded (Careful srv root library) (Boundary.move srv)) s₀ moves s)
    : Validated srv root library s := by
  apply Boundary.Inv.validated hcurated
  apply Run.invariant _ hrun
  . refine ⟨⟨hkeyed, hfiled, ?_, ?_⟩, ?_⟩
    . intro call hcall hroot
      exact absurd hroot (hcalls call hcall)
    . intro t ht
      rw [hnew] at ht
      cases ht
    . rw [hspawned]
      intro task htask
      cases htask
  . rintro s m _ hs ⟨hcareful, rfl⟩
    exact hs.move hcurated hcareful

namespace Boundary

def askFrame (provenance : Provenance) : UiFrame where
  schemaVersion := "1.0.0"
  title := none
  provenance
  root := .column [.text "Deploy?" .body, .button "deploy" "Deploy" .approve]

def askedBy : Provenance where
  executionId := some "run-1"
  activityId := some "ask"

def readAsk (value : Value) : Except String UiFrame :=
  if value = (askFrame {}).toValue then
    .ok (askFrame {})
  else if value = (askFrame askedBy).toValue then
    .ok (askFrame askedBy)
  else
    .error "missing field `root`"

def askParts : UiParts Unit where
  unicode := .asciiOnly
  decode := readAsk
  f64 := exactFloat64
  writeF64 := Platform.integral.writeF64
  sha := List.take 8
  runtime := { unrestricted := true }
  inner _ _ := { executor := (), progress := [], reply := .output .null }

def ask : ActivityDef where
  id := "ask"
  activityType := "ui"
  inputs := .object [("frame", (askFrame {}).toValue)]

def deployment : Definition where
  metadata := { name := "deploy" }
  spec := { activities := [ask] }
  sourceHash := some (contentHash "deploy.yaml")

def askHost : UiHost Unit where
  parts := askParts
  host := {
    engine := {
      platform := .integral
      backend := .file
      execute := askParts.execute
      nowMillis _ := 0
      timers := true
      subworkflows := none }
    noChildren := rfl
    admins := none
    parseYaml _ := .ok deployment }
  wired := rfl

def aliceHeaders : Headers :=
  ((∅ : Headers).insert "x-wovyr-tenant" "acme").insert "x-wovyr-principal" "alice"

def oneOwner : AppState (UiDesk Unit) where
  tenancy := Ownership.twoOwners.tenancy
  world := { executor := { inner := () }, writes := 0 }

def fromOneOwner (moves : List (Move Unit)) : AppState (UiDesk Unit) :=
  moves.foldl (move askHost) oneOwner

def submitRun : Move Unit :=
  .request ⟨(), 9, 99, []⟩ aliceHeaders (.submit { manifest := "deploy.yaml", executionId := some "run-1" })

def asking : List (Move Unit) :=
  [submitRun] ++ [.background ⟨(), 9, 99, []⟩ 0]

def askFrameId : String :=
  frameIdFor askParts.sha "run-1" "ask"

def decided : List (Move Unit) :=
  asking ++ [.decide ⟨(), 9, 99, []⟩ aliceHeaders askFrameId "deploy" ∅]

def approved : List (Move Unit) :=
  asking ++ [.request ⟨(), 9, 99, []⟩ aliceHeaders
    (.approve "run-1" { activityId := "ask", decision := .object [("action", .string "wipe")] })]

def askRecord (s : AppState (UiDesk Unit)) : Option ActivityRecord :=
  (s.world.latest askHost.host.engine "run-1").bind (·.activity? "ask")

theorem validate_deployment : deployment.validate askHost.host.engine.platform = .ok () := by
  decide

theorem fromYaml_deployment (yaml : String)
    : Workflows.fromYaml askHost.host.engine.platform askHost.host.parseYaml yaml
        = .ok { deployment with sourceHash := some (contentHash yaml) } := by
  have hvalid : deployment.validate Platform.integral = .ok () := validate_deployment
  show (do deployment.validate Platform.integral; return _) = _
  rw [hvalid]
  rfl

theorem uiActivity_ask : UiActivity askHost deployment ask :=
  ⟨.declared rfl, rfl⟩

theorem id_of_uiActivity {a : ActivityDef} (h : UiActivity askHost deployment a) : a.id = "ask" := by
  cases h.1 with
  | declared ha =>
    cases List.mem_singleton.mp (Definition.activity_mem ha)
    rfl
  | item ha hforEach _ _ =>
    cases List.mem_singleton.mp (Definition.activity_mem ha)
    exact absurd hforEach (by decide)

theorem curated_deployment : Curated askHost [deployment] := by
  constructor
  . intro d hd
    cases List.mem_singleton.mp hd
    refine ⟨validate_deployment, nofun, ?_, ?_⟩
    . intro a b ha hb
      cases List.mem_singleton.mp (Definition.activity_mem hb)
      rw [id_of_uiActivity ha]
      decide
    . intro a id ha
      rw [id_of_uiActivity ha]
      constructor
      . intro h
        have := congrArg (fun s => s.toList.take 1) h
        simp [timerMarker] at this
      . intro h
        have := congrArg (fun s => s.toList.take 1) h
        simp [forEachMarker] at this
  . intro d hd d' hd' _
    rw [List.mem_singleton.mp hd, List.mem_singleton.mp hd']

theorem careful_submit : Careful askHost "run-1" [deployment] oneOwner submitRun := by
  intro tenant d hauth hyaml
  rw [fromYaml_deployment] at hyaml
  cases hyaml
  refine ⟨.inl rfl, fun _ => ⟨List.mem_singleton.mpr rfl, ?_⟩⟩
  have htenant : Tenancy.tenantAuthorize askHost.host.admins oneOwner.tenancy aliceHeaders "workflows:run"
      = .ok "acme" := by
    decide
  rw [htenant] at hauth
  cases hauth
  intro a ha
  rw [id_of_uiActivity ha]
  decide

theorem matches_deployment {w : World (UiDesk Unit)} {d : Definition} {yaml : String}
    (hd : d = { deployment with sourceHash := some (contentHash yaml) })
    : Matches askHost "run-1" [deployment] w d := by
  intro t d' ht hd' hof hpinned
  cases List.mem_singleton.mp hd'
  unfold Engine.pinned at hpinned
  rw [hof.1, hd] at hpinned
  have hhash : contentHash yaml = contentHash "deploy.yaml" := by
    dsimp only [deployment] at hpinned
    rw [Bool.and_eq_true, beq_iff_eq] at hpinned
    exact hpinned.1
  rw [hd, hhash]
  rfl

theorem careful_decide
    : Careful askHost "run-1" [deployment] (fromOneOwner asking)
        (.decide ⟨(), 9, 99, []⟩ aliceHeaders askFrameId "deploy" ∅) := by
  intro tenant pending executionId activityId d _ hpending _ hexecution hactivity hresolved
  have hids : ((fromOneOwner asking).world.executor.frames[askFrameId]?).map
      (fun pending => (pending.executionId, pending.activityId)) = some (some "run-1", some "ask") := by
    decide +kernel
  rw [hpending, Option.map_some, hexecution, hactivity] at hids
  cases hids
  refine ⟨.inl rfl, fun _ => ⟨?_, ?_⟩⟩
  . unfold resolved definitionResolver at hresolved
    dsimp only at hresolved
    rw [Option.bind_eq_some_iff] at hresolved
    obtain ⟨t, -, hresolved⟩ := hresolved
    rw [Option.bind_eq_some_iff] at hresolved
    obtain ⟨yaml, -, hresolved⟩ := hresolved
    rw [fromYaml_deployment] at hresolved
    exact matches_deployment (Option.some.inj hresolved).symm
  . intro t d' a _ hd' _ ha
    cases List.mem_singleton.mp hd'
    rw [id_of_uiActivity ha]
    decide

def CarefulRun (moves : List (Move Unit)) : Prop :=
  Run (Guarded (Careful askHost "run-1" [deployment]) (move askHost)) oneOwner moves (fromOneOwner moves)

theorem CarefulRun.snoc {moves : List (Move Unit)} (h : CarefulRun moves) {m : Move Unit}
    (hm : Careful askHost "run-1" [deployment] (fromOneOwner moves) m) : CarefulRun (moves ++ [m]) := by
  have hlast : fromOneOwner (moves ++ [m]) = move askHost (fromOneOwner moves) m := by
    unfold fromOneOwner
    rw [List.foldl_append, List.foldl_cons, List.foldl_nil]
  unfold CarefulRun
  rw [hlast]
  exact Run.snoc h ⟨hm, rfl⟩

theorem length_of_eq_record {fields fields' : List (String × Value)} (h : .object fields = record fields')
    : fields.length = fields'.length := by
  cases h
  exact (Json.perm_sortFields fields').length_eq

theorem carefulRun_decided : CarefulRun decided := by
  have hsubmitted : CarefulRun ([] ++ [submitRun]) := CarefulRun.snoc (Run.nil oneOwner) careful_submit
  have hasking : CarefulRun asking := hsubmitted.snoc trivial
  exact hasking.snoc careful_decide

end Boundary

theorem validated_decided
    : (askRecord (fromOneOwner decided)).map (·.state) = some .completed
        ∧ Validated askHost "run-1" [deployment]
          (fromOneOwner decided) := by
  refine ⟨by decide +kernel, ?_⟩
  apply validated_of_run askHost "run-1" [deployment] curated_deployment
    oneOwner _ _ _ _ _ decided
  . exact carefulRun_decided
  . intro k t ht
    simp [oneOwner] at ht
  . decide
  . intro call hcall
    cases hcall
  . intro id pending hpending
    simp [oneOwner] at hpending
  . rfl

-- An approval is for activities of type `human`, and nobody asks for the type.
theorem not_validated_approved
    : ¬Validated askHost "run-1" [deployment]
        (fromOneOwner approved) := by
  intro h
  have hrecord : askRecord (fromOneOwner approved)
      = some { state := .completed, attempts := 1,
               output := some (.object [("action", .string "wipe")]) } := by
    decide +kernel
  have hpin : ((fromOneOwner approved).world.latest askHost.host.engine "run-1").map
      (fun t => (t.definitionHash, t.workflowVersion))
      = some (deployment.sourceHash, deployment.metadata.version) := by
    decide +kernel
  unfold askRecord at hrecord
  rw [Option.bind_eq_some_iff] at hrecord
  obtain ⟨t, ht, hr⟩ := hrecord
  rw [ht, Option.map_some, Option.some.injEq, Prod.mk.injEq] at hpin
  have happroved := h.completed t deployment _ _ _ ht (List.mem_singleton.mpr rfl) hpin
    uiActivity_ask hr rfl rfl
  -- The output has one field, a decision has six and a frame that is shown has four.
  rcases happroved with ⟨pending, -, -, -, frame, req, -, -, houtput⟩
    | ⟨value, tenant, stamp, frame, policyRef, frameId, -, -, -, houtput⟩
  . cases length_of_eq_record houtput
  . cases length_of_eq_record houtput

end Wovyr.Server.Ui
