import Wovyr.Server.Ui.Activity
import Wovyr.Workflow.Footprint

/-!
This module contains what an activity of type `ui` can complete with.
-/

namespace Wovyr.Server.Ui

open Wovyr.Ui Workflow Server.Workflows

namespace Boundary

section

variable {ι : Type} (srv : UiHost ι) (root : String) (library : List Definition)

-- A decision that the frame allows which was stored as pending for the activity.
def Decided (stored : List PendingFrame) (executionId activityId : String) (output : Value) : Prop :=
  ∃ pending ∈ stored, pending.executionId = some executionId ∧ pending.activityId = some activityId
    ∧ ∃ frame, ∃ req : DecideRequest, fromValue srv.parts.decode pending.frame = .ok frame
      ∧ validateDecision srv.parts.f64 frame req.decision = .ok () ∧ output = req.payload pending

def Displayed (inputs output : Value) : Prop :=
  ∃ value tenant stamp frame policyRef frameId, field? "frame" inputs = some value
    ∧ srv.parts.runtime.judgeFrame srv.parts.unicode srv.parts.decode tenant value stamp
        = some (.ok (frame, policyRef))
    ∧ frame.actions = [] ∧ output = presented frameId (srv.parts.hash frame) frame

def Approved (stored : List PendingFrame) (executionId activityId : String) (inputs output : Value)
    : Prop :=
  Decided srv stored executionId activityId output ∨ Displayed srv inputs output

-- The activities of type `ui`, also those that run for the items of a `for_each`.
def UiActivity (d : Definition) (a : ActivityDef) : Prop :=
  Runs srv.host.engine.platform d a ∧ a.activityType = "ui"

def SamePin (d d' : Definition) : Prop :=
  d.sourceHash = d'.sourceHash ∧ d.metadata.version = d'.metadata.version

def Of (d : Definition) (t : ExecutionState) : Prop :=
  t.definitionHash = d.sourceHash ∧ t.workflowVersion = d.metadata.version

structure Validated (s : AppState (UiDesk ι)) : Prop where
  calls : ∀ call ∈ s.world.calls, call.executionId = root → call.context.activityType = "ui" →
    ∀ v, call.reply = .output v →
      Approved srv s.world.executor.stored root call.context.id call.context.inputs v
  completed : ∀ t d a r v, s.world.latest srv.host.engine root = some t → d ∈ library → Of d t →
    UiActivity srv d a → t.activity? a.id = some r → r.state = .completed → r.output = some v →
      Approved srv s.world.executor.stored root a.id a.inputs v

-- No activity and no marker of the engine writes the variables that a `ui` activity looks at.
structure Tidy (d : Definition) : Prop where
  valid : d.validate srv.host.engine.platform = .ok ()
  hashed : d.sourceHash ≠ none
  events : ∀ a b, UiActivity srv d a → d.activity b.id = some b → b.id ≠ "event." ++ a.id
  markers : ∀ a id, UiActivity srv d a → a.id ≠ timerMarker id ∧ a.id ≠ forEachMarker id

structure Curated : Prop where
  tidy : ∀ d ∈ library, Tidy srv d
  distinct : ∀ d ∈ library, ∀ d' ∈ library, SamePin d d' → d = d'

structure Safe (stored : List PendingFrame) (d : Definition) (t : ExecutionState) : Prop where
  vars : ∀ a v, UiActivity srv d a → t.vars[a.id]? = some v → Approved srv stored root a.id a.inputs v
  events : ∀ a v, UiActivity srv d a → t.vars["event." ++ a.id]? = some v →
    Approved srv stored root a.id a.inputs v
  records : ∀ a r v, UiActivity srv d a → t.activity? a.id = some r → r.state = .completed →
    r.output = some v → Approved srv stored root a.id a.inputs v

def Sane (stored : List PendingFrame) (d : Definition) (t : ExecutionState) : Prop :=
  srv.host.engine.backend.key t.executionId ≠ srv.host.engine.backend.key root
    ∨ (t.executionId = root ∧ d ∈ library ∧ Of d t ∧ Safe srv root stored d t)

def Filed (desk : UiDesk ι) : Prop :=
  ∀ (id : String) (pending : PendingFrame), desk.frames[id]? = some pending → pending ∈ desk.stored

-- The execution itself, or one that is kept under another key.
def Apart (executionId : String) : Prop :=
  executionId = root ∨ srv.host.engine.backend.key executionId ≠ srv.host.engine.backend.key root

-- Nothing that a `ui` activity looks at is in the variables at the start.
def Fresh (d : Definition) (input : Value) : Prop :=
  ∀ a, UiActivity srv d a → (Engine.initialState d root input).vars[a.id]? = none
    ∧ (Engine.initialState d root input).vars["event." ++ a.id]? = none

-- A definition that passes for the one of the execution is that one.
def Matches (w : World (UiDesk ι)) (d : Definition) : Prop :=
  ∀ t d', w.latest srv.host.engine root = some t → d' ∈ library → Of d' t →
    Engine.pinned d t = true → d = d'

def Admits (w : World (UiDesk ι)) (key : String) (payload : Value) : Prop :=
  ∀ t d a, w.latest srv.host.engine root = some t → d ∈ library → Of d t → UiActivity srv d a →
    key = a.id ∨ key = "event." ++ a.id → Approved srv w.executor.stored root a.id a.inputs payload

structure WorldInv (w : World (UiDesk ι)) : Prop where
  keyed : w.WellKeyed srv.host.engine
  filed : Filed w.executor
  calls : ∀ call ∈ w.calls, call.executionId = root → call.context.activityType = "ui" →
    ∀ v, call.reply = .output v →
      Approved srv w.executor.stored root call.context.id call.context.inputs v
  checkpoint : ∀ t, w.latest srv.host.engine root = some t →
    t.executionId = root ∧ ∃ d ∈ library, Of d t ∧ Safe srv root w.executor.stored d t

end

section

variable {ι : Type} {srv : UiHost ι} {root : String} {library : List Definition}

theorem Approved.mono {stored stored' : List PendingFrame} (hsub : stored ⊆ stored')
    {executionId activityId : String} {inputs output : Value}
    (h : Approved srv stored executionId activityId inputs output)
    : Approved srv stored' executionId activityId inputs output := by
  cases h with
  | inl hdecided =>
    obtain ⟨pending, hpending, hrest⟩ := hdecided
    exact .inl ⟨pending, hsub hpending, hrest⟩
  | inr hdisplayed => exact .inr hdisplayed

theorem Safe.mono {stored stored' : List PendingFrame} (hsub : stored ⊆ stored') {d : Definition}
    {t : ExecutionState} (h : Safe srv root stored d t) : Safe srv root stored' d t where
  vars a v ha hv := (h.vars a v ha hv).mono hsub
  events a v ha hv := (h.events a v ha hv).mono hsub
  records a r v ha hr hstate hv := (h.records a r v ha hr hstate hv).mono hsub

theorem Sane.mono {stored stored' : List PendingFrame} (hsub : stored ⊆ stored') {d : Definition}
    {t : ExecutionState} (h : Sane srv root library stored d t)
    : Sane srv root library stored' d t := by
  refine h.imp_right ?_
  rintro ⟨hid, hd, hof, hsafe⟩
  exact ⟨hid, hd, hof, hsafe.mono hsub⟩

-- The executor of the `ui` activities.

theorem stored_upsert (desk : UiDesk ι) (frame : PendingFrame)
    : desk.stored ⊆ (desk.upsert frame).stored := by
  unfold UiDesk.upsert
  dsimp only
  split
  . exact List.subset_append_left _ _
  . exact List.Subset.refl _

theorem Filed.upsert {desk : UiDesk ι} (h : Filed desk) (frame : PendingFrame) : Filed (desk.upsert frame) := by
  intro id pending hpending
  unfold UiDesk.upsert UiFrameStore.upsert at *
  dsimp only at *
  split at hpending
  . next hfresh =>
    rw [if_pos hfresh]
    rcases Map.of_insert hpending with ⟨-, rfl⟩ | hpending
    . exact List.mem_append_right _ (List.mem_singleton.mpr rfl)
    . exact List.mem_append_left _ (h id pending hpending)
  . next hstale =>
    rw [if_neg hstale]
    exact h id pending hpending

theorem Filed.remove {desk : UiDesk ι} (h : Filed desk) (removed : String) : Filed (desk.remove removed) := by
  intro id pending hpending
  unfold UiDesk.remove UiFrameStore.remove at hpending
  dsimp only at hpending
  exact h id pending (Map.of_erase hpending)

structure Extends (desk desk' : UiDesk ι) : Prop where
  stored : desk.stored ⊆ desk'.stored
  filed : Filed desk → Filed desk'

theorem Extends.refl (desk : UiDesk ι) : Extends desk desk :=
  ⟨List.Subset.refl _, fun h => h⟩

theorem extends_upsert (desk : UiDesk ι) (frame : PendingFrame) : Extends desk (desk.upsert frame) :=
  ⟨stored_upsert desk frame, fun h => h.upsert frame⟩

theorem extends_remove (desk : UiDesk ι) (frameId : String) : Extends desk (desk.remove frameId) :=
  ⟨List.Subset.refl _, fun h => h.remove frameId⟩

theorem present_spec (parts : UiParts ι) (desk : UiDesk ι) (ctx : ActivityContext)
    (tenant executionId : String) (frame : UiFrame) (policyRef : String)
    : Extends desk (parts.present desk ctx tenant executionId frame policyRef).executor
        ∧ ∀ v, (parts.present desk ctx tenant executionId frame policyRef).reply = .output v →
          frame.actions = [] ∧ ∃ frameId, v = presented frameId (parts.hash frame) frame := by
  unfold UiParts.present
  dsimp only
  split
  . next hactions =>
    refine ⟨Extends.refl desk, ?_⟩
    intro v hv
    cases hv
    exact ⟨hactions, _, rfl⟩
  . refine ⟨extends_upsert desk _, ?_⟩
    intro v hv
    cases hv

theorem executeUiActivity_spec (srv : UiHost ι) (desk : UiDesk ι) (ctx : ActivityContext)
    : Extends desk (srv.parts.executeUiActivity desk ctx).executor
        ∧ ∀ v, (srv.parts.executeUiActivity desk ctx).reply = .output v →
          ctx.vars[ctx.id]? = some v ∨ ctx.vars["event." ++ ctx.id]? = some v
            ∨ Displayed srv ctx.inputs v := by
  unfold UiParts.executeUiActivity
  split
  . next decision hfound =>
    have hvars : ctx.vars[ctx.id]? = some decision ∨ ctx.vars["event." ++ ctx.id]? = some decision := by
      cases hid : ctx.vars[ctx.id]? with
      | some v =>
        rw [hid, Option.some_or] at hfound
        exact .inl hfound
      | none =>
        rw [hid, Option.none_or] at hfound
        exact .inr hfound
    split
    . refine ⟨extends_remove desk _, ?_⟩
      intro v hv
      cases hv
      exact hvars.imp_right .inl
    . refine ⟨Extends.refl desk, ?_⟩
      intro v hv
      cases hv
      exact hvars.imp_right .inl
  . split
    . exact ⟨Extends.refl desk, nofun⟩
    . dsimp only
      split
      . exact ⟨Extends.refl desk, nofun⟩
      . next value hvalue =>
        split
        . exact ⟨Extends.refl desk, nofun⟩
        . exact ⟨Extends.refl desk, nofun⟩
        . next frame policyRef hjudge =>
          obtain ⟨hextends, houtput⟩ := present_spec srv.parts desk ctx _ _ frame policyRef
          refine ⟨hextends, ?_⟩
          intro v hv
          obtain ⟨hactions, frameId, rfl⟩ := houtput v hv
          exact .inr (.inr ⟨value, _, _, frame, policyRef, frameId, hvalue, hjudge, hactions, rfl⟩)

theorem execute_spec (srv : UiHost ι) (desk : UiDesk ι) (ctx : ActivityContext)
    : Extends desk (srv.parts.execute desk ctx).executor
        ∧ (ctx.activityType = "ui" → ∀ v, (srv.parts.execute desk ctx).reply = .output v →
          ctx.vars[ctx.id]? = some v ∨ ctx.vars["event." ++ ctx.id]? = some v
            ∨ Displayed srv ctx.inputs v) := by
  unfold UiParts.execute
  split
  . obtain ⟨hextends, houtput⟩ := executeUiActivity_spec srv desk ctx
    exact ⟨hextends, fun _ => houtput⟩
  . next hother =>
    refine ⟨⟨List.Subset.refl _, fun h => h⟩, ?_⟩
    intro hui
    exact absurd hui hother


section

variable {w : World (UiDesk ι)} {d : Definition} {s t : ExecutionState}

theorem approved_of_earned (htidy : Tidy srv d) (hinv : WorldInv srv root library w) {a : ActivityDef}
    {v : Value} (ha : UiActivity srv d a) (h : Earned srv.host.engine.platform w d root a.id v)
    : Approved srv w.executor.stored root a.id a.inputs v := by
  have hnative : ¬Native a.activityType := by
    rw [ha.2]
    unfold Native
    decide
  obtain ⟨rollback, vars, attempt, hmem⟩ := h.answered htidy.valid ha.1 hnative
  exact hinv.calls _ hmem rfl ha.2 v rfl

theorem Safe.of_eq {stored : List PendingFrame} (h : Safe srv root stored d s) (hvars : t.vars = s.vars)
    (hactivities : t.activities = s.activities) : Safe srv root stored d t := by
  constructor
  . rw [hvars]
    exact h.vars
  . rw [hvars]
    exact h.events
  . unfold ExecutionState.activity?
    rw [hactivities]
    exact h.records

theorem Safe.setVariable {stored : List PendingFrame} (h : Safe srv root stored d s) {key : String} {v : Value}
    (hkey : ∀ a, UiActivity srv d a → key = a.id ∨ key = "event." ++ a.id →
      Approved srv stored root a.id a.inputs v)
    : Safe srv root stored d (s.setVariable key v) := by
  unfold ExecutionState.setVariable
  refine ⟨?_, ?_, h.records⟩
  . intro a v' ha hv'
    dsimp only at hv'
    rcases Map.of_insert hv' with ⟨heq, rfl⟩ | hv'
    . exact hkey a ha (.inl heq)
    . exact h.vars a v' ha hv'
  . intro a v' ha hv'
    dsimp only at hv'
    rcases Map.of_insert hv' with ⟨heq, rfl⟩ | hv'
    . exact hkey a ha (.inr heq)
    . exact h.events a v' ha hv'

theorem Safe.removeVariable {stored : List PendingFrame} (h : Safe srv root stored d s) (key : String)
    : Safe srv root stored d (s.removeVariable key) := by
  have hold {key' : String} {v : Value} (hv : (s.vars.erase key)[key']? = some v) : s.vars[key']? = some v := by
    exact Map.of_erase hv
  exact ⟨fun a v ha hv => h.vars a v ha (hold hv), fun a v ha hv => h.events a v ha (hold hv), h.records⟩

theorem Safe.setRecord {stored : List PendingFrame} (h : Safe srv root stored d s) {id : String}
    {r : ActivityRecord}
    (hr : ∀ a v, UiActivity srv d a → id = a.id → r.state = .completed → r.output = some v →
      Approved srv stored root a.id a.inputs v)
    : Safe srv root stored d (s.setRecord id r) := by
  refine ⟨h.vars, h.events, ?_⟩
  intro a r' v ha hr' hstate hv
  unfold ExecutionState.activity? ExecutionState.setRecord at hr'
  dsimp only at hr'
  rcases Map.of_insert hr' with ⟨heq, rfl⟩ | hr'
  . exact hr a v ha heq hstate hv
  . exact h.records a r' v ha hr' hstate hv

theorem eventKey_ne_timerMarker (id id' : String) : timerMarker id ≠ "event." ++ id' := by
  intro h
  have := congrArg (fun s => s.toList.take 1) h
  simp [timerMarker] at this

theorem eventKey_ne_forEachMarker (id id' : String) : forEachMarker id ≠ "event." ++ id' := by
  intro h
  have := congrArg (fun s => s.toList.take 1) h
  simp [forEachMarker] at this

theorem Safe.edit (htidy : Tidy srv d) (hinv : WorldInv srv root library w) (hroot : s.executionId = root)
    (h : Safe srv root w.executor.stored d s) (hedit : Edit srv.host.engine.platform w d s t)
    : Safe srv root w.executor.stored d t := by
  cases hedit with
  | version n => exact h.of_eq rfl rfl
  | record id r _ hr =>
    apply h.setRecord
    intro a v ha hid hstate hv
    obtain ⟨v', hv', hearned⟩ := hr hstate
    rw [hv'] at hv
    cases hv
    rw [hroot, hid] at hearned
    exact approved_of_earned htidy hinv ha hearned
  | «variable» b v hb hearned =>
    apply h.setVariable
    intro a ha hkey
    rcases hkey with hid | hevent
    . rw [hroot, hid] at hearned
      exact approved_of_earned htidy hinv ha hearned
    . exact absurd hevent (htidy.events a b ha hb)
  | order ids => exact h.of_eq rfl rfl
  | mark id v =>
    apply h.setVariable
    intro a ha hkey
    rcases hkey with hid | hevent
    . exact absurd hid.symm (htidy.markers a id ha).1
    . exact absurd hevent (eventKey_ne_timerMarker id a.id)
  | unmark id => exact h.removeVariable _
  | @expand b _ _ _ _ _ =>
    apply h.setVariable
    intro a ha hkey
    rcases hkey with hid | hevent
    . exact absurd hid.symm (htidy.markers a b.id ha).2
    . exact absurd hevent (eventKey_ne_forEachMarker b.id a.id)
  | enlist _ _ _ => exact h.setRecord fun _ _ _ _ => nofun
  | collapse id => exact h.removeVariable _

theorem Of.edit (h : Of d s) (hedit : Edit srv.host.engine.platform w d s t) : Of d t := by
  cases hedit <;> exact h

theorem vars_handed {a : ActivityDef} {ctx : ActivityContext}
    (hctx : Handed srv.host.engine.platform d s.vars a ctx)
    : ctx.vars[a.id]? = s.vars[a.id]? ∧ ctx.vars["event." ++ a.id]? = s.vars["event." ++ a.id]? := by
  cases hctx with
  | declared h attempt => exact ⟨rfl, rfl⟩
  | @item parent spec items index value h hitems hvalue attempt =>
    have hvars {key : String} (hitem : "item" ≠ key) (hindex : "item_index" ≠ key)
        : (itemVars s.vars value index)[key]? = s.vars[key]? := by
      unfold itemVars
      rw [Map.getElem?_insert_of_ne _ _ hindex, Map.getElem?_insert_of_ne _ _ hitem]
    have hbracket := instanceId_bracket parent.id index
    constructor
    . apply hvars
      . rintro heq
        have hmem : '[' ∈ "item".toList := heq ▸ hbracket
        revert hmem
        decide
      . rintro heq
        have hmem : '[' ∈ "item_index".toList := heq ▸ hbracket
        revert hmem
        decide
    . have hevent (id : String) : ("event." ++ id).toList.head? = some 'e' := by simp
      apply hvars
      . rintro heq
        have hhead := congrArg (fun key => key.toList.head?) heq
        rw [hevent] at hhead
        revert hhead
        decide
      . rintro heq
        have hhead := congrArg (fun key => key.toList.head?) heq
        rw [hevent] at hhead
        revert hhead
        decide

theorem Handed.context_eq {a : ActivityDef} {ctx : ActivityContext}
    (hctx : Handed srv.host.engine.platform d s.vars a ctx)
    : ctx.id = a.id ∧ ctx.activityType = a.activityType ∧ ctx.inputs = a.inputs := by
  cases hctx with
  | declared h attempt => exact ⟨rfl, rfl, rfl⟩
  | item h hitems hvalue attempt => exact ⟨rfl, rfl, rfl⟩

theorem approved_of_reply (hsafe : Safe srv root w.executor.stored d s)
    {a : ActivityDef} {ctx : ActivityContext} (hctx : Handed srv.host.engine.platform d s.vars a ctx)
    (hui : ctx.activityType = "ui") {v : Value} (hv : (srv.parts.execute w.executor ctx).reply = .output v)
    : Approved srv w.executor.stored root ctx.id ctx.inputs v := by
  obtain ⟨hid, htype, hinputs⟩ := Handed.context_eq hctx
  have ha : UiActivity srv d a := ⟨hctx.runs, htype ▸ hui⟩
  obtain ⟨hvars, hevents⟩ := vars_handed hctx
  have hspec := (execute_spec srv w.executor ctx).2 hui v hv
  rw [hid, hvars, hevents] at hspec
  rw [hid]
  rcases hspec with hfound | hfound | hdisplayed
  . rw [hinputs]
    exact hsafe.vars a v ha hfound
  . rw [hinputs]
    exact hsafe.events a v ha hfound
  . exact .inr hdisplayed

theorem WorldInv.react (hinv : WorldInv srv root library w) (hsane : Sane srv root library w.executor.stored d s)
    (rollback : Bool) {a : ActivityDef} {ctx : ActivityContext}
    (hctx : Handed srv.host.engine.platform d s.vars a ctx)
    : WorldInv srv root library (w.react srv.host.engine s.executionId rollback ctx) := by
  have hextends := (execute_spec srv w.executor ctx).1
  unfold World.react
  rw [srv.wired]
  refine ⟨hinv.keyed, hextends.filed hinv.filed, ?_, ?_⟩
  . intro call hcall hroot hui v hv
    rcases List.mem_append.mp hcall with hold | hnew
    . exact (hinv.calls call hold hroot hui v hv).mono hextends.stored
    . cases List.mem_singleton.mp hnew
      rcases hsane with hkey | ⟨-, -, -, hsafe⟩
      . exact absurd (congrArg _ hroot) hkey
      . exact (approved_of_reply hsafe hctx hui hv).mono hextends.stored
  . intro t ht
    obtain ⟨hid, d', hd', hof, hsafe⟩ := hinv.checkpoint t ht
    exact ⟨hid, d', hd', hof, hsafe.mono hextends.stored⟩

theorem WorldInv.save (hinv : WorldInv srv root library w) (hsane : Sane srv root library w.executor.stored d s)
    : WorldInv srv root library (w.save srv.host.engine s) := by
  refine ⟨hinv.keyed.save s, hinv.filed, hinv.calls, ?_⟩
  intro t ht
  unfold World.latest World.save at ht
  dsimp only at ht
  rcases Map.of_insert ht with ⟨heq, rfl⟩ | ht
  . rcases hsane with hkey | ⟨hid, hd, hof, hsafe⟩
    . exact absurd heq hkey
    . exact ⟨hid, d, hd, hof, hsafe⟩
  . exact hinv.checkpoint t ht

end

def contract (hcurated : Curated srv library) (root : String) : Contract srv.host.engine where
  inv := WorldInv srv root library
  le w w' := w.calls ⊆ w'.calls ∧ w.executor.stored ⊆ w'.executor.stored
  refl _ := ⟨List.Subset.refl _, List.Subset.refl _⟩
  trans _ _ _ h h' := ⟨fun _ hc => h'.1 (h.1 hc), fun _ hp => h'.2 (h.2 hp)⟩
  good w d s := Sane srv root library w.executor.stored d s
  stable _ _ _ _ hle h := h.mono hle.2
  calls _ _ hle := hle.1
  edit w d s s' hinv h hedit := by
    rcases h with hkey | ⟨hid, hd, hof, hsafe⟩
    . left
      rw [hedit.executionId_eq]
      exact hkey
    . right
      exact ⟨hedit.executionId_eq.trans hid, hd, hof.edit hedit, hsafe.edit (hcurated.tidy d hd) hinv hid hedit⟩
  tick w _ _ _ hinv :=
    ⟨⟨hinv.keyed, hinv.filed, hinv.calls, hinv.checkpoint⟩, List.Subset.refl _, List.Subset.refl _⟩
  append w _ _ _ hinv _ :=
    ⟨⟨hinv.keyed, hinv.filed, hinv.calls, hinv.checkpoint⟩, List.Subset.refl _, List.Subset.refl _⟩
  save w d s hinv h := ⟨hinv.save h, List.Subset.refl _, List.Subset.refl _⟩
  react w d s rollback a ctx hinv h hctx := by
    refine ⟨hinv.react h rollback hctx, List.subset_append_left _ _, ?_⟩
    unfold World.react
    rw [srv.wired]
    exact (execute_spec srv w.executor ctx).1.stored

theorem skipOpen_completed {record : ActivityRecord} (h : (Engine.skipOpen record).state = .completed)
    : Engine.skipOpen record = record := by
  unfold Engine.skipOpen at *
  split at h
  . rfl
  . rfl
  . rfl
  . cases h

theorem contract_closed (hcurated : Curated srv library) (root : String)
    : (contract hcurated root).Closed where
  status w d s target _ h := by
    refine Or.imp_right ?_ h
    rintro ⟨hid, hd, hof, hsafe⟩
    exact ⟨hid, hd, hof, hsafe.of_eq rfl rfl⟩
  skip w d s _ h := by
    refine Or.imp_right ?_ h
    rintro ⟨hid, hd, hof, hsafe⟩
    refine ⟨hid, hd, hof, hsafe.vars, hsafe.events, ?_⟩
    intro a r v ha hr hstate hv
    unfold ExecutionState.activity? at hr
    dsimp only at hr
    rw [Std.ExtTreeMap.getElem?_map, Option.map_eq_some_iff] at hr
    obtain ⟨record, hrecord, rfl⟩ := hr
    have hopen := skipOpen_completed hstate
    rw [hopen] at hstate hv
    exact hsafe.records a record v ha hrecord hstate hv
  child w d s a resolver childName child _ _ _ _ hresolver _ _ _ := by
    rw [srv.host.noChildren] at hresolver
    cases hresolver


section

variable {w : World (UiDesk ι)} {d : Definition} {executionId : String}

theorem initial_record (input : Value) {id : String} {r : ActivityRecord}
    (h : (Engine.initialState d executionId input).activity? id = some r) : r = {} := by
  have hfold (as : List ActivityDef) (records : Std.ExtTreeMap String ActivityRecord)
      (hrecords : ∀ (k : String) (r : ActivityRecord), records[k]? = some r → r = {})
      : ∀ (k : String) (r : ActivityRecord),
        (as.foldl (fun records a => records.insert a.id {}) records)[k]? = some r → r = {} := by
    induction as generalizing records with
    | nil => exact hrecords
    | cons a as ih =>
      apply ih
      intro k r hr
      rcases Map.of_insert hr with ⟨-, rfl⟩ | hr
      . rfl
      . exact hrecords k r hr
  apply hfold d.spec.activities ∅ _ id r h
  intro k r hr
  simp at hr

theorem sane_latest {t : ExecutionState} (hinv : WorldInv srv root library w)
    (hother : srv.host.engine.backend.key executionId ≠ srv.host.engine.backend.key root)
    (ht : w.latest srv.host.engine executionId = some t) : Sane srv root library w.executor.stored d t := by
  left
  rw [hinv.keyed.latest ht]
  exact hother

theorem start_inv (hcurated : Curated srv library) (hinv : WorldInv srv root library w) (input : Value)
    (hapart : Apart srv root executionId)
    (hfresh : executionId = root → d ∈ library ∧ Fresh srv root d input)
    : WorldInv srv root library (srv.host.engine.start d executionId input w).2 := by
  have hkeeps := Contract.start_keeps (d := d) (contract_closed hcurated root) executionId input
  refine (hkeeps w hinv ?_).1
  rcases hapart with rfl | hother
  . obtain ⟨hd, hfresh⟩ := hfresh rfl
    refine .inr ⟨rfl, hd, ⟨rfl, rfl⟩, ?_, ?_, ?_⟩
    . intro a v ha hv
      rw [(hfresh a ha).1] at hv
      cases hv
    . intro a v ha hv
      rw [(hfresh a ha).2] at hv
      cases hv
    . intro a r v ha hr hstate hv
      rw [initial_record input hr] at hstate
      cases hstate
  . exact .inl hother

theorem resume_inv (hcurated : Curated srv library) (hinv : WorldInv srv root library w) (gas : Nat)
    (hapart : Apart srv root executionId)
    (hmatches : executionId = root → Matches srv root library w d)
    : WorldInv srv root library (srv.host.engine.resume gas d executionId w).2 := by
  have hkeeps : (contract hcurated root).Keeps (fun w => executionId = root → Matches srv root library w d)
      (srv.host.engine.resume gas d executionId) (fun r => (contract hcurated root).Good d r.2) := by
    apply Contract.resume_keeps (contract_closed hcurated root)
    intro w t hinv hmatches ht hpinned
    rcases hapart with rfl | hother
    . obtain ⟨hid, d', hd', hof, hsafe⟩ := hinv.checkpoint t ht
      cases hmatches rfl t d' ht hd' hof hpinned
      exact .inr ⟨hid, hd', hof, hsafe⟩
    . exact sane_latest hinv hother ht
  exact (hkeeps w hinv hmatches).1

theorem deliver_inv (hcurated : Curated srv library) (hinv : WorldInv srv root library w) (gas : Nat)
    {key : String} {payload : Value} (hapart : Apart srv root executionId)
    (hmatches : executionId = root → Matches srv root library w d)
    (hadmits : executionId = root → Admits srv root library w key payload)
    : WorldInv srv root library (srv.host.engine.deliver gas d executionId key payload w).2 := by
  have hkeeps : (contract hcurated root).Keeps
      (fun w => executionId = root → Matches srv root library w d ∧ Admits srv root library w key payload)
      (srv.host.engine.deliver gas d executionId key payload)
      (fun r => (contract hcurated root).Good d r.2) := by
    apply Contract.deliver_keeps (contract_closed hcurated root)
    . intro w t hinv ht
      exact hinv.keyed.latest ht
    . intro w t hinv hP ht
      rcases hapart with rfl | hother
      . obtain ⟨hmatches, hadmits⟩ := hP rfl
        obtain ⟨hid, d', hd', hof, hsafe⟩ := hinv.checkpoint t ht
        refine ⟨⟨d', .inr ⟨hid, hd', hof, hsafe.setVariable fun a ha => hadmits t d' a ht hd' hof ha⟩⟩, ?_⟩
        intro hpinned w' hinv' ht'
        obtain ⟨hid', d'', hd'', hof', hsafe'⟩ := hinv'.checkpoint _ ht'
        cases hmatches t d'' ht hd'' hof' hpinned
        exact .inr ⟨hid', hd'', hof', hsafe'⟩
      . have hkey : srv.host.engine.backend.key t.executionId ≠ srv.host.engine.backend.key root := by
          rw [hinv.keyed.latest ht]
          exact hother
        exact ⟨⟨d, .inl hkey⟩, fun _ _ _ _ => .inl hkey⟩
  exact (hkeeps w hinv fun h => ⟨hmatches h, hadmits h⟩).1

theorem cancel_inv (hcurated : Curated srv library) (hinv : WorldInv srv root library w)
    (hapart : Apart srv root executionId)
    : WorldInv srv root library (srv.host.engine.cancel executionId w).2 := by
  -- A definition that goes with the checkpoint, if there is one.
  have hdefinition : ∃ d, ∀ t, w.latest srv.host.engine executionId = some t →
      Sane srv root library w.executor.stored d t := by
    rcases hapart with rfl | hother
    . cases ht : w.latest srv.host.engine executionId with
      | none =>
        refine ⟨{ metadata := { name := "" }, spec := { activities := [] } }, ?_⟩
        intro t ht'
        cases ht'
      | some t =>
        obtain ⟨hid, d', hd', hof, hsafe⟩ := hinv.checkpoint t ht
        refine ⟨d', ?_⟩
        intro t' ht'
        cases ht'
        exact .inr ⟨hid, hd', hof, hsafe⟩
    . exact ⟨{ metadata := { name := "" }, spec := { activities := [] } },
        fun t ht => sane_latest hinv hother ht⟩
  obtain ⟨d, hd⟩ := hdefinition
  have hkeeps : (contract hcurated root).Keeps (fun w' => w' = w) (srv.host.engine.cancel executionId)
      (fun t => (contract hcurated root).Good d t) := by
    apply Contract.cancel_keeps (contract_closed hcurated root)
    rintro w' t - rfl ht
    exact hd t ht
  exact (hkeeps w hinv rfl).1

end

end

end Wovyr.Server.Ui.Boundary
