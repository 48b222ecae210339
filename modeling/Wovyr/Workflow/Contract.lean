import Wovyr.Workflow.Engine

/-!
This module contains what the engine can do to the state of an execution, and contracts: an
invariant of the world and a property of the states under way that all of this keeps.
-/

namespace Wovyr.Workflow

open Definition

inductive Runs (p : Platform) (d : Definition) : ActivityDef → Prop where
  | declared {a : ActivityDef} (h : d.activity a.id = some a) : Runs p d a
  | item {a : ActivityDef} {spec : ForEachSpec} (h : d.activity a.id = some a)
    (hforEach : isForEach a.activityType = true) (hspec : ForEachSpec.parse p a = .ok spec) (index : Nat)
    : Runs p d (spec.instance a.id index)

structure Fans (p : Platform) (d : Definition) (a : ActivityDef) (spec : ForEachSpec) : Prop where
  declared : d.activity a.id = some a
  type : isForEach a.activityType = true
  parsed : ForEachSpec.parse p a = .ok spec

inductive Handed (p : Platform) (d : Definition) (vars : Variables)
    : ActivityDef → ActivityContext → Prop where
  | declared {a : ActivityDef} (h : d.activity a.id = some a) (attempt : Nat)
    : Handed p d vars a (a.context vars attempt)
  | item {a : ActivityDef} {spec : ForEachSpec} {items : List Value} {index : Nat} {value : Value}
    (h : Fans p d a spec) (hitems : vars[forEachMarker a.id]? = some (.array items))
    (hvalue : items[index]? = some value) (attempt : Nat)
    : Handed p d vars (spec.instance a.id index)
        ((spec.instance a.id index).context (itemVars vars value index) attempt)

def Native (activityType : String) : Prop :=
  activityType = "wait" ∨ activityType = "workflow" ∨ isForEach activityType = true

section

variable {ω : Type}

def Answered (w : World ω) (executionId : String) (a : ActivityDef) (output : Value) : Prop :=
  ∃ rollback vars attempt, ⟨executionId, rollback, a.context vars attempt, .output output⟩ ∈ w.calls

-- An output is an answer of the executor, or the engine made it for an activity of its own.
def Earned (p : Platform) (w : World ω) (d : Definition) (executionId id : String) (output : Value)
    : Prop :=
  (∃ a, Runs p d a ∧ a.id = id ∧ Answered w executionId a output)
    ∨ (∃ a, d.activity id = some a ∧ Native a.activityType)

inductive Edit (p : Platform) (w : World ω) (d : Definition) (s : ExecutionState)
    : ExecutionState → Prop where
  | version (n : Nat) : Edit p w d s { s with version := n }
  | record (id : String) (r : ActivityRecord) (hid : (s.activity? id).isSome = true)
    (h : r.state = .completed → ∃ v, r.output = some v ∧ Earned p w d s.executionId id v)
    : Edit p w d s (s.setRecord id r)
  | variable (a : ActivityDef) (v : Value) (ha : d.activity a.id = some a)
    (h : Earned p w d s.executionId a.id v) : Edit p w d s (s.setVariable a.id v)
  | order (ids : List String) : Edit p w d s { s with completedOrder := ids }
  | mark (id : String) (v : Value) : Edit p w d s (s.setVariable (timerMarker id) v)
  | unmark (id : String) : Edit p w d s (s.removeVariable (timerMarker id))
  | expand {a : ActivityDef} {spec : ForEachSpec} {items : List Value} (h : Fans p d a spec)
    (hitems : Template.resolve p s.vars spec.items = .array items) (hlength : items.length ≤ spec.maxItems)
    : Edit p w d s (s.setVariable (forEachMarker a.id) (.array items))
  | enlist {a : ActivityDef} {spec : ForEachSpec} {items : List Value} {index : Nat} (h : Fans p d a spec)
    (hitems : s.vars[forEachMarker a.id]? = some (.array items)) (hindex : index < items.length)
    : Edit p w d s (s.setRecord (instanceId a.id index) {})
  | collapse (id : String) : Edit p w d s (s.removeVariable (forEachMarker id))

theorem World.calls_trans (w w' w'' : World ω) (h : w.calls ⊆ w'.calls) (h' : w'.calls ⊆ w''.calls)
    : w.calls ⊆ w''.calls :=
  List.Subset.trans h h'

structure Contract (e : Engine ω) extends Keeping (World ω) where
  good : World ω → Definition → ExecutionState → Prop
  stable : ∀ d s, toKeeping.Stable fun w => good w d s
  calls : ∀ w w', le w w' → w.calls ⊆ w'.calls
  edit : ∀ w d s s', inv w → good w d s → Edit e.platform w d s s' → good w d s'
  tick : ∀ w timers writes picks, inv w →
    inv { w with timers, writes, picks } ∧ le w { w with timers, writes, picks }
  append : ∀ w d s event, inv w → good w d s →
    inv (w.append e s.executionId event) ∧ le w (w.append e s.executionId event)
  save : ∀ w d s, inv w → good w d s → inv (w.save e s) ∧ le w (w.save e s)
  react : ∀ w d s rollback a ctx, inv w → good w d s → Handed e.platform d s.vars a ctx →
    inv (w.react e s.executionId rollback ctx) ∧ le w (w.react e s.executionId rollback ctx)

end

theorem Edit.executionId_eq {ω : Type} {p : Platform} {w : World ω} {d : Definition}
    {s t : ExecutionState} (h : Edit p w d s t) : t.executionId = s.executionId := by
  cases h <;> rfl

theorem Definition.activity_id {d : Definition} {id : String} {a : ActivityDef}
    (h : d.activity id = some a) : a.id = id := by
  have := List.find?_some h
  simpa using this

theorem Definition.activity_self {d : Definition} {id : String} {a : ActivityDef}
    (h : d.activity id = some a) : d.activity a.id = some a := by
  rw [activity_id h]
  exact h

theorem Definition.activity_mem {d : Definition} {id : String} {a : ActivityDef}
    (h : d.activity id = some a) : a ∈ d.spec.activities :=
  List.mem_of_find?_eq_some h

theorem Handed.runs {p : Platform} {d : Definition} {vars : Variables} {a : ActivityDef}
    {ctx : ActivityContext} (h : Handed p d vars a ctx) : Runs p d a := by
  cases h with
  | declared h _ => exact .declared h
  | item h _ _ _ => exact .item h.declared h.type h.parsed _

theorem Definition.plain_of_checkIds {seen : List String} {as : List ActivityDef}
    (h : checkIds seen as = .ok ()) : ∀ a ∈ as, '[' ∉ a.id.toList := by
  induction as generalizing seen with
  | nil =>
    intro a ha
    cases ha
  | cons b bs ih =>
    unfold checkIds at h
    split at h
    . cases h
    . split at h
      . cases h
      . next hbrackets =>
        split at h
        . cases h
        . intro a ha
          rcases List.mem_cons.mp ha with rfl | hmem
          . exact fun hbracket => hbrackets (Or.inl hbracket)
          . exact ih h a hmem

theorem Definition.plain_of_validate {p : Platform} {d : Definition} (h : d.validate p = .ok ())
    {id : String} {a : ActivityDef} (ha : d.activity id = some a) : '[' ∉ a.id.toList := by
  have hids : checkIds [] d.spec.activities = .ok () := by
    cases hids : checkIds [] d.spec.activities with
    | ok _ => rfl
    | error e =>
      -- Whatever the checks before it say, the result is an error.
      unfold validate at h
      rw [hids] at h
      cases d.kind <;> dsimp only at h <;> (repeat' split at h) <;> cases h
  exact plain_of_checkIds hids a (activity_mem ha)

theorem instanceId_bracket (id : String) (index : Nat) : '[' ∈ (instanceId id index).toList := by
  simp [instanceId]

theorem parent_of_instanceId_eq {id id' : String} {index index' : Nat} (hid : '[' ∉ id.toList)
    (hid' : '[' ∉ id'.toList) (h : instanceId id index = instanceId id' index') : id = id' := by
  have hjoined (s : String) (n : Nat) : instanceId s n = s ++ "[" ++ (toString n ++ "]") := by
    simp only [instanceId, String.append_assoc]
  rw [hjoined, hjoined] at h
  exact (Text.joined_inj (by rfl) hid hid' h).1

theorem Runs.eq_of_id_eq {p : Platform} {d : Definition} (hvalid : d.validate p = .ok ())
    {a a' : ActivityDef} (ha : Runs p d a) (ha' : Runs p d a') (hid : a.id = a'.id) : a = a' := by
  cases ha with
  | declared h =>
    cases ha' with
    | declared h' =>
      rw [hid, h'] at h
      exact (Option.some.inj h).symm
    | item _ _ _ index =>
      apply absurd _ (plain_of_validate hvalid h)
      rw [hid]
      exact instanceId_bracket _ index
  | @item parent spec h _ hspec index =>
    cases ha' with
    | declared h' =>
      apply absurd _ (plain_of_validate hvalid h')
      rw [← hid]
      exact instanceId_bracket _ index
    | @item parent' spec' h' _ hspec' index' =>
      have hparent := parent_of_instanceId_eq (plain_of_validate hvalid h)
        (plain_of_validate hvalid h') hid
      rw [hparent, h'] at h
      cases h
      rw [hspec'] at hspec
      cases hspec
      have hids : instanceId parent.id index = instanceId parent.id index' := hid
      unfold ForEachSpec.instance
      rw [hids]

theorem Earned.answered {ω : Type} {p : Platform} {w : World ω} {d : Definition} {executionId : String}
    {a : ActivityDef} {output : Value} (hvalid : d.validate p = .ok ()) (ha : Runs p d a)
    (hnative : ¬Native a.activityType) (h : Earned p w d executionId a.id output)
    : Answered w executionId a output := by
  cases h with
  | inl h =>
    obtain ⟨a', ha', hid, hanswered⟩ := h
    rw [ha.eq_of_id_eq hvalid ha' hid.symm]
    exact hanswered
  | inr h =>
    obtain ⟨a', ha', hnative'⟩ := h
    have hruns : Runs p d a' := .declared (activity_self ha')
    rw [← ha.eq_of_id_eq hvalid hruns (activity_id ha').symm] at hnative'
    exact absurd hnative' hnative

namespace Contract

variable {ω : Type} {e : Engine ω} (K : Contract e) {α : Type} {d : Definition} {s : ExecutionState}

def Good (d : Definition) (s : ExecutionState) (w : World ω) : Prop := K.good w d s

def Yields (d : Definition) (r : ExecutionState × α) (w : World ω) : Prop := K.good w d r.1

def pin (executionId : String) : Contract e :=
  { K with
    good := fun w d s => K.good w d s ∧ s.executionId = executionId
    stable := fun d s w w' hle h => ⟨K.stable d s w w' hle h.1, h.2⟩
    edit := fun w d s s' hinv h hedit =>
      ⟨K.edit w d s s' hinv h.1 hedit, hedit.executionId_eq.trans h.2⟩
    append := fun w d s event hinv h => K.append w d s event hinv h.1
    save := fun w d s hinv h => K.save w d s hinv h.1
    react := fun w d s rollback a ctx hinv h hctx => K.react w d s rollback a ctx hinv h.1 hctx }

variable {K}

theorem stable_answered (executionId : String) (a : ActivityDef) (output : Value)
    : K.Stable fun w => Answered w executionId a output := by
  intro w w' hle h
  obtain ⟨rollback, vars, attempt, hmem⟩ := h
  exact ⟨rollback, vars, attempt, K.calls w w' hle hmem⟩

theorem stable_good : K.Stable (K.Good d s) :=
  K.stable d s

theorem stable_reply (executionId : String) (a : ActivityDef) (reply : Reply)
    : K.Stable fun w => ∀ v, reply = .output v → Answered w executionId a v := by
  intro w w' hle h v hv
  exact stable_answered executionId a v w w' hle (h v hv)

theorem good_setRecord {w : World ω} {id : String} {r record : ActivityRecord} (hinv : K.inv w)
    (h : K.Good d s w) (hrecord : s.activity? id = some record) (hr : r.state ≠ .completed)
    : K.Good d (s.setRecord id r) w := by
  apply K.edit w d s _ hinv h
  apply Edit.record
  . rw [hrecord]
    rfl
  . intro hcompleted
    exact absurd hcompleted hr

theorem good_setActivity {w : World ω} {id : String} {target : ActivityState} (hinv : K.inv w)
    (h : K.Good d s w) (htarget : target ≠ .completed) : K.Good d (s.setActivity id target) w := by
  unfold ExecutionState.setActivity
  split
  next record hrecord => exact good_setRecord hinv h hrecord htarget
  next => exact h

theorem good_complete {w : World ω} {a : ActivityDef} {r record : ActivityRecord} {v : Value}
    (hinv : K.inv w) (h : K.Good d s w) (ha : d.activity a.id = some a)
    (hrecord : s.activity? a.id = some record) (hv : Earned e.platform w d s.executionId a.id v)
    : K.Good d (s.complete a.id r v) w := by
  have hset : K.Good d (s.setRecord a.id { r with state := .completed, output := some v }) w :=
    K.edit w d s _ hinv h (.record a.id _ (by rw [hrecord]; rfl) fun _ => ⟨v, rfl, hv⟩)
  have hvariable := K.edit w d _ _ hinv hset (.variable a v ha hv)
  exact K.edit w d _ _ hinv hvariable (.order _)

theorem persist_keeps {f : World ω → World ω} {P : World ω → Prop} (hP : K.Stable P)
    (h : ∀ w, K.inv w → P w → K.inv (f w) ∧ K.le w (f w))
    : K.Keeps P (Engine.persist f) (fun _ => P) := by
  intro w hinv hw
  unfold Engine.persist
  split
  . refine ⟨hinv, K.refl w, ?_⟩
    intro _ hok
    cases hok
  . obtain ⟨hinv', hle⟩ := K.tick w w.timers (w.writes - 1) w.picks hinv
    have hw' := hP _ _ hle hw
    obtain ⟨hinv'', hle'⟩ := h _ hinv' hw'
    exact ⟨hinv'', K.trans _ _ _ hle hle', fun _ _ => hP _ _ hle' hw'⟩

theorem emit_keeps (event : WorkflowEvent)
    : K.Keeps (K.Good d s) (e.emit s event) (fun t => K.Good d t) := by
  unfold Engine.emit
  apply Keeping.Keeps.bind (persist_keeps stable_good fun w hinv h => K.append w d s event hinv h)
  intro _
  apply Keeping.Keeps.pure
  intro w hinv h
  exact K.edit w d s _ hinv h (.version _)

theorem emitAll_keeps (events : List WorkflowEvent)
    : K.Keeps (K.Good d s) (e.emitAll s events) (fun t => K.Good d t) := by
  induction events generalizing s with
  | nil => exact Keeping.Keeps.pure _ fun _ _ h => h
  | cons event events ih =>
    unfold Engine.emitAll
    exact Keeping.Keeps.bind (emit_keeps event) fun _ => ih

theorem checkpoint_keeps : K.Keeps (K.Good d s) (e.checkpoint s) (fun _ => K.Good d s) :=
  persist_keeps stable_good fun w hinv h => K.save w d s hinv h

theorem latest_checkpoint {executionId : String} {w : World ω} {u : Unit}
    (hok : (e.checkpoint s w).1 = .ok u)
    (hkey : e.backend.key s.executionId = e.backend.key executionId)
    : (e.checkpoint s w).2.latest e executionId = some s := by
  unfold Engine.checkpoint Engine.persist at *
  split at hok
  . cases hok
  next hwrites =>
    rw [if_neg hwrites]
    unfold World.latest World.save
    rw [Map.getElem?_insert, if_pos hkey]

theorem recordOf_keeps {β : Type} {P : World ω → Prop} {Q : β → World ω → Prop} (id : String)
    {f : ActivityRecord → Action ω β} (hf : ∀ record, s.activity? id = some record → K.Keeps P (f record) Q)
    : K.Keeps P (Engine.recordOf s id >>= f) Q := by
  unfold Engine.recordOf
  cases hrecord : s.activity? id with
  | none => exact Keeping.Keeps.bind (Q := fun _ _ => False) Keeping.Keeps.halt fun _ _ _ h => h.elim
  | some record => exact hf record hrecord

theorem callExecutor_keeps {a : ActivityDef} {ctx : ActivityContext} (rollback : Bool)
    (hctx : Handed e.platform d s.vars a ctx)
    : K.Keeps (K.Good d s) (e.callExecutor s.executionId rollback ctx)
        (fun r w => K.Good d s w ∧ ∀ v, r.2 = .output v → Answered w s.executionId a v) := by
  intro w hinv h
  have hrun : e.callExecutor s.executionId rollback ctx w
      = (.ok ((e.execute w.executor ctx).progress, (e.execute w.executor ctx).reply),
          w.react e s.executionId rollback ctx) := rfl
  rw [hrun]
  obtain ⟨hinv', hle⟩ := K.react w d s rollback a ctx hinv h hctx
  refine ⟨hinv', hle, ?_⟩
  intro r hr
  cases hr
  refine ⟨stable_good _ _ hle h, ?_⟩
  intro v hv
  cases hctx with
  | declared _ attempt =>
    refine ⟨rollback, s.vars, attempt, ?_⟩
    rw [← hv]
    exact List.mem_append_right _ (List.mem_singleton_self _)
  | @item _ _ _ index value _ _ _ attempt =>
    refine ⟨rollback, itemVars s.vars value index, attempt, ?_⟩
    rw [← hv]
    exact List.mem_append_right _ (List.mem_singleton_self _)

theorem pick_keeps {P : World ω → Prop} (hP : K.Stable P) (n : Nat)
    : K.Keeps P (Engine.pick n) (fun _ => P) := by
  intro w hinv h
  obtain ⟨hinv', hle⟩ := K.tick w w.timers w.writes w.picks.tail hinv
  exact ⟨hinv', hle, fun _ _ => hP _ _ hle h⟩

end Wovyr.Workflow.Contract
