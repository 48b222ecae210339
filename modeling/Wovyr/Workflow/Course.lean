import Mathlib.Data.List.Nodup
import Wovyr.Lib.Durable
import Wovyr.Workflow.Footprint

/-!
This module contains the course an execution takes: what is stored, how the engine can move the
records of a state from one write to the next, and what an invariant has to say to be kept all
along.
-/

namespace Wovyr

open Watch List Keeps

namespace Workflow

structure Store where
  events : Std.ExtTreeMap String (List WorkflowEvent)
  checkpoints : Std.ExtTreeMap String ExecutionState

namespace Store

variable {ω : Type} (e : Engine ω)

def append (st : Store) (executionId : String) (event : WorkflowEvent) : Store :=
  let key := e.backend.key executionId
  { st with events := st.events.insert key (st.events[key]?.getD [] ++ [event]) }

def save (st : Store) (state : ExecutionState) : Store :=
  { st with checkpoints := st.checkpoints.insert (e.backend.key state.executionId) state }

def latest (st : Store) (executionId : String) : Option ExecutionState :=
  st.checkpoints[e.backend.key executionId]?

def history (st : Store) (executionId : String) : List WorkflowEvent :=
  st.events[e.backend.key executionId]?.getD []

def WellKeyed (st : Store) : Prop :=
  ∀ k s, st.checkpoints[k]? = some s → e.backend.key s.executionId = k

def Grows (st st' : Store) : Prop :=
  ∀ k : String, st.events[k]?.getD [] ⊆ st'.events[k]?.getD []

variable {e}

theorem latest_save {st : Store} {s : ExecutionState} {executionId : String}
    : (st.save e s).latest e executionId
        = if e.backend.key s.executionId = e.backend.key executionId then some s
          else st.latest e executionId := by
  unfold save latest
  rw [Map.getElem?_insert]

theorem history_congr {st : Store} {id id' : String} (h : e.backend.key id = e.backend.key id')
    : st.history e id = st.history e id' := by
  unfold history
  rw [h]

theorem history_append {st : Store} {executionId id : String} {event : WorkflowEvent}
    : (st.append e id event).history e executionId
        = if e.backend.key id = e.backend.key executionId then st.history e executionId ++ [event]
          else st.history e executionId := by
  unfold append history
  dsimp only
  rw [Map.getElem?_insert]
  split
  next h =>
    rw [h]
    rfl
  next => rfl

theorem WellKeyed.save {st : Store} (h : st.WellKeyed e) (s : ExecutionState)
    : (st.save e s).WellKeyed e := by
  intro k t ht
  unfold Store.save at ht
  rcases Map.of_insert ht with ⟨hk, rfl⟩ | ht
  . exact hk
  . exact h k t ht

theorem grows_refl (st : Store) : st.Grows st :=
  fun _ _ h => h

theorem grows_append {st : Store} (id : String) (event : WorkflowEvent)
    : st.Grows (st.append e id event) := by
  intro k
  unfold append
  dsimp only
  rw [Map.getElem?_insert]
  split
  next h =>
    rw [h]
    exact subset_append_left _ _
  next => exact fun _ h => h

end Store

namespace World

variable {ω : Type}

def store (w : World ω) : Store :=
  ⟨w.events, w.checkpoints⟩

-- The calls of the executor are what is watched beside the store.
def durable : Durable (World ω) Store Call where
  store := store
  log w := w.calls
  left w := w.writes
  refill w n := { w with writes := n }
  left_refill _ _ := rfl
  refill_refill _ _ _ := rfl
  refill_left _ := rfl
  store_refill _ _ := rfl
  log_refill _ _ := rfl

end World

def ActivityState.isSettled : ActivityState → Bool
  | .completed | .failed | .skipped => true
  | _ => false

structure Definition.Sane (d : Definition) : Prop where
  nodup : (d.spec.activities.map (·.id)).Nodup
  plain : ∀ a ∈ d.spec.activities, '[' ∉ a.id.toList
  sources : ∀ t ∈ d.spec.transitions, t.source ∈ d.spec.activities.map (·.id)

def Decided (d : Definition) (s : ExecutionState) (id : String) : Prop :=
  ∀ t ∈ d.inbound id, ∃ record, s.activity? t.source = some record ∧ record.state.isSettled = true

structure Runnable (d : Definition) (s : ExecutionState) (a : ActivityDef) : Prop where
  declared : d.activity a.id = some a
  forward : a.id ∉ d.compensationTargets
  pending : ∃ record, s.activity? a.id = some record ∧ record.state.isSettled = false
  decided : Decided d s a.id

def Outstanding (s : ExecutionState) (id : String) (index : Nat) : Prop :=
  ∃ record, s.activity? (instanceId id index) = some record ∧ record.state ≠ .completed

inductive Callable (d : Definition) (s : ExecutionState) : ActivityContext → Prop where
  | activity {a : ActivityDef} (h : Runnable d s a) (vars : Variables) (attempt : Nat)
    : Callable d s (a.context vars attempt)
  | item {a : ActivityDef} {index : Nat} (h : Outstanding s a.id index) (spec : ForEachSpec)
    (vars : Variables) (attempt : Nat)
    : Callable d s ((spec.instance a.id index).context vars attempt)

def Engine.Answers {ω : Type} (e : Engine ω) (output : Value) : Prop :=
  ∃ x context, (e.execute x context).reply = .output output

inductive Source {ω : Type} (e : Engine ω) (s : ExecutionState) (a : ActivityDef) (output : Value)
    : Prop where
  | delivered {spec : WaitSpec} (htype : a.activityType = "wait")
    (hspec : WaitSpec.fromInputs a.id a.inputs = .ok spec) (h : s.vars[spec.variableKey]? = some output)
  | answered (htype : a.activityType ≠ "wait") (h : e.Answers output)
  | sized (htype : a.activityType ≠ "wait") (h : e.checkOutputSize a.id output = none)
  | nested (htype : a.activityType = "workflow") (child : ExecutionState) (h : output = childResult child)

def Finished (id : String) (r : ActivityRecord) : Prop :=
  r.state = .completed ∨ ('[' ∉ id.toList ∧ r.state.isSettled = true)

def Changeable (s : ExecutionState) (id : String) (r : ActivityRecord) : Prop :=
  s.activity? id = some r
    ∧ (r.state.isSettled = false ∨ (r.state ≠ .completed ∧ ∃ id' index, id = instanceId id' index))

inductive Layer where
  | rest
  | busy (id : String)
  | owing (event : WorkflowEvent)
deriving Repr, DecidableEq, Inhabited

def Layer.isOwing : Layer → Bool
  | .owing _ => true
  | _ => false

def ActivityState.isIdle : ActivityState → Bool
  | .ready | .retrying | .waiting | .skipped => true
  | _ => false

inductive Move {ω : Type} (e : Engine ω) (d : Definition) (s : ExecutionState)
    : Layer → Layer → ExecutionState → Prop where
  | run {id : String} {r : ActivityRecord} (h : Changeable s id r)
    : Move e d s .rest (.busy id) (s.setRecord id { r with state := .running })
  | settle {l : Layer} {id : String} {r r' : ActivityRecord} (h : Changeable s id r)
    (hl : l = .rest ∨ l = .busy id) (hr' : r'.state.isIdle = true)
    : Move e d s l .rest (s.setRecord id r')
  | fail {l : Layer} {id : String} {r r' : ActivityRecord} (msg : String) (h : Changeable s id r)
    (hl : l = .rest ∨ l = .busy id) (hr' : r'.state = .failed)
    : Move e d s l (.owing (.activityFailed id msg)) (s.setRecord id r')
  | complete {l : Layer} {a : ActivityDef} {output : Value} (r : ActivityRecord) (h : Runnable d s a)
    (hl : l = .rest ∨ l = .busy a.id) (hsource : Source e s a output)
    : Move e d s l (.owing (.activityCompleted a.id output)) (s.complete a.id r output)
  | completeItem {id : String} {index : Nat} {r : ActivityRecord} {output : Value} (attempts : Nat)
    (h : Changeable s (instanceId id index) r) (hanswer : e.Answers output)
    : Move e d s (.busy (instanceId id index)) (.owing (.activityCompleted (instanceId id index) output))
        (s.setRecord (instanceId id index) { r with attempts, state := .completed, output := some output })
  | expand (id : String) (index : Nat) (h : s.activity? (instanceId id index) = none)
    : Move e d s .rest .rest (s.setRecord (instanceId id index) {})

inductive Phase where
  | onward
  | failing
  | backward
  | done
deriving Repr, DecidableEq, Inhabited

def WorkflowEvent.isNeutral : WorkflowEvent → Bool
  | .activityCompleted .. | .activityFailed .. | .workflowCompleted | .workflowFailed _
  | .compensationStarted | .compensationStepCompleted .. | .compensationCompleted
  | .workflowCancelled => false
  | _ => true

def Dressed (vars vars' : Variables) : Prop :=
  ∀ key : String, key.toList.head? ≠ some '_' → vars'[key]? = vars[key]?

def refusal (status target : WorkflowState) : Error :=
  .runtime s!"invalid workflow transition {status.debug} -> {target.debug}"

def Refusal (err : Error) : Prop :=
  ∃ status target, err = refusal status target

def Engine.Resolves {ω : Type} (e : Engine ω) (a : ActivityDef) (child : Definition) : Prop :=
  a.activityType = "workflow"
    ∧ ∃ resolver x name, e.subworkflows = some resolver ∧ a.name = some name ∧ resolver x name = some child

/--
An invariant of the store, of the execution that is under way over it and of the calls made for it.
-/
structure Course {ω : Type} (e : Engine ω) where
  inv : Store → Prop
  may : Store → Call → Prop
  fault : Error → Prop
  whole : Store → Prop
  vacant : Store → String → Prop
  heir : Definition → String → Prop
  takes : Definition → String → Value → Prop
  good : Phase → Layer → Store → Definition → ExecutionState → Prop
  safe : ∀ ph l st d s, good ph l st d s → inv st
  sane : ∀ ph l st d s, good ph l st d s → d.Sane
  onward : ∀ l st d s, good .onward l st d s ↔ good .failing l st d s ∧ whole st
  ended : ∀ l st d s, good .done l st d s → whole st
  other : ∀ err, ¬Refusal err → fault err
  refused : ∀ st d s target, good .failing .rest st d s → s.status ≠ .running →
    fault (refusal s.status target)
  dress : ∀ ph l st d s vars version, good ph l st d s → Dressed s.vars vars →
    good ph l st d { s with vars, version }
  move : ∀ l l' st d s t, good .failing l st d s → Move e d s l l' t → good .failing l' st d t
  note : ∀ ph l st d s event, good ph l st d s → event.isNeutral = true → l.isOwing = false →
    good ph l (st.append e s.executionId event) d s
  pay : ∀ ph st d s event, good ph (.owing event) st d s →
    good ph .rest (st.append e s.executionId event) d s
  save : ∀ ph st d s, good ph .rest st d s → good ph .rest (st.save e s) d s
  finish : ∀ st d s, good .onward .rest st d s → s.status = .running →
    Engine.forwardComplete d s = some true →
    good .done .rest (st.append e s.executionId .workflowCompleted) d { s with status := .completed }
  fail : ∀ st d s msg, good .failing .rest st d s → s.status = .running →
    good .backward .rest (st.append e s.executionId (.workflowFailed msg)) d
      { s with status := .failed }
  fall : ∀ st d s, good .failing .rest st d s → s.status = .failed → good .backward .rest st d s
  turn : ∀ st d s, good .backward .rest st d s → s.status = .failed →
    good .backward .rest (st.append e s.executionId .compensationStarted) d
      { s with status := .compensating }
  settle : ∀ st d s, good .backward .rest st d s → s.status = .compensating →
    good .backward .rest (st.append e s.executionId .compensationCompleted) d
      { s with status := .failed }
  undo : ∀ st d s activity id r attempts output, good .backward .rest st d s →
    id ∈ d.compensationTargets → s.activity? id = some r → e.Answers output →
    good .backward (.owing (.compensationStepCompleted activity id)) st d
      ((s.setRecord id { r with state := .completed, attempts, output := some output }).setVariable id output)
  calls : ∀ l st d s context reply, good .onward l st d s → Callable d s context →
    may st ⟨s.executionId, false, context, reply⟩
  undoes : ∀ st d s context reply, good .backward .rest st d s →
    may st ⟨s.executionId, true, context, reply⟩
  keyed : ∀ st id s, inv st → st.latest e id = some s →
    e.backend.key s.executionId = e.backend.key id
  vacates : ∀ st id, inv st → whole st → st.latest e id = none → vacant st id
  opens : ∀ st d id event, inv st → whole st → vacant st id → heir d id → event.isNeutral = true →
    inv (st.append e id event) ∧ whole (st.append e id event) ∧ vacant (st.append e id event) id
  begins : ∀ st d id input version, inv st → whole st → vacant st id → heir d id → takes d id input →
    good .onward .rest
      (st.save e { Engine.initialState d id input with status := .running, version }) d
      { Engine.initialState d id input with status := .running, version }
  loads : ∀ st d id s, inv st → whole st → heir d id → st.latest e id = some s →
    s.status.isTerminal = false → good .onward .rest st d s
  child : ∀ st d s a child, good .onward .rest st d s → d.activity a.id = some a → e.Resolves a child →
    heir child (Engine.childId s a) ∧ takes child (Engine.childId s a) a.inputs
  apart : ∀ st d s id event, good .failing .rest st d s →
    (e.backend.key s.executionId).length < (e.backend.key id).length → inv (st.append e id event) →
    good .failing .rest (st.append e id event) d s
  aside : ∀ st d s t, good .failing .rest st d s →
    (e.backend.key s.executionId).length < (e.backend.key t.executionId).length → inv (st.save e t) →
    good .failing .rest (st.save e t) d s

theorem Definition.nodup_of_checkIds {seen : List String} {as : List ActivityDef}
    (h : Definition.checkIds seen as = .ok ())
    : (as.map (·.id)).Nodup ∧ ∀ a ∈ as, a.id ∉ seen := by
  induction as generalizing seen with
  | nil => exact ⟨nodup_nil, nofun⟩
  | cons b bs ih =>
    unfold Definition.checkIds at h
    split at h
    . cases h
    . split at h
      . cases h
      . split at h
        . cases h
        next hnew =>
          obtain ⟨hnodup, hseen⟩ := ih h
          refine ⟨?_, ?_⟩
          . rw [map_cons, nodup_cons]
            refine ⟨?_, hnodup⟩
            intro hmem
            obtain ⟨a, ha, hid⟩ := mem_map.mp hmem
            exact hseen a ha (hid ▸ mem_cons_self)
          . intro a ha
            cases mem_cons.mp ha with
            | inl heq => exact heq ▸ hnew
            | inr ha => exact fun hmem => hseen a ha (mem_cons_of_mem _ hmem)

theorem Definition.known_of_checkTransitions {ids : List String} {ts : List Transition}
    (h : Definition.checkTransitions ids ts = .ok ()) : ∀ t ∈ ts, t.source ∈ ids ∧ t.target ∈ ids := by
  induction ts with
  | nil => exact nofun
  | cons t ts ih =>
    unfold Definition.checkTransitions at h
    split at h
    . cases h
    next hsource =>
      split at h
      . cases h
      next htarget =>
        intro t' ht'
        cases mem_cons.mp ht' with
        | inl heq => exact heq ▸ ⟨not_not.mp hsource, not_not.mp htarget⟩
        | inr ht' => exact ih h t' ht'

theorem Definition.checks_of_validate {p : Platform} {d : Definition} (h : d.validate p = .ok ())
    : Definition.checkIds [] d.spec.activities = .ok ()
        ∧ Definition.checkForEach p d.spec.activities = .ok ()
        ∧ Definition.checkTransitions (d.spec.activities.map (·.id)) d.spec.transitions = .ok ()
        ∧ d.checkAcyclic = .ok () := by
  have hbind {α : Type} {x : Except Error Unit} {f : Unit → Except Error α} {v : α}
      (h : (x >>= f) = .ok v) : x = .ok () ∧ f () = .ok v := by
    cases x with
    | error err => cases h
    | ok _ => exact ⟨rfl, h⟩
  have hchecks : (show Except Error Unit from do
      Definition.checkIds [] d.spec.activities
      Definition.checkForEach p d.spec.activities
      Definition.checkCompensation (d.spec.activities.map (·.id)) d.spec.activities
      Definition.checkTransitions (d.spec.activities.map (·.id)) d.spec.transitions
      d.checkAcyclic) = .ok () := by
    unfold Definition.validate at h
    cases d.kind <;> dsimp only at h <;> (repeat' split at h) <;> first | exact h | cases h
  obtain ⟨hids, hchecks⟩ := hbind hchecks
  obtain ⟨hforEach, hchecks⟩ := hbind hchecks
  obtain ⟨-, hchecks⟩ := hbind hchecks
  obtain ⟨htransitions, hacyclic⟩ := hbind hchecks
  exact ⟨hids, hforEach, htransitions, hacyclic⟩

theorem Definition.sane_of_validate {p : Platform} {d : Definition} (h : d.validate p = .ok ()) : d.Sane := by
  obtain ⟨hids, -, htransitions, -⟩ := Definition.checks_of_validate h
  refine ⟨(Definition.nodup_of_checkIds hids).1, Definition.plain_of_checkIds hids, ?_⟩
  exact fun t ht => (Definition.known_of_checkTransitions htransitions t ht).1

theorem Definition.activity_of_mem {d : Definition} (hsane : d.Sane) {a : ActivityDef}
    (ha : a ∈ d.spec.activities) : d.activity a.id = some a := by
  obtain ⟨before, after, hsplit⟩ := append_of_mem ha
  have hnodup := hsane.nodup
  unfold Definition.activity
  rw [hsplit] at hnodup ⊢
  rw [map_append, map_cons, nodup_middle] at hnodup
  rw [find?_append, find?_eq_none.mpr, Option.none_or, find?_cons_of_pos (by simp)]
  intro b hb
  have hne : b.id ≠ a.id := by
    intro heq
    apply (nodup_cons.mp hnodup).1
    exact mem_append_left _ (mem_map.mpr ⟨b, hb, heq⟩)
  simpa using hne

theorem Definition.plain_source {d : Definition} (hsane : d.Sane) {id : String} {t : Transition}
    (ht : t ∈ d.inbound id) : '[' ∉ t.source.toList := by
  have hmem := hsane.sources t (mem_of_mem_filter ht)
  obtain ⟨a, ha, hid⟩ := mem_map.mp hmem
  exact hid ▸ hsane.plain a ha

namespace ExecutionState

theorem activity?_setRecord (s : ExecutionState) (id id' : String) (r : ActivityRecord)
    : (s.setRecord id r).activity? id' = if id = id' then some r else s.activity? id' := by
  unfold setRecord activity?
  rw [Map.getElem?_insert]

theorem activity?_setRecord_self (s : ExecutionState) (id : String) (r : ActivityRecord)
    : (s.setRecord id r).activity? id = some r := by
  rw [activity?_setRecord, if_pos rfl]

theorem activity?_setRecord_of_ne (s : ExecutionState) {id id' : String} (r : ActivityRecord)
    (h : id ≠ id') : (s.setRecord id r).activity? id' = s.activity? id' := by
  rw [activity?_setRecord, if_neg h]

theorem setActivity_eq {s : ExecutionState} {id : String} {r : ActivityRecord}
    (h : s.activity? id = some r) (target : ActivityState)
    : s.setActivity id target = s.setRecord id { r with state := target } := by
  unfold setActivity
  rw [h]

theorem activity?_initialState (d : Definition) (id : String) (input : Value) (id' : String)
    : (Engine.initialState d id input).activity? id'
        = if id' ∈ d.spec.activities.map (·.id) then some ({} : ActivityRecord) else none := by
  have hfold (as : List ActivityDef) (records : Std.ExtTreeMap String ActivityRecord)
      : (as.foldl (fun records a => records.insert a.id {}) records)[id']?
          = if id' ∈ as.map (·.id) then some ({} : ActivityRecord) else records[id']? := by
    induction as generalizing records with
    | nil => rfl
    | cons a as ih =>
      rw [foldl_cons, ih, Map.getElem?_insert, map_cons]
      by_cases hmem : id' ∈ as.map (·.id)
      . rw [if_pos hmem, if_pos (mem_cons_of_mem _ hmem)]
      . by_cases hid : a.id = id'
        . rw [if_neg hmem, if_pos hid, if_pos (hid ▸ mem_cons_self)]
        . rw [if_neg hmem, if_neg hid, if_neg]
          intro h
          cases mem_cons.mp h with
          | inl heq => exact hid heq.symm
          | inr h => exact hmem h
  have hinitial := hfold d.spec.activities ∅
  simp only [Std.ExtTreeMap.getElem?_empty] at hinitial
  exact hinitial

theorem activity?_complete (s : ExecutionState) (id id' : String) (r : ActivityRecord) (output : Value)
    : (s.complete id r output).activity? id'
        = if id = id' then some { r with state := .completed, output := some output }
          else s.activity? id' :=
  activity?_setRecord s id id' _

end ExecutionState

section

variable {ω : Type} {e : Engine ω} {d : Definition} {s t : ExecutionState} {l l' : Layer}

theorem Changeable.ne_of_finished {id id' : String} {r record : ActivityRecord} (h : Changeable s id r)
    (hrecord : s.activity? id' = some record) (hfinished : Finished id' record) : id ≠ id' := by
  rintro rfl
  cases h.1.symm.trans hrecord
  cases hfinished with
  | inl hcompleted =>
    cases h.2 with
    | inl hopen =>
      rw [hcompleted] at hopen
      cases hopen
    | inr hitem => exact hitem.1 hcompleted
  | inr hsettled =>
    cases h.2 with
    | inl hopen =>
      rw [hsettled.2] at hopen
      cases hopen
    | inr hitem =>
      obtain ⟨-, id', index, rfl⟩ := hitem
      exact hsettled.1 (instanceId_bracket id' index)

theorem Move.finished (h : Move e d s l l' t) {id : String} {record : ActivityRecord}
    (hrecord : s.activity? id = some record) (hfinished : Finished id record)
    : t.activity? id = some record := by
  cases h with
  | run hchange | settle hchange _ _ | fail _ hchange _ _ | completeItem _ hchange _ =>
    rw [ExecutionState.activity?_setRecord_of_ne s _ (hchange.ne_of_finished hrecord hfinished)]
    exact hrecord
  | complete r hrun _ _ =>
    obtain ⟨record', hrecord', hopen⟩ := hrun.pending
    have hchange : Changeable s _ record' := ⟨hrecord', .inl hopen⟩
    rw [ExecutionState.activity?_complete, if_neg (hchange.ne_of_finished hrecord hfinished)]
    exact hrecord
  | expand id' index hnone =>
    rw [ExecutionState.activity?_setRecord_of_ne s]
    . exact hrecord
    . rintro rfl
      rw [hnone] at hrecord
      cases hrecord

theorem Move.executionId_eq (h : Move e d s l l' t) : t.executionId = s.executionId := by
  cases h <;> rfl

theorem Move.status_eq (h : Move e d s l l' t) : t.status = s.status := by
  cases h <;> rfl

theorem Decided.move {id : String} (hsane : d.Sane) (h : Decided d s id) (hmove : Move e d s l l' t)
    : Decided d t id := by
  intro transition htransition
  obtain ⟨record, hrecord, hsettled⟩ := h transition htransition
  have hfinished : Finished transition.source record :=
    .inr ⟨Definition.plain_source hsane htransition, hsettled⟩
  exact ⟨record, hmove.finished hrecord hfinished, hsettled⟩

theorem Runnable.move {a : ActivityDef} (hsane : d.Sane) (h : Runnable d s a)
    (hmove : Move e d s l l' t)
    (hpending : ∃ record, t.activity? a.id = some record ∧ record.state.isSettled = false)
    : Runnable d t a :=
  ⟨h.declared, h.forward, hpending, h.decided.move hsane hmove⟩

theorem Runnable.other {a : ActivityDef} (hsane : d.Sane) (h : Runnable d s a)
    (hmove : Move e d s l l' t) (hsame : t.activity? a.id = s.activity? a.id) : Runnable d t a := by
  obtain ⟨record, hrecord, hpending⟩ := h.pending
  exact h.move hsane hmove ⟨record, hsame.trans hrecord, hpending⟩

theorem Runnable.again {a : ActivityDef} (hsane : d.Sane) (h : Runnable d s a) {r : ActivityRecord}
    (hmove : Move e d s l l' (s.setRecord a.id r)) (hr : r.state.isSettled = false)
    : Runnable d (s.setRecord a.id r) a :=
  h.move hsane hmove ⟨r, ExecutionState.activity?_setRecord_self s a.id r, hr⟩

end

theorem Runnable.dress {d : Definition} {s : ExecutionState} {a : ActivityDef} (h : Runnable d s a)
    (vars : Variables) (version : Nat) : Runnable d { s with vars, version } a :=
  ⟨h.declared, h.forward, h.pending, h.decided⟩

theorem Runnable.plain {d : Definition} (hsane : d.Sane) {s : ExecutionState} {a : ActivityDef}
    (h : Runnable d s a) : '[' ∉ a.id.toList :=
  hsane.plain a (Definition.activity_mem h.declared)

namespace Course

variable {ω : Type} {e : Engine ω} (K : Course e) {α β : Type}

def watch : Watch (World ω) Store Call Error where
  toDurable := World.durable
  inv := K.inv
  may := K.may
  grows := Store.Grows
  fault := K.fault

def Keeps (P : Store → Prop) (m : Action ω α) (Q : α → Store → Prop) : Prop :=
  K.watch.Keeps P m Q

def At (ph : Phase) (l : Layer) (d : Definition) (s : ExecutionState) (st : Store) : Prop :=
  K.good ph l st d s

def Stepped (d : Definition) (r : ExecutionState × Step) (st : Store) : Prop :=
  K.good .failing .rest st d r.1 ∧ ((∀ msg, r.2 ≠ .failed msg) → K.whole st)

variable {K} {P : Store → Prop} {Q : α → Store → Prop} {R : β → Store → Prop} {ph : Phase}
  {l l' : Layer} {d : Definition} {s : ExecutionState}

theorem at_failing {st : Store} (h : K.At .onward l d s st) : K.At .failing l d s st :=
  ((K.onward l st d s).mp h).1

theorem at_onward {st : Store} (h : K.At .failing l d s st) (hwhole : K.whole st)
    : K.At .onward l d s st :=
  (K.onward l st d s).mpr ⟨h, hwhole⟩

theorem move_failing {t : ExecutionState} {st : Store} (h : K.At .failing l d s st)
    (hmove : Move e d s l l' t) : K.At .failing l' d t st :=
  K.move l l' st d s t h hmove

theorem move_onward {t : ExecutionState} {st : Store} (h : K.At .onward l d s st)
    (hmove : Move e d s l l' t) : K.At .onward l' d t st :=
  at_onward (move_failing (at_failing h) hmove) ((K.onward l st d s).mp h).2

theorem moved_failing {t : ExecutionState} {m : Action ω α} (hmove : Move e d s l l' t)
    (h : K.watch.Keeps (K.At .failing l' d t) m Q) : K.watch.Keeps (K.At .failing l d s) m Q :=
  pre (fun _ _ hst => move_failing hst hmove) h

theorem moved_onward {t : ExecutionState} {m : Action ω α} (hmove : Move e d s l l' t)
    (h : K.watch.Keeps (K.At .onward l' d t) m Q) : K.watch.Keeps (K.At .onward l d s) m Q :=
  pre (fun _ _ hst => move_onward hst hmove) h

theorem persist_keeps {f : World ω → World ω} {g : Store → Store} {Q : Unit → Store → Prop}
    (hwrites : World.durable.Writes f) (hstore : ∀ w, (f w).store = g w.store)
    (h : ∀ st, K.inv st → P st → K.inv (g st) ∧ st.Grows (g st) ∧ Q () (g st))
    : K.Keeps P (Engine.persist f) Q := by
  apply Keeps.pay (W := K.watch) hwrites
  intro w hinv hw
  have hg : K.watch.store (f w) = g (K.watch.store w) := hstore w
  rw [hg]
  exact h _ hinv hw

theorem timers_keeps {f : World ω → World ω} {k : Unit → Action ω β} (hwrites : World.durable.Writes f)
    (hstore : ∀ w, (f w).store = w.store) (hk : K.Keeps P (k ()) R)
    : K.Keeps P (Engine.persist f >>= k) R := by
  apply bind (W := K.watch) (Q := fun _ => P)
  . exact persist_keeps (g := fun st => st) hwrites hstore fun st hinv hst => ⟨hinv, st.grows_refl, hst⟩
  . exact fun _ => hk

theorem append_keeps {Q : Unit → Store → Prop} (id : String) (event : WorkflowEvent)
    (h : ∀ st, K.inv st → P st → K.inv (st.append e id event) ∧ Q () (st.append e id event))
    : K.Keeps P (Engine.persist (·.append e id event)) Q := by
  refine persist_keeps (g := fun st => st.append e id event) ⟨fun _ _ => rfl, fun _ => rfl⟩ (fun _ => rfl) ?_
  intro st hinv hst
  exact ⟨(h st hinv hst).1, st.grows_append id event, (h st hinv hst).2⟩

theorem save_keeps {Q : Unit → Store → Prop}
    (h : ∀ st, K.inv st → P st → K.inv (st.save e s) ∧ Q () (st.save e s))
    : K.Keeps P (e.checkpoint s) Q := by
  refine persist_keeps (g := fun st => st.save e s) ⟨fun _ _ => rfl, fun _ => rfl⟩ (fun _ => rfl) ?_
  intro st hinv hst
  exact ⟨(h st hinv hst).1, st.grows_refl, (h st hinv hst).2⟩

theorem checkpoint_keeps : K.Keeps (K.At ph .rest d s) (e.checkpoint s) (fun _ => K.At ph .rest d s) := by
  apply save_keeps
  intro st _ h
  have hsaved := K.save ph st d s h
  exact ⟨K.safe _ _ _ _ _ hsaved, hsaved⟩

theorem emit_bind (event : WorkflowEvent) (f : ExecutionState → Action ω β)
    : (e.emit s event >>= f)
        =
      (Engine.persist (·.append e s.executionId event)
        >>= fun _ => f { s with version := s.version + 1 }) := by
  unfold Engine.emit
  rw [Prog.bind_assoc]
  rfl

theorem version_keeps {event : WorkflowEvent} {f : ExecutionState → Action ω β} {s : ExecutionState}
    (h : ∀ st, K.At ph l d s st → K.At ph l' d s (st.append e s.executionId event))
    (hf : ∀ version, K.Keeps (K.At ph l' d { s with version }) (f { s with version }) R)
    : K.Keeps (K.At ph l d s) (e.emit s event >>= f) R := by
  rw [emit_bind]
  refine bind (append_keeps s.executionId event ?_) fun _ => hf _
  intro st _ hst
  have happended := h st hst
  exact ⟨K.safe _ _ _ _ _ happended, K.dress _ _ _ _ _ s.vars _ happended fun _ _ => rfl⟩

theorem emit_keeps {event : WorkflowEvent} {f : ExecutionState → Action ω β} {s : ExecutionState}
    (hevent : event.isNeutral = true) (hl : l.isOwing = false)
    (hf : ∀ version, K.Keeps (K.At ph l d { s with version }) (f { s with version }) R)
    : K.Keeps (K.At ph l d s) (e.emit s event >>= f) R :=
  version_keeps (fun st h => K.note ph l st d s event h hevent hl) hf

theorem pay_keeps {event : WorkflowEvent} {f : ExecutionState → Action ω β} {s : ExecutionState}
    (hf : ∀ version, K.Keeps (K.At ph .rest d { s with version }) (f { s with version }) R)
    : K.Keeps (K.At ph (.owing event) d s) (e.emit s event >>= f) R :=
  version_keeps (fun st h => K.pay ph st d s event h) hf

theorem emitAll_keeps {events : List WorkflowEvent} {f : ExecutionState → Action ω β}
    (hevents : ∀ event ∈ events, event.isNeutral = true) (hl : l.isOwing = false)
    (hf : ∀ version, K.Keeps (K.At ph l d { s with version }) (f { s with version }) R)
    : K.Keeps (K.At ph l d s) (e.emitAll s events >>= f) R := by
  induction events generalizing s with
  | nil => exact hf s.version
  | cons event events ih =>
    unfold Engine.emitAll
    rw [Prog.bind_assoc]
    apply emit_keeps (hevents event mem_cons_self) hl
    intro version
    exact ih (fun event' h => hevents event' (mem_cons_of_mem _ h)) hf

theorem recordOf_keeps {id : String} {record : ActivityRecord} {f : ActivityRecord → Action ω β}
    (hrecord : s.activity? id = some record) (hf : K.Keeps P (f record) R)
    : K.Keeps P (Engine.recordOf s id >>= f) R := by
  unfold Engine.recordOf
  rw [hrecord]
  exact hf

theorem gets_keeps (f : World ω → α) (hf : ∀ w n, f { w with writes := n } = f w) {k : α → Action ω β}
    (hk : ∀ w, K.Keeps P (k (f w)) R) : K.Keeps P (Prog.gets f >>= k) R := by
  apply bind (W := K.watch) (Q := fun a st => P st ∧ ∃ w, f w = a)
  . exact gets f hf fun w _ h => ⟨h, w, rfl⟩
  . intro a
    apply given (p := ∃ w, f w = a) fun st _ h => h.2
    rintro ⟨w, rfl⟩
    exact pre (fun st _ h => h.1) (hk w)

theorem latest_keeps {id : String} {k : Option ExecutionState → Action ω β}
    (hk : ∀ found, K.Keeps (fun st => P st ∧ st.latest e id = found) (k found) R)
    : K.Keeps P (e.latest id >>= k) R := by
  apply bind (W := K.watch) (Q := fun found st => P st ∧ st.latest e id = found)
  . exact gets (W := K.watch) _ (fun _ _ => rfl) fun w _ h => ⟨h, rfl⟩
  . exact hk

theorem pick_keeps {n : Nat} {k : Nat → Action ω β} (hk : ∀ i, K.Keeps P (k i) R)
    : K.Keeps P (Engine.pick n >>= k) R := by
  unfold Engine.pick
  rw [Prog.bind_assoc]
  apply gets_keeps _ (fun _ _ => rfl)
  intro w
  rw [Prog.bind_assoc]
  apply bind (W := K.watch) (Q := fun _ => P)
  . apply Keeps.aside (W := K.watch)
    . exact ⟨fun _ _ => rfl, fun _ => rfl⟩
    . exact fun _ => rfl
    . exact fun _ _ h => h
  . intro _
    exact hk _

theorem callExecutor_keeps {executionId : String} {rollback : Bool} {context : ActivityContext}
    {k : List String × Reply → Action ω β}
    (hcall : ∀ st reply, K.inv st → P st → K.may st ⟨executionId, rollback, context, reply⟩)
    (hk : ∀ r, (∀ output, r.2 = .output output → e.Answers output) → K.Keeps P (k r) R)
    : K.Keeps P (e.callExecutor executionId rollback context >>= k) R := by
  unfold Engine.callExecutor
  rw [Prog.bind_assoc]
  apply gets_keeps _ (fun _ _ => rfl)
  intro w
  rw [Prog.bind_assoc]
  apply bind (W := K.watch) (Q := fun _ => P)
  . refine logs (W := K.watch) (Q := fun _ => P)
      (fun w => ⟨executionId, rollback, context, (e.execute w.executor context).reply⟩) ?_ (fun _ => rfl)
      (fun w hinv hw => hcall _ _ hinv hw) fun _ _ h => h
    exact ⟨fun _ _ => rfl, fun _ => rfl⟩
  . intro _
    exact hk _ fun output houtput => ⟨_, context, houtput⟩

theorem fail_keeps (err : Error) (h : ¬Refusal err) : K.Keeps P (Prog.fail err : Action ω α) Q :=
  Keeps.fail (W := K.watch) err fun _ _ _ => K.other err h

theorem pure_keeps (a : α) (h : ∀ st, P st → Q a st) : K.Keeps P (pure a : Action ω α) Q :=
  pure (W := K.watch) a fun st _ hst => h st hst

theorem halt_keeps : K.Keeps P (Prog.halt : Action ω α) Q :=
  halt (W := K.watch)

theorem ofOption_keeps {o : Option α} {f : α → Action ω β} (hf : ∀ a, o = some a → K.Keeps P (f a) R)
    : K.Keeps P (Prog.ofOption o >>= f) R := by
  cases o with
  | none => exact bind (W := K.watch) (Q := fun _ _ => False) halt_keeps fun _ _ _ h => h.elim
  | some a => exact hf a rfl

theorem ofExcept_keeps {x : Except Error α} {f : α → Action ω β}
    (herr : ∀ err, x = .error err → ¬Refusal err) (hf : ∀ a, x = .ok a → K.Keeps P (f a) R)
    : K.Keeps P (Prog.ofExcept x >>= f) R := by
  cases x with
  | error err => exact fail_keeps err (herr err rfl)
  | ok a => exact hf a rfl

theorem bind_keeps {m : Action ω α} {f : α → Action ω β} (hm : K.Keeps P m Q)
    (hf : ∀ a, K.Keeps (Q a) (f a) R) : K.Keeps P (m >>= f) R :=
  bind (W := K.watch) hm hf

theorem pre_keeps {P' : Store → Prop} {m : Action ω α} (hP : ∀ st, P' st → P st) (h : K.Keeps P m Q)
    : K.Keeps P' m Q :=
  pre (W := K.watch) (fun st _ hst => hP st hst) h

theorem post_keeps {Q' : α → Store → Prop} {m : Action ω α} (h : K.Keeps P m Q)
    (hQ : ∀ a st, Q a st → Q' a st) : K.Keeps P m Q' :=
  post (W := K.watch) h fun a st _ hst => hQ a st hst

theorem given_keeps {p : Prop} {m : Action ω α} (hp : ∀ st, P st → p) (h : p → K.Keeps P m Q)
    : K.Keeps P m Q :=
  given (W := K.watch) (fun st _ hst => hp st hst) h

end Course

namespace Calls

variable {ω β : Type} {e : Engine ω} {s : ExecutionState}

theorem persist_logs {f : World ω → World ω} (hf : World.durable.Writes f)
    : World.durable.Logs (Engine.persist f) fun _ new => new = [] :=
  .pay (D := World.durable) hf rfl rfl

theorem emit_logs (event : WorkflowEvent)
    : World.durable.Logs (e.emit s event) fun o new =>
        new = [] ∧ ∀ t, o = .ok t → t = { s with version := s.version + 1 } := by
  unfold Engine.emit
  refine Durable.Logs.bind (persist_logs ⟨fun _ _ => rfl, fun _ => rfl⟩)
    (P := fun _ o new => new = [] ∧ ∀ t, o = .ok t → t = { s with version := s.version + 1 }) ?_ ?_ ?_ ?_
  . exact fun _ => .pure _ ⟨rfl, fun t h => by cases h; rfl⟩
  . rintro _ new o new' rfl h
    exact h
  . exact fun _ _ h => ⟨h, nofun⟩
  . exact fun _ h => ⟨h, nofun⟩

theorem checkpoint_logs
    : World.durable.Logs (e.checkpoint s) fun o new => new = [] ∧ ∀ u, o = .ok u → True := by
  unfold Engine.checkpoint
  refine Durable.Logs.post (persist_logs ⟨fun _ _ => rfl, fun _ => rfl⟩) ?_
  exact fun _ _ h => ⟨h, fun _ _ => trivial⟩

theorem transition_logs (target : WorkflowState) (event : WorkflowEvent)
    : World.durable.Logs (e.transition s target event) fun o new =>
        new = [] ∧ ∀ t, o = .ok t → t = { s with status := target, version := s.version + 1 } := by
  unfold Engine.transition
  split
  . exact emit_logs event
  . exact .fail _ ⟨rfl, nofun⟩

theorem callExecutor_logs (executionId : String) (rollback : Bool) (context : ActivityContext)
    : World.durable.Logs (e.callExecutor executionId rollback context) fun o new =>
        ∃ reaction, o = .ok reaction ∧ new = [⟨executionId, rollback, context, reaction.2⟩] :=
  fun _ => ⟨_, rfl, _, rfl, rfl⟩

theorem emitAll_logs (events : List WorkflowEvent)
    : World.durable.Logs (e.emitAll s events) fun o new =>
        new = [] ∧ ∀ t, o = .ok t → ∃ version, t = { s with version } := by
  induction events generalizing s with
  | nil => exact .pure _ ⟨rfl, fun t h => ⟨s.version, by cases h; rfl⟩⟩
  | cons event events ih =>
    unfold Engine.emitAll
    apply Durable.Logs.after (emit_logs event)
    . rintro t rfl
      exact ih
    . exact fun _ => ⟨rfl, by simp⟩
    . exact ⟨rfl, by simp⟩

theorem pick_logs (n : Nat)
    : World.durable.Logs (Engine.pick n : Action ω Nat) fun o new => new = [] ∧ ∀ k, o = .ok k → True :=
  .silent fun _ => ⟨rfl, rfl, fun _ _ => trivial⟩

theorem recordOf_logs {id : String} {record : ActivityRecord} (h : s.activity? id = some record)
    {f : ActivityRecord → Action ω β} {Q : Outcome Error β → List Call → Prop}
    (hf : World.durable.Logs (f record) Q) : World.durable.Logs (Engine.recordOf s id >>= f) Q := by
  unfold Engine.recordOf
  rw [h]
  exact hf

end Wovyr.Workflow.Calls
