import Wovyr.Workflow.WriteAhead

/-!
This module contains what it takes that an activity that waits completes only when what it waits for has
been delivered.
-/

namespace Wovyr.Workflow

open ExecutionState

structure Waits (d : Definition) (a : ActivityDef) (spec : WaitSpec) : Prop where
  declared : a ∈ d.spec.activities
  type : a.activityType = "wait"
  inputs : WaitSpec.fromInputs a.id a.inputs = .ok spec

structure Definition.Unshadowed (d : Definition) : Prop where
  vars : ∀ a spec, Waits d a spec → d.spec.vars[spec.variableKey]? = none
  activities : ∀ a spec, Waits d a spec → ∀ b ∈ d.spec.activities, b.id = spec.variableKey →
    ∃ spec', Waits d b spec' ∧ spec'.variableKey = spec.variableKey
  handlers : ∀ a spec, Waits d a spec →
    a.id ∉ d.compensationTargets ∧ spec.variableKey ∉ d.compensationTargets

-- An input that sets no variable which is waited for.
def Clear (d : Definition) (input : Value) : Prop :=
  ∀ a spec, Waits d a spec → ∀ fields, input = .object fields →
    ∀ x ∈ fields, x.1 ≠ spec.variableKey

-- What is asked for that delivers a payload to those who wait.
def WaitSpec.Delivers (payload : Value) : WaitSpec → Operation → Prop
  | .event name, operation => operation = .signalEvent name payload
  | .timer id _, operation => operation = .fireTimer id ∧ payload = .bool true

theorem WaitSpec.delivers_of_delivery {spec : WaitSpec} {operation : Operation} {payload : Value}
    (h : operation.delivery = some (spec.variableKey, payload)) : spec.Delivers payload operation := by
  have hhead (x y : String) : "event." ++ x ≠ "timer." ++ y := by
    intro heq
    have hlist := congrArg (List.head? ∘ String.toList) heq
    simp only [Function.comp_apply, String.toList_append] at hlist
    rw [List.head?_append_of_ne_nil _ (by decide), List.head?_append_of_ne_nil _ (by decide)] at hlist
    revert hlist
    decide
  cases operation with
  | signalEvent name payload' =>
    cases spec with
    | event name' =>
      obtain ⟨hkey, rfl⟩ := Prod.mk.inj (Option.some.inj h)
      rw [WaitSpec.variableKey, String.append_right_inj] at hkey
      rw [hkey]
      rfl
    | timer id deadline => exact absurd (Prod.mk.inj (Option.some.inj h)).1 (hhead _ _)
  | fireTimer timer =>
    cases spec with
    | event name' => exact absurd (Prod.mk.inj (Option.some.inj h)).1.symm (hhead _ _)
    | timer id deadline =>
      obtain ⟨hkey, rfl⟩ := Prod.mk.inj (Option.some.inj h)
      rw [WaitSpec.variableKey, String.append_right_inj] at hkey
      rw [hkey]
      exact ⟨rfl, rfl⟩
  | _ => cases h

theorem WaitSpec.variableKey_head (spec : WaitSpec)
    : spec.variableKey.toList.head? = some 'e' ∨ spec.variableKey.toList.head? = some 't' := by
  cases spec with
  | event name =>
    left
    rw [variableKey, String.toList_append, List.head?_append_of_ne_nil _ (by decide)]
    decide
  | timer id deadline =>
    right
    rw [variableKey, String.toList_append, List.head?_append_of_ne_nil _ (by decide)]
    decide

namespace Delivery

variable {ω : Type} {e : Engine ω} {d : Definition} {s t : ExecutionState} {l l' : Layer}
  {delivered : String → String → Value → Prop}

structure Sound (e : Engine ω) (delivered : String → String → Value → Prop) (d : Definition)
    (s : ExecutionState) : Prop where
  vars : ∀ a spec, Waits d a spec → ∀ payload, s.vars[spec.variableKey]? = some payload →
    delivered (e.backend.key s.executionId) spec.variableKey payload
  completed : ∀ a spec, Waits d a spec → ∀ record, s.activity? a.id = some record →
    record.state = .completed →
    ∃ payload, record.output = some payload
      ∧ delivered (e.backend.key s.executionId) spec.variableKey payload

theorem Sound.setRecord (h : Sound e delivered d s) {id : String} {r : ActivityRecord}
    (hr : ∀ a spec, Waits d a spec → a.id = id → r.state ≠ .completed)
    : Sound e delivered d (s.setRecord id r) := by
  refine ⟨h.vars, ?_⟩
  intro a spec hwaits record hrecord hstate
  rw [activity?_setRecord] at hrecord
  split at hrecord
  next heq =>
    cases hrecord
    exact absurd hstate (hr a spec hwaits heq.symm)
  next => exact h.completed a spec hwaits record hrecord hstate

theorem Sound.complete (hsane : d.Sane) (hplain : d.Unshadowed) (h : Sound e delivered d s) {a : ActivityDef}
    (hrun : Runnable d s a) {output : Value} (hsource : Source e s a output) (r : ActivityRecord)
    : Sound e delivered d (s.complete a.id r output) := by
  have hdeclared := Definition.activity_mem hrun.declared
  -- Whoever waits has the payload of a delivery for an output.
  have houtput (spec : WaitSpec) (hwaits : Waits d a spec)
      : delivered (e.backend.key s.executionId) spec.variableKey output := by
    cases hsource with
    | delivered htype hspec hvar =>
      cases hspec.symm.trans hwaits.inputs
      exact h.vars a _ hwaits output hvar
    | answered htype _ => exact absurd hwaits.type htype
    | sized htype _ => exact absurd hwaits.type htype
    | nested htype _ _ => exact absurd (hwaits.type.symm.trans htype) (by decide)
  refine ⟨?_, ?_⟩
  . intro b spec hwaits payload hpayload
    unfold ExecutionState.complete setVariable at hpayload
    dsimp only at hpayload
    rcases Map.of_insert hpayload with ⟨heq, rfl⟩ | hpayload
    . obtain ⟨spec', hwaits', hkey⟩ := hplain.activities b spec hwaits a hdeclared heq
      rw [← hkey]
      exact houtput spec' hwaits'
    . exact h.vars b spec hwaits payload hpayload
  . intro b spec hwaits record hrecord hstate
    rw [activity?_complete] at hrecord
    split at hrecord
    next heq =>
      cases hrecord
      have hb := Definition.activity_of_mem hsane hwaits.declared
      rw [← heq, hrun.declared] at hb
      cases hb
      exact ⟨output, rfl, houtput spec hwaits⟩
    next => exact h.completed b spec hwaits record hrecord hstate

theorem Sound.move (hsane : d.Sane) (hplain : d.Unshadowed) (h : Sound e delivered d s)
    (hmove : Move e d s l l' t) : Sound e delivered d t := by
  have hitem (a : ActivityDef) (spec : WaitSpec) (hwaits : Waits d a spec) (id : String) (index : Nat)
      : a.id ≠ instanceId id index :=
    (instanceId_ne_plain (hsane.plain a hwaits.declared)).symm
  cases hmove with
  | run hchange => exact h.setRecord fun _ _ _ _ => nofun
  | @settle _ id r r' hchange hl hr' =>
    apply h.setRecord
    intro a spec hwaits heq hcompleted
    rw [hcompleted] at hr'
    cases hr'
  | fail msg hchange hl hr' =>
    apply h.setRecord
    intro a spec hwaits heq hcompleted
    rw [hcompleted] at hr'
    cases hr'
  | complete r hrun hl hsource => exact h.complete hsane hplain hrun hsource r
  | completeItem attempts hchange hanswer =>
    exact h.setRecord fun a spec hwaits heq => absurd heq (hitem a spec hwaits _ _)
  | expand id index hnone => exact h.setRecord fun _ _ _ _ => nofun

theorem Sound.undo (hplain : d.Unshadowed) (h : Sound e delivered d s) {id : String}
    (hid : id ∈ d.compensationTargets) (r : ActivityRecord) (output : Value)
    : Sound e delivered d ((s.setRecord id r).setVariable id output) := by
  have hset : Sound e delivered d (s.setRecord id r) := by
    apply h.setRecord
    intro a spec hwaits heq
    exact absurd (heq ▸ hid) (hplain.handlers a spec hwaits).1
  refine ⟨?_, hset.completed⟩
  intro a spec hwaits payload hpayload
  unfold setVariable at hpayload
  dsimp only at hpayload
  rw [Map.getElem?_insert] at hpayload
  split at hpayload
  next heq => exact absurd (heq ▸ hid) (hplain.handlers a spec hwaits).2
  next => exact hset.vars a spec hwaits payload hpayload

theorem Sound.dress (h : Sound e delivered d s) {vars : Variables} (hvars : Dressed s.vars vars)
    (version : Nat) : Sound e delivered d { s with vars, version } := by
  refine ⟨?_, h.completed⟩
  intro a spec hwaits payload hpayload
  apply h.vars a spec hwaits
  rw [← hvars spec.variableKey]
  . exact hpayload
  . cases spec.variableKey_head with
    | inl hhead => rw [hhead]; decide
    | inr hhead => rw [hhead]; decide

theorem Sound.initial (hplain : d.Unshadowed) {input : Value} (hinput : Clear d input) (id : String)
    (version : Nat)
    : Sound e delivered d { Engine.initialState d id input with status := .running, version } := by
  have hfields (fields : List (String × Value)) (vars : Variables) (key : String)
      (insert : Variables → String × Value → Variables) (hinsert : ∀ vars x, insert vars x = vars.insert x.1 x.2)
      (hkey : ∀ x ∈ fields, x.1 ≠ key) : (fields.foldl insert vars)[key]? = vars[key]? := by
    induction fields generalizing vars with
    | nil => rfl
    | cons x fields ih =>
      rw [List.foldl_cons, ih _ fun y hy => hkey y (List.mem_cons_of_mem _ hy), hinsert,
        Map.getElem?_insert, if_neg (hkey x List.mem_cons_self)]
  refine ⟨?_, ?_⟩
  . intro a spec hwaits payload hpayload
    have hown (key : String) (hkey : key.toList.head? = some '_' ∨ key.toList.head? = some 'i')
        : key ≠ spec.variableKey := by
      rintro rfl
      cases spec.variableKey_head with
      | inl hhead =>
        rw [hhead] at hkey
        revert hkey
        decide
      | inr hhead =>
        rw [hhead] at hkey
        revert hkey
        decide
    unfold Engine.initialState at hpayload
    dsimp only at hpayload
    rw [Map.getElem?_insert, if_neg (hown _ (.inl (by decide)))] at hpayload
    have hbase : (d.spec.vars.insert "input" input)[spec.variableKey]? = none := by
      rw [Map.getElem?_insert, if_neg (hown _ (.inr (by decide)))]
      exact hplain.vars a spec hwaits
    split at hpayload
    next fields =>
      rw [hfields fields _ _ _ (fun _ _ => rfl) (hinput a spec hwaits fields rfl), hbase] at hpayload
      cases hpayload
    next =>
      rw [hbase] at hpayload
      cases hpayload
  . intro a spec hwaits record hrecord hstate
    rw [Resumable.created_of_initial d id input a.id record hrecord] at hstate
    cases hstate

theorem Sound.cancel (h : Sound e delivered d s) (version : Nat)
    : Sound e delivered d { s.cancelled with version } := by
  refine ⟨h.vars, ?_⟩
  intro a spec hwaits record hrecord hstate
  unfold activity? cancelled closed at hrecord
  dsimp only at hrecord
  rw [Std.ExtTreeMap.getElem?_map] at hrecord
  obtain ⟨record', hrecord', rfl⟩ := Option.map_eq_some_iff.mp hrecord
  have hsame : Engine.skipOpen record' = record' := Justified.skipOpen_open (by simp [hstate])
  rw [hsame] at hstate ⊢
  exact h.completed a spec hwaits record' hrecord' hstate

theorem Sound.deliver (h : Sound e delivered d s) {key : String} {payload : Value}
    (hdelivered : delivered (e.backend.key s.executionId) key payload)
    : Sound e delivered d (s.setVariable key payload) := by
  refine ⟨?_, h.completed⟩
  intro a spec hwaits payload' hpayload
  unfold setVariable at hpayload
  dsimp only at hpayload
  rcases Map.of_insert hpayload with ⟨heq, rfl⟩ | hpayload
  . rw [← heq]
    exact hdelivered
  . exact h.vars a spec hwaits payload' hpayload

section

variable {definitions : String → Definition → Prop} {as : List (Act ω)}

structure Honest (e : Engine ω) (definitions : String → Definition → Prop) (as : List (Act ω)) : Prop where
  plain : ∀ k d, definitions k d → d.Unshadowed
  inputs : ∀ a ∈ as, ∀ input, a.operation.input = some input → Clear a.definition input
  children : ∀ k d a child, definitions k d → d.activity a.id = some a → e.Resolves a child →
    Clear child a.inputs

def account (hfamily : Family e definitions as)
    (hunique : ∀ k d d', definitions k d → definitions k d' → d = d') (hhonest : Honest e definitions as)
    (delivered : String → String → Value → Prop) : Account e where
  heir d k := definitions k d
  takes := Clear
  stored _ s := ∃ d, definitions (e.backend.key s.executionId) d ∧ Sound e delivered d s
  live _ _ _ d s := Sound e delivered d s ∧ d.Unshadowed
  may _ _ := True
  child d s a child hd _ ha hchild :=
    ⟨hfamily.children d s a child hd ha hchild,
      Definition.sane_of_validate (hfamily.validates.2 a child hchild),
      hhonest.children _ d a child hd ha hchild⟩
  begins _ d id input version hd _ hinput :=
    ⟨.initial (hhonest.plain _ d hd) hinput id version, hhonest.plain _ d hd⟩
  loads _ d s hd _ hs _ := by
    obtain ⟨d', hd', hsound⟩ := hs
    rw [hunique _ d d' hd hd']
    exact ⟨hsound, hhonest.plain _ d' hd'⟩
  stores _ _ d _ hd h := ⟨⟨d, hd, h.1⟩, h⟩
  dress _ _ _ _ _ _ version h hvars := ⟨h.1.dress hvars version, h.2⟩
  move _ _ _ _ _ _ _ _ hsane _ h hmove := ⟨h.1.move hsane h.2 hmove, h.2⟩
  note _ _ _ _ _ _ h _ _ := h
  pay _ _ _ _ _ h := h
  grows _ _ _ h _ := h
  paid _ _ _ _ _ _ _ hq := hq
  turn _ _ _ _ _ _ h _ := ⟨⟨h.1.vars, h.1.completed⟩, h.2⟩
  undo _ _ _ _ _ _ _ _ output h _ _ hid _ _ := ⟨h.1.undo h.2 hid _ output, h.2⟩
  calls _ _ _ _ _ _ _ _ _ := trivial

def Delivered (e : Engine ω) (as : List (Act ω)) (k key : String) (payload : Value) : Prop :=
  ∃ a ∈ as, e.backend.key a.executionId = k ∧ a.operation.delivery = some (key, payload)

theorem fits (hfamily : Family e definitions as)
    (hunique : ∀ k d d', definitions k d → definitions k d' → d = d') (hhonest : Honest e definitions as)
    {a : Act ω} (ha : a ∈ as) : (account hfamily hunique hhonest (Delivered e as)).Fits a where
  sane := Definition.sane_of_validate (hfamily.validates.1 a ha)
  heir := hfamily.roots a ha
  input input hinput := hhonest.inputs a ha input hinput
  delivery _ _ hdelivery _ _ hkey h := by
    obtain ⟨d, hd, hsound⟩ := h
    exact ⟨d, hd, hsound.deliver ⟨a, ha, hkey.symm, hdelivery⟩⟩
  cancel _ _ _ version h _ := by
    obtain ⟨d, hd, hsound⟩ := h
    exact ⟨d, hd, hsound.cancel version⟩

end

end Delivery

open Delivery

/--
As long as nothing else has the name of what is waited for: in the checkpoints a wait has completed
only with the payload of a signal of its event, or of its timer, that was sent to the execution.
-/
theorem delivered_of_acts {ω : Type} (e : Engine ω) (x : ω) (as : List (Act ω))
    (definitions : String → Definition → Prop) (hfamily : Family e definitions as)
    (hunique : ∀ k d d', definitions k d → definitions k d' → d = d')
    (hhonest : Honest e definitions as)
    : ∀ k s, (e.acts x as).checkpoints[k]? = some s →
        ∃ d, definitions k d ∧ ∀ a spec, Waits d a spec → ∀ record, s.activity? a.id = some record →
          record.state = .completed → ∃ payload, record.output = some payload
            ∧ ∃ act ∈ as, e.backend.key act.executionId = k ∧ spec.Delivers payload act.operation := by
  intro k s hs
  obtain ⟨rfl, d, hd, hsound⟩ :=
    Account.stored_acts (A := account hfamily hunique hhonest (Delivered e as)) x
      (fun a ha => fits hfamily hunique hhonest ha) k s hs
  refine ⟨d, hd, ?_⟩
  intro a spec hwaits record hrecord hstate
  obtain ⟨payload, hpayload, act, hact, hkey, hdelivery⟩ :=
    hsound.completed a spec hwaits record hrecord hstate
  exact ⟨payload, hpayload, act, hact, hkey, WaitSpec.delivers_of_delivery hdelivery⟩

namespace Delivery

def article : Definition where
  metadata := { name := "article" }
  spec := {
    activities := [
      { id := "approval", activityType := "wait", inputs := .object [("event", .string "approve")] },
      { id := "publish", activityType := "function" }]
    transitions := [{ source := "approval", target := "publish" }] }

def edited (operation : Operation) : Act Unit :=
  { Saga.act operation 99 with definition := article }

theorem waits_article {a : ActivityDef} {spec : WaitSpec} (h : Waits article a spec)
    : a.id = "approval" ∧ spec = .event "approve" := by
  have hmem := h.declared
  have htype := h.type
  have hspec := h.inputs
  simp only [article, List.mem_cons, List.not_mem_nil, or_false] at hmem
  rcases hmem with rfl | rfl
  . refine ⟨rfl, ?_⟩
    cases hspec
    rfl
  . simp at htype

theorem unshadowed_article : article.Unshadowed := by
  refine ⟨?_, ?_, ?_⟩
  . intro a spec _
    simp [article]
  . intro a spec h b hb hid
    rw [(waits_article h).2] at hid
    simp only [article, List.mem_cons, List.not_mem_nil, or_false] at hb
    rcases hb with rfl | rfl
    . simp [WaitSpec.variableKey] at hid
    . simp [WaitSpec.variableKey] at hid
  . intro a spec _
    have hnone : article.compensationTargets = [] := by decide
    simp [hnone]

end Delivery

theorem delivered_of_acts_article
    : ((Saga.carrier.acts () [edited (.run .null), edited (.signalEvent "approve" .null)]).latest
          Saga.carrier "order-1").isSome
        ∧ ∀ (k : String) (s : ExecutionState), (Saga.carrier.acts () [edited (.run .null),
          edited (.signalEvent "approve" .null)]).checkpoints[k]? = some s →
        ∃ d, d = article ∧ ∀ a spec, Waits d a spec → ∀ record, s.activity? a.id = some record →
          record.state = .completed → ∃ payload, record.output = some payload
            ∧ ∃ act ∈ [edited (.run .null), edited (.signalEvent "approve" .null)],
              Saga.carrier.backend.key act.executionId = k ∧ spec.Delivers payload act.operation := by
  have hvalid : article.validate Saga.carrier.platform = .ok () := by decide
  refine ⟨by decide +kernel, ?_⟩
  refine delivered_of_acts Saga.carrier () _ (fun _ d => d = article) (.alone rfl hvalid ?_)
    (fun _ _ _ h h' => h.trans h'.symm) ⟨?_, ?_, ?_⟩
  . simp [edited]
  . rintro k d rfl
    exact unshadowed_article
  . intro a ha input hinput b spec _ fields hfields
    simp only [List.mem_cons, List.not_mem_nil, or_false] at ha
    rcases ha with rfl | rfl
    . cases hinput
      cases hfields
    . cases hinput
  . rintro k d a child - - ⟨-, resolver, x, name, hresolver, -⟩
    cases hresolver

theorem completed_by_input
    : article.validate Saga.carrier.platform = .ok ()
        ∧ (∃ a ∈ article.spec.activities, Waits article a (.event "approve")
          ∧ ((Saga.carrier.acts () [edited (.run (.object [("event.approve", .bool true)]))]).latest
              Saga.carrier "order-1").map (fun s => (s.activity? a.id).map fun r => (r.state, r.output))
            = some (some (.completed, some (.bool true))))
        ∧ ∀ act ∈ [edited (.run (.object [("event.approve", .bool true)]))],
          act.operation.delivery = none := by
  refine ⟨by decide +kernel, ⟨_, List.mem_cons_self, ⟨List.mem_cons_self, rfl, rfl⟩, by decide +kernel⟩, ?_⟩
  simp [edited, Saga.act, Operation.delivery]

end Wovyr.Workflow
