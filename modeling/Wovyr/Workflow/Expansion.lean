import Wovyr.Workflow.Operation

/-!
This module contains what it takes that the items of a fan-out are those its definition asks for.
-/

namespace Wovyr.Workflow

theorem forEachMarker_inj {id id' : String} (h : forEachMarker id = forEachMarker id') : id = id' :=
  (String.append_right_inj _).mp h

theorem forEachMarker_ne_timerMarker (id id' : String) : forEachMarker id ≠ timerMarker id' := by
  intro h
  have hhead := congrArg (fun s => s.toList.take 3) h
  simp [forEachMarker, timerMarker] at hhead

theorem forEachMarker_ne_delivery {operation : Operation} {key : String} {payload : Value}
    (h : operation.delivery = some (key, payload)) (id : String) : key ≠ forEachMarker id := by
  have hmarker : (forEachMarker id).toList.head? = some '_' := by
    simp [forEachMarker]
  rintro rfl
  cases operation with
  | signalEvent name payload' =>
    rw [← (Prod.mk.inj (Option.some.inj h)).1] at hmarker
    simp at hmarker
  | fireTimer timer =>
    rw [← (Prod.mk.inj (Option.some.inj h)).1] at hmarker
    simp at hmarker
  | start input | run input | resume | cancel => cases h

theorem Fans.unique {p : Platform} {d : Definition} {a a' : ActivityDef} {spec spec' : ForEachSpec}
    (h : Fans p d a spec) (h' : Fans p d a' spec') (hid : a.id = a'.id) : a = a' ∧ spec = spec' := by
  have ha := h.declared
  rw [hid, h'.declared] at ha
  cases ha
  have hspec := h.parsed
  rw [h'.parsed] at hspec
  cases hspec
  exact ⟨rfl, rfl⟩

theorem Fans.plain {p : Platform} {d : Definition} (hsane : d.Sane) {a : ActivityDef} {spec : ForEachSpec}
    (h : Fans p d a spec) : '[' ∉ a.id.toList :=
  hsane.plain a (Definition.activity_mem h.declared)

theorem Fans.instanceId_unique {p : Platform} {d : Definition} (hsane : d.Sane) {a a' : ActivityDef}
    {spec spec' : ForEachSpec} {i i' : Nat} (h : Fans p d a spec) (h' : Fans p d a' spec')
    (hid : instanceId a.id i = instanceId a'.id i') : a = a' ∧ spec = spec' ∧ i = i' := by
  obtain ⟨rfl, rfl⟩ := h.unique h' (parent_of_instanceId_eq (h.plain hsane) (h'.plain hsane) hid)
  exact ⟨rfl, rfl, instanceId_inj hid⟩

namespace Expansion

section

variable {ω : Type} (e : Engine ω) (definitions : String → Definition → Prop) (as : List (Act ω))

inductive Begun : String → Definition → Value → Prop where
  | asked {a : Act ω} {input : Value} (ha : a ∈ as) (hinput : a.operation.input = some input)
    : Begun (e.backend.key a.executionId) a.definition input
  | nested {d child : Definition} {s : ExecutionState} {a : ActivityDef}
    (hd : definitions (e.backend.key s.executionId) d) (ha : d.activity a.id = some a)
    (hchild : e.Resolves a child) : Begun (e.backend.key (Engine.childId s a)) child a.inputs

inductive Held (w : World ω) (d : Definition) (k : String) : Variables → Prop where
  | begun {id : String} {input : Value} (h : Begun e definitions as k d input)
    : Held w d k (Engine.initialState d id input).vars
  | output {vars : Variables} {a : ActivityDef} {id : String} {v : Value} (h : Held w d k vars)
    (ha : d.activity a.id = some a) (hid : e.backend.key id = k) (hv : Earned e.platform w d id a.id v)
    : Held w d k (vars.insert a.id v)
  | delivery {vars : Variables} {a : Act ω} {key : String} {payload : Value} (h : Held w d k vars)
    (ha : a ∈ as) (hkey : e.backend.key a.executionId = k) (hdelivery : a.operation.delivery = some (key, payload))
    : Held w d k (vars.insert key payload)
  | mark {vars : Variables} (h : Held w d k vars) (id : String) (v : Value)
    : Held w d k (vars.insert (timerMarker id) v)
  | unmark {vars : Variables} (h : Held w d k vars) (id : String) : Held w d k (vars.erase (timerMarker id))
  | expand {vars : Variables} {a : ActivityDef} {spec : ForEachSpec} {items : List Value}
    (h : Held w d k vars) (ha : Fans e.platform d a spec)
    (hitems : Template.resolve e.platform vars spec.items = .array items)
    (hlength : items.length ≤ spec.maxItems)
    : Held w d k (vars.insert (forEachMarker a.id) (.array items))
  | collapse {vars : Variables} (h : Held w d k vars) (id : String)
    : Held w d k (vars.erase (forEachMarker id))

structure Resolved (w : World ω) (d : Definition) (k : String) (spec : ForEachSpec) (items : List Value)
    : Prop where
  bounded : items.length ≤ spec.maxItems
  resolved : ∃ vars, Held e definitions as w d k vars
    ∧ Template.resolve e.platform vars spec.items = .array items

structure Unforged : Prop where
  begun : ∀ k d input, Begun e definitions as k d input → ∀ a spec, Fans e.platform d a spec →
    ∀ id items, (Engine.initialState d id input).vars[forEachMarker a.id]? ≠ some (.array items)
  ids : ∀ k d, definitions k d → ∀ a spec, Fans e.platform d a spec → ∀ b, d.activity b.id = some b →
    b.id ≠ forEachMarker a.id

structure Sound (w : World ω) (d : Definition) (s : ExecutionState) : Prop where
  held : Held e definitions as w d (e.backend.key s.executionId) s.vars
  bounded : ∀ a spec index, Fans e.platform d a spec →
    (s.activity? (instanceId a.id index)).isSome = true → index < spec.maxItems

def Launched (w : World ω) (call : Call) : Prop :=
  ∃ d, definitions (e.backend.key call.executionId) d ∧ ∀ a spec index, Fans e.platform d a spec →
    call.context.id = instanceId a.id index →
    ∃ items value, Resolved e definitions as w d (e.backend.key call.executionId) spec items
      ∧ items[index]? = some value ∧ call.context.vars["item"]? = some value

end

variable {ω : Type} {e : Engine ω} {definitions : String → Definition → Prop} {as : List (Act ω)}
  {w w' : World ω} {d : Definition} {k : String} {s t : ExecutionState}

theorem Held.mono (hcalls : w.calls ⊆ w'.calls) {vars : Variables} (h : Held e definitions as w d k vars)
    : Held e definitions as w' d k vars := by
  induction h with
  | begun h => exact .begun h
  | output _ ha hid hv ih =>
    refine .output ih ha hid ?_
    cases hv with
    | inl h =>
      obtain ⟨a', hruns, hid', rollback, vars, attempt, hmem⟩ := h
      exact .inl ⟨a', hruns, hid', rollback, vars, attempt, hcalls hmem⟩
    | inr h => exact .inr h
  | delivery _ ha hkey hdelivery ih => exact .delivery ih ha hkey hdelivery
  | mark _ id v ih => exact .mark ih id v
  | unmark _ id ih => exact .unmark ih id
  | expand _ ha hitems hlength ih => exact .expand ih ha hitems hlength
  | collapse _ id ih => exact .collapse ih id

theorem Held.resolved (hunforged : Unforged e definitions as) (hd : definitions k d) {vars : Variables}
    (h : Held e definitions as w d k vars) {a : ActivityDef} {spec : ForEachSpec} {items : List Value}
    (ha : Fans e.platform d a spec) (hitems : vars[forEachMarker a.id]? = some (.array items))
    : Resolved e definitions as w d k spec items := by
  induction h with
  | begun h => exact absurd hitems (hunforged.begun _ _ _ h a spec ha _ _)
  | output _ hb _ _ ih =>
    rw [Map.getElem?_insert_of_ne _ _ (hunforged.ids _ _ hd a spec ha _ hb)] at hitems
    exact ih hitems
  | delivery _ _ _ hdelivery ih =>
    rw [Map.getElem?_insert_of_ne _ _ (forEachMarker_ne_delivery hdelivery a.id)] at hitems
    exact ih hitems
  | mark _ id v ih =>
    rw [Map.getElem?_insert_of_ne _ _ (forEachMarker_ne_timerMarker a.id id).symm] at hitems
    exact ih hitems
  | unmark _ id ih =>
    rw [Map.getElem?_erase, if_neg (forEachMarker_ne_timerMarker a.id id).symm] at hitems
    exact ih hitems
  | expand h ha' hitems' hlength ih =>
    rcases Map.of_insert hitems with ⟨heq, hvalue⟩ | hitems
    . cases hvalue
      obtain ⟨rfl, rfl⟩ := ha'.unique ha (forEachMarker_inj heq)
      exact ⟨hlength, _, h, hitems'⟩
    . exact ih hitems
  | collapse _ id ih =>
    exact ih (Map.of_erase hitems)

theorem Resolved.mono (hcalls : w.calls ⊆ w'.calls) {spec : ForEachSpec} {items : List Value}
    (h : Resolved e definitions as w d k spec items) : Resolved e definitions as w' d k spec items := by
  obtain ⟨hlength, vars, hheld, hitems⟩ := h
  exact ⟨hlength, vars, hheld.mono hcalls, hitems⟩

theorem Sound.mono (hcalls : w.calls ⊆ w'.calls) (h : Sound e definitions as w d s)
    : Sound e definitions as w' d s :=
  ⟨h.held.mono hcalls, h.bounded⟩

theorem Launched.mono (hcalls : w.calls ⊆ w'.calls) {call : Call} (h : Launched e definitions as w call)
    : Launched e definitions as w' call := by
  obtain ⟨d, hd, hcall⟩ := h
  refine ⟨d, hd, ?_⟩
  intro a spec index ha hid
  obtain ⟨items, value, hresolved, hvalue, hitem⟩ := hcall a spec index ha hid
  exact ⟨items, value, hresolved.mono hcalls, hvalue, hitem⟩

theorem Sound.initial (hsane : d.Sane) {id : String} {input : Value}
    (h : Begun e definitions as (e.backend.key id) d input)
    : Sound e definitions as w d (Engine.initialState d id input) := by
  refine ⟨.begun h, ?_⟩
  intro a spec index ha hsome
  rw [activity?_initialState_instance hsane] at hsome
  cases hsome

theorem Sound.setRecord (h : Sound e definitions as w d s) {id : String} (r : ActivityRecord)
    (hid : ∀ a spec index, Fans e.platform d a spec → id = instanceId a.id index → index < spec.maxItems)
    : Sound e definitions as w d (s.setRecord id r) := by
  refine ⟨h.held, ?_⟩
  intro a spec index ha hsome
  rw [ExecutionState.activity?_setRecord] at hsome
  split at hsome
  next heq => exact hid a spec index ha heq
  next => exact h.bounded a spec index ha hsome

theorem Sound.deliver (h : Sound e definitions as w d s) {a : Act ω} (ha : a ∈ as)
    (hkey : e.backend.key a.executionId = e.backend.key s.executionId) {key : String} {payload : Value}
    (hdelivery : a.operation.delivery = some (key, payload))
    : Sound e definitions as w d (s.setVariable key payload) :=
  ⟨.delivery h.held ha hkey hdelivery, h.bounded⟩

theorem Sound.edit (hunforged : Unforged e definitions as) (hsane : d.Sane)
    (hd : definitions (e.backend.key s.executionId) d) (h : Sound e definitions as w d s)
    (hedit : Edit e.platform w d s t) : Sound e definitions as w d t := by
  cases hedit with
  | version | order => exact ⟨h.held, h.bounded⟩
  | record id r hid _ =>
    apply h.setRecord
    rintro a spec index ha rfl
    exact h.bounded a spec index ha hid
  | «variable» a v ha hv => exact ⟨.output h.held ha rfl hv, h.bounded⟩
  | mark id v => exact ⟨.mark h.held id v, h.bounded⟩
  | unmark id => exact ⟨.unmark h.held id, h.bounded⟩
  | expand ha hitems hlength => exact ⟨.expand h.held ha hitems hlength, h.bounded⟩
  | enlist ha hitems hindex =>
    apply h.setRecord
    intro a' spec' index' ha' hid
    obtain ⟨rfl, rfl, rfl⟩ := ha.instanceId_unique hsane ha' hid
    exact Nat.lt_of_lt_of_le hindex (h.held.resolved hunforged hd ha hitems).bounded
  | collapse id => exact ⟨.collapse h.held id, h.bounded⟩

theorem Launched.react (hunforged : Unforged e definitions as) (hsane : d.Sane)
    (hd : definitions (e.backend.key s.executionId) d) (h : Sound e definitions as w d s)
    {a : ActivityDef} {context : ActivityContext} (hctx : Handed e.platform d s.vars a context)
    (rollback : Bool) (reply : Reply)
    : Launched e definitions as w ⟨s.executionId, rollback, context, reply⟩ := by
  refine ⟨d, hd, ?_⟩
  intro a' spec' index' ha' hid
  cases hctx with
  | declared ha attempt =>
    have hplain := hsane.plain a (Definition.activity_mem ha)
    exact absurd hid.symm (instanceId_ne_plain hplain)
  | @item _ _ items _ value ha hitems hvalue attempt =>
    obtain ⟨rfl, rfl, rfl⟩ := ha.instanceId_unique hsane ha' hid
    refine ⟨items, value, h.held.resolved hunforged hd ha hitems, hvalue, ?_⟩
    show (itemVars s.vars value _)["item"]? = some value
    unfold itemVars
    rw [Map.getElem?_insert_of_ne _ _ (by decide), Map.getElem?_insert, if_pos rfl]

structure Inv (e : Engine ω) (definitions : String → Definition → Prop) (as : List (Act ω)) (w : World ω)
    : Prop where
  keyed : w.WellKeyed e
  stored : ∀ k s, w.checkpoints[k]? = some s → ∃ d, d.Sane ∧ definitions k d ∧ Sound e definitions as w d s
  calls : ∀ call ∈ w.calls, Launched e definitions as w call

structure Good (e : Engine ω) (definitions : String → Definition → Prop) (as : List (Act ω)) (w : World ω)
    (d : Definition) (s : ExecutionState) : Prop where
  sane : d.Sane
  defined : definitions (e.backend.key s.executionId) d
  sound : Sound e definitions as w d s

theorem Inv.mono (h : Inv e definitions as w) (hcheckpoints : w'.checkpoints = w.checkpoints)
    (hcalls : w'.calls = w.calls) : Inv e definitions as w' := by
  have hsubset : w.calls ⊆ w'.calls := hcalls ▸ List.Subset.refl _
  refine ⟨?_, ?_, ?_⟩
  . intro k s hs
    exact h.keyed k s (hcheckpoints ▸ hs)
  . intro k s hs
    obtain ⟨d, hsane, hd, hsound⟩ := h.stored k s (hcheckpoints ▸ hs)
    exact ⟨d, hsane, hd, hsound.mono hsubset⟩
  . intro call hcall
    exact (h.calls call (hcalls ▸ hcall)).mono hsubset

theorem Inv.save (h : Inv e definitions as w) (hs : Good e definitions as w d s)
    : Inv e definitions as (w.save e s) := by
  have hcalls : w.calls ⊆ (w.save e s).calls := List.Subset.refl _
  refine ⟨h.keyed.save s, ?_, fun call hcall => (h.calls call hcall).mono hcalls⟩
  intro k t ht
  unfold World.save at ht
  rcases Map.of_insert ht with ⟨hk, rfl⟩ | ht
  . subst hk
    exact ⟨d, hs.sane, hs.defined, hs.sound.mono hcalls⟩
  . obtain ⟨d', hsane, hd, hsound⟩ := h.stored k t ht
    exact ⟨d', hsane, hd, hsound.mono hcalls⟩

theorem Inv.react (hunforged : Unforged e definitions as) (h : Inv e definitions as w)
    (hs : Good e definitions as w d s) {a : ActivityDef} {context : ActivityContext}
    (hctx : Handed e.platform d s.vars a context) (rollback : Bool)
    : Inv e definitions as (w.react e s.executionId rollback context) := by
  have hcalls : w.calls ⊆ (w.react e s.executionId rollback context).calls :=
    List.subset_append_left _ _
  refine ⟨h.keyed, ?_, ?_⟩
  . intro k t ht
    obtain ⟨d', hsane, hd, hsound⟩ := h.stored k t ht
    exact ⟨d', hsane, hd, hsound.mono hcalls⟩
  . apply forall_mem_snoc
    . exact fun call hcall => (h.calls call hcall).mono hcalls
    . exact (Launched.react hunforged hs.sane hs.defined hs.sound hctx rollback _).mono hcalls

theorem Inv.good (hunique : ∀ k d d', definitions k d → definitions k d' → d = d')
    (h : Inv e definitions as w) {id : String} (hd : definitions (e.backend.key id) d)
    (hs : w.latest e id = some s) : Good e definitions as w d s := by
  have hkey : e.backend.key s.executionId = e.backend.key id := h.keyed.latest hs
  obtain ⟨d', hsane, hd', hsound⟩ := h.stored _ s hs
  cases hunique _ d d' hd hd'
  exact ⟨hsane, hkey ▸ hd, hsound⟩

def contract (e : Engine ω) (definitions : String → Definition → Prop) (as : List (Act ω))
    (hunforged : Unforged e definitions as) : Contract e where
  inv := Inv e definitions as
  le w w' := w.calls ⊆ w'.calls
  refl _ _ h := h
  trans := World.calls_trans
  good := Good e definitions as
  stable _ _ _ _ hle h := ⟨h.sane, h.defined, h.sound.mono hle⟩
  calls _ _ h := h
  edit _ _ _ _ _ h hedit :=
    ⟨h.sane, hedit.executionId_eq ▸ h.defined, h.sound.edit hunforged h.sane h.defined hedit⟩
  tick _ _ _ _ hinv := ⟨hinv.mono rfl rfl, fun _ h => h⟩
  append _ _ _ _ hinv _ := ⟨hinv.mono rfl rfl, fun _ h => h⟩
  save _ _ _ hinv h := ⟨hinv.save h, fun _ h => h⟩
  react _ _ _ rollback _ _ hinv h hctx :=
    ⟨hinv.react hunforged h hctx rollback, List.subset_append_left _ _⟩

theorem contract_closed (hfamily : Family e definitions as)
    (hunique : ∀ k d d', definitions k d → definitions k d' → d = d') (hunforged : Unforged e definitions as)
    : (contract e definitions as hunforged).Closed where
  status _ _ _ _ _ h := ⟨h.sane, h.defined, h.sound.held, h.sound.bounded⟩
  skip _ _ s _ h := by
    refine ⟨h.sane, h.defined, h.sound.held, ?_⟩
    intro a spec index ha hsome
    apply h.sound.bounded a spec index ha
    unfold ExecutionState.activity? at hsome ⊢
    rw [Std.ExtTreeMap.getElem?_map, Option.isSome_map] at hsome
    exact hsome
  child _ d s a resolver childName child hinv h ha htype hresolver hname hchild _ := by
    obtain ⟨w', -, hfound⟩ := hchild
    have hchild : e.Resolves a child := ⟨htype, resolver, _, childName, hresolver, hname, hfound⟩
    have hd := hfamily.children d s a child h.defined ha hchild
    have hsane := Definition.sane_of_validate (hfamily.validates.2 a child hchild)
    exact ⟨⟨hsane, hd, .initial hsane (.nested h.defined ha hchild)⟩, fun t ht => Inv.good hunique hinv hd ht⟩

theorem inv_acts (hfamily : Family e definitions as)
    (hunique : ∀ k d d', definitions k d → definitions k d' → d = d') (hunforged : Unforged e definitions as)
    (x : ω) : Inv e definitions as (e.acts x as) := by
  have hact (w : World ω) (hw : Inv e definitions as w) (a : Act ω) (ha : a ∈ as)
      : Inv e definitions as (e.act w a).2 := by
    have hd := hfamily.roots a ha
    have hsane := Definition.sane_of_validate (hfamily.validates.1 a ha)
    refine (Contract.perform_keeps (contract_closed hfamily hunique hunforged) ?_ ?_ ?_ ?_ a.process.gas
      (w.boot a.process) (hw.mono rfl rfl) trivial).1
    . exact fun w input hinput _ => ⟨hsane, hd, .initial hsane (.asked ha hinput)⟩
    . exact fun w t hinv ht => Inv.good hunique hinv hd ht
    . exact fun w t hinv ht => World.WellKeyed.latest hinv.keyed ht
    . intro w t key payload hdelivery hinv ht
      have hgood := Inv.good hunique hinv hd ht
      have hkey : e.backend.key t.executionId = e.backend.key a.executionId :=
        World.WellKeyed.latest hinv.keyed ht
      exact ⟨a.definition, hgood.sane, hgood.defined, hgood.sound.deliver ha hkey.symm hdelivery⟩
  have hrun (bs : List (Act ω)) (hbs : bs ⊆ as) (w : World ω) (hw : Inv e definitions as w)
      : Inv e definitions as (bs.foldl (fun w a => (e.act w a).2) w) := by
    induction bs generalizing w with
    | nil => exact hw
    | cons a bs ih =>
      rw [List.cons_subset] at hbs
      exact ih hbs.2 _ (hact w hw a hbs.1)
  apply hrun as (List.Subset.refl as)
  refine ⟨?_, ?_, List.forall_mem_nil _⟩
  . intro k s hs
    simp at hs
  . intro k s hs
    simp at hs

end Expansion

open Expansion

/--
As long as nothing but the engine puts a collection under a marker: in every checkpoint a fan-out has at
most `max_items` instances, its collection was resolved from variables of the execution, and each item
that was handed to the executor is one of such a collection.
-/
theorem expanded_of_acts {ω : Type} (e : Engine ω) (x : ω) (as : List (Act ω))
    (definitions : String → Definition → Prop) (hfamily : Family e definitions as)
    (hunique : ∀ k d d', definitions k d → definitions k d' → d = d')
    (hunforged : Unforged e definitions as)
    : (∀ k s, (e.acts x as).checkpoints[k]? = some s →
        ∃ d, definitions k d ∧ ∀ a spec, Fans e.platform d a spec →
          (∀ index, (s.activity? (instanceId a.id index)).isSome = true → index < spec.maxItems)
          ∧ ∀ items, s.vars[forEachMarker a.id]? = some (.array items) →
            Resolved e definitions as (e.acts x as) d k spec items)
      ∧ ∀ call ∈ (e.acts x as).calls, ∃ d, definitions (e.backend.key call.executionId) d
        ∧ ∀ a spec index, Fans e.platform d a spec → call.context.id = instanceId a.id index →
          index < spec.maxItems
          ∧ ∃ items value, Resolved e definitions as (e.acts x as) d
              (e.backend.key call.executionId) spec items
            ∧ items[index]? = some value ∧ call.context.vars["item"]? = some value := by
  have hinv := inv_acts hfamily hunique hunforged x
  constructor
  . intro k s hs
    obtain ⟨d, hsane, hd, hsound⟩ := hinv.stored k s hs
    have hkey : e.backend.key s.executionId = k := hinv.keyed k s hs
    refine ⟨d, hd, ?_⟩
    intro a spec ha
    refine ⟨fun index => hsound.bounded a spec index ha, ?_⟩
    intro items hitems
    rw [← hkey] at hd ⊢
    exact hsound.held.resolved hunforged hd ha hitems
  . intro call hcall
    obtain ⟨d, hd, hlaunched⟩ := hinv.calls call hcall
    refine ⟨d, hd, ?_⟩
    intro a spec index ha hid
    obtain ⟨items, value, hresolved, hvalue, hitem⟩ := hlaunched a spec index ha hid
    have hindex := (List.getElem?_eq_some_iff.mp hvalue).1
    exact ⟨Nat.lt_of_lt_of_le hindex hresolved.bounded, items, value, hresolved, hvalue, hitem⟩

namespace Expansion

def inputs : Value :=
  .object [("items", .string "$\x7borders\x7d"), ("activity", .object [("type", .string "function")]),
    ("max_concurrent", .int 1), ("max_items", .int 1), ("max_total_tokens", .int 1)]

def decoded : ForEachInputs where
  items := .string "$\x7borders\x7d"
  activity := { activityType := "function" }
  maxConcurrent := some 1
  maxItems := some 1
  maxTotalTokens := some 1

def reported : Value :=
  .object [("__usage", .object [("total_tokens", .int 5)])]

def engine : Engine Unit where
  platform := .reading inputs decoded
  backend := .memory
  execute _ _ := { executor := (), progress := [], reply := .output reported }
  nowMillis _ := 0
  timers := false
  subworkflows := none

def shipping : Definition where
  metadata := { name := "shipping" }
  spec := { activities := [{ id := "ship", activityType := "for_each", inputs := inputs }] }

def ordered (fields : List (String × Value)) : Act Unit :=
  ⟨shipping, "exec-1", .run (.object fields), ⟨(), 9, 99, []⟩⟩

def forged : Act Unit :=
  ordered [("orders", .array [.int 7]), ("__for_each.ship", .array [.int 1, .int 2])]

theorem fans_shipping {a : ActivityDef} {spec : ForEachSpec} (h : Fans engine.platform shipping a spec)
    : a.id = "ship" := by
  have hmem := Definition.activity_mem h.declared
  rw [List.mem_singleton.mp hmem]

theorem unforged_ordered
    : Unforged engine (fun _ d => d = shipping) [ordered [("orders", .array [.int 7])]] := by
  constructor
  . intro k d input hbegun a spec ha id items
    cases hbegun with
    | asked hact hinput =>
      cases List.mem_singleton.mp hact
      cases hinput
      rw [fans_shipping ha]
      simp [Engine.initialState, ordered, shipping, forEachMarker]
    | nested _ _ hchild =>
      obtain ⟨-, resolver, x, name, hresolver, -⟩ := hchild
      cases hresolver
  . rintro k d rfl a spec ha b hb
    have hmem := Definition.activity_mem hb
    rw [fans_shipping ha, List.mem_singleton.mp hmem]
    decide

end Expansion

theorem expanded_of_acts_ordered
    : (engine.acts () [ordered [("orders", .array [.int 7])]]).calls.length = 1
      ∧ ∀ call ∈ (engine.acts () [ordered [("orders", .array [.int 7])]]).calls,
        ∃ d, d = shipping ∧ ∀ a spec index, Fans engine.platform d a spec →
          call.context.id = instanceId a.id index → index < spec.maxItems := by
  have hruns : shipping.validate engine.platform = .ok ()
      ∧ (engine.acts () [ordered [("orders", .array [.int 7])]]).calls.length = 1 := by
    decide +kernel
  refine ⟨hruns.2, ?_⟩
  intro call hcall
  obtain ⟨d, hd, hlaunched⟩ := (expanded_of_acts engine ()
    [ordered [("orders", .array [.int 7])]] (fun _ d => d = shipping)
    (.alone rfl hruns.1 fun a ha => by rw [List.mem_singleton.mp ha]; rfl)
    (fun _ _ _ h h' => h.trans h'.symm) unforged_ordered).2 call hcall
  exact ⟨d, hd, fun a spec index ha hid => (hlaunched a spec index ha hid).1⟩

theorem expanded_by_input
    : shipping.validate engine.platform = .ok ()
      ∧ (shipping.spec.activities.map (ForEachSpec.parse engine.platform)).map
          (Except.map ForEachSpec.maxItems) = [.ok 1]
      ∧ ((engine.acts () [forged]).latest engine "exec-1").map
          (fun s => (s.vars["orders"]?, s.activities.keys))
        = some (some (.array [.int 7]), ["ship", "ship[0]", "ship[1]"])
      ∧ (engine.acts () [forged]).calls.map
          (fun call => (call.context.id, call.context.vars["item"]?))
        = [("ship[0]", some (.int 1))] := by
  decide +kernel

end Wovyr.Workflow
