import Wovyr.Server.Workflows
import Wovyr.Workflow.Footprint

/-!
This module contains the tenant that the activities of a submitted execution act for, a variable of
the execution that is stamped into the input.
-/

namespace Wovyr.Server.Workflows

open Workflow Keeping

section

variable {ω : Type} (e : Engine ω) (tenant : String)

def lastField (key : String) : Value → Option Value
  | .object fields => (fields.reverse.find? fun field => field.1 == key).map Prod.snd
  | _ => none

-- An execution of the definition with this input starts with the marker of the tenant.
def Carries (d : Definition) (input : Value) : Prop :=
  (lastField "__tenant" input).or d.spec.vars["__tenant"]? = some (.string tenant)

inductive Uses (d : Definition) : Definition → Prop where
  | self : Uses d d
  | child {d' child : Definition} {a : ActivityDef} {resolver : ω → String → Option Definition}
    {childName : String} {x : ω} (h : Uses d d') (ha : d'.activity a.id = some a)
    (htype : a.activityType = "workflow") (hresolver : e.subworkflows = some resolver)
    (hname : a.name = some childName) (hchild : resolver x childName = some child) : Uses d child

structure Clean (d : Definition) : Prop where
  ids : ∀ d' a, Uses e d d' → d'.activity a.id = some a → a.id ≠ "__tenant"
  carries : ∀ d' a resolver childName x child, Uses e d d' → d'.activity a.id = some a →
    a.activityType = "workflow" → e.subworkflows = some resolver → a.name = some childName →
    resolver x childName = some child → Carries tenant child a.inputs

inductive Operation where
  | resume
  | signal (name : String) (payload : Value)
  | fireTimer (timer : String)
  | cancel
deriving Repr, DecidableEq, Inhabited

structure Turn (ω : Type) where
  process : Process ω
  executionId : String
  definition : Definition
  operation : Operation

def takeTurn (w : World ω) (turn : Turn ω) : World ω :=
  let w := w.boot turn.process
  match turn.operation with
  | .resume => (e.resume turn.process.gas turn.definition turn.executionId w).2
  | .signal name payload =>
    (e.signalEvent turn.process.gas turn.definition turn.executionId name payload w).2
  | .fireTimer timer => (e.fireTimer turn.process.gas turn.definition turn.executionId timer w).2
  | .cancel => (e.cancel turn.executionId w).2

-- The operation is on the execution or below it, and a definition that passes for the one of the
-- execution it is on leaves the marker alone.
def CleanTurn (root : String) (w : World ω) (turn : Turn ω) : Prop :=
  Footprint e root (e.backend.key turn.executionId)
    ∧ ∀ s, w.latest e turn.executionId = some s → Engine.pinned turn.definition s = true →
      Clean e tenant turn.definition

def Stamped (vars : Variables) : Prop :=
  vars["__tenant"]? = some (.string tenant)

end

namespace Stamping

variable {ω : Type} {e : Engine ω} {tenant : String}

theorem getElem?_foldl_insert (fields : List (String × Value)) (vars : Variables) (key : String)
    : (fields.foldl (fun (vars : Variables) (field : String × Value) => vars.insert field.1 field.2) vars)[key]?
        =
      ((fields.reverse.find? fun field => field.1 == key).map Prod.snd).or vars[key]? := by
  induction fields generalizing vars with
  | nil => rfl
  | cons field fields ih =>
    rw [List.foldl_cons, ih, List.reverse_cons, List.find?_append, Map.getElem?_insert]
    cases List.find? (fun field => field.1 == key) fields.reverse with
    | some found => rfl
    | none =>
      by_cases hkey : field.1 = key
      . simp [hkey]
      . simp [hkey]

theorem initialState_tenant (d : Definition) (executionId : String) (input : Value)
    : (Engine.initialState d executionId input).vars["__tenant"]?
        =
      (lastField "__tenant" input).or d.spec.vars["__tenant"]? := by
  have hinput : (d.spec.vars.insert "input" input)["__tenant"]? = d.spec.vars["__tenant"]? :=
    Map.getElem?_insert_of_ne _ _ (by decide)
  unfold Engine.initialState
  dsimp only
  rw [Map.getElem?_insert_of_ne _ _ (by decide)]
  unfold lastField
  cases input with
  | object fields =>
    dsimp only
    rw [← hinput]
    exact getElem?_foldl_insert fields _ "__tenant"
  | _ => exact hinput

theorem lastField_setField (key : String) (value : Value) (fields : List (String × Value))
    : lastField key (.object (setField key value fields)) = some value := by
  unfold lastField setField
  simp

theorem lastField_setField_of_ne {key key' : String} (h : key' ≠ key) (value : Value)
    (fields : List (String × Value))
    : lastField key (.object (setField key' value fields)) = lastField key (.object fields) := by
  have hfind : (fun field : String × Value => decide (field.1 != key' ∧ field.1 == key))
      = fun field => field.1 == key := by
    funext field
    by_cases hfield : field.1 = key
    . simp [hfield, h.symm]
    . simp [hfield]
  unfold lastField setField
  dsimp only
  rw [List.reverse_append, List.reverse_singleton, List.find?_append, ← List.filter_reverse,
    List.find?_filter]
  rw [List.find?_singleton, if_neg (by simpa using h), Option.none_or, hfind]

theorem lastField_stampInput (project : Option String) (fields : List (String × Value))
    : lastField "__tenant" (stampInput tenant project (.object fields)) = some (.string tenant) := by
  unfold stampInput
  rw [if_neg (by simp)]
  cases project with
  | none => exact lastField_setField _ _ _
  | some project =>
    dsimp only
    rw [lastField_setField_of_ne (by decide), lastField_setField]

theorem carries_stampInput {project : Option String} {input : Value} {d : Definition}
    (h : input = .null ∨ (∃ fields, input = .object fields)
      ∨ d.spec.vars["__tenant"]? = some (.string tenant))
    : Carries tenant d (stampInput tenant project input) := by
  unfold Carries
  cases input with
  | null =>
    have hnull : stampInput tenant project .null = stampInput tenant project (.object []) := by
      simp [stampInput]
    rw [hnull, lastField_stampInput, Option.some_or]
  | object fields => rw [lastField_stampInput, Option.some_or]
  | _ =>
    obtain hnull | ⟨fields, hfields⟩ | hvars := h
    . cases hnull
    . cases hfields
    . exact hvars

theorem clean_child {d d' : Definition} {a : ActivityDef} {resolver : ω → String → Option Definition}
    {childName : String} {x : ω} (h : Clean e tenant d) (ha : d.activity a.id = some a)
    (htype : a.activityType = "workflow") (hresolver : e.subworkflows = some resolver)
    (hname : a.name = some childName) (hchild : resolver x childName = some d')
    : Clean e tenant d' := by
  have huses : ∀ d'', Uses e d' d'' → Uses e d d'' := by
    intro d'' h''
    induction h'' with
    | self => exact .child .self ha htype hresolver hname hchild
    | child _ ha htype hresolver hname hchild ih => exact .child ih ha htype hresolver hname hchild
  refine ⟨?_, ?_⟩
  . intro d'' a' h'' ha'
    exact h.ids d'' a' (huses d'' h'') ha'
  . intro d'' a' resolver' childName' x' child h'' ha' htype' hresolver' hname' hchild'
    exact h.carries d'' a' resolver' childName' x' child (huses d'' h'') ha' htype' hresolver' hname' hchild'

theorem timerMarker_ne (id : String) : timerMarker id ≠ "__tenant" := by
  intro h
  have := congrArg (fun s => s.toList.take 4) h
  simp [timerMarker] at this

theorem forEachMarker_ne (id : String) : forEachMarker id ≠ "__tenant" := by
  intro h
  have := congrArg (fun s => s.toList.take 4) h
  simp [forEachMarker] at this

theorem stamped_insert {vars : Variables} (h : Stamped tenant vars) {key : String} (value : Value)
    (hkey : key ≠ "__tenant") : Stamped tenant (vars.insert key value) := by
  unfold Stamped
  rw [Map.getElem?_insert_of_ne _ _ hkey]
  exact h

theorem stamped_erase {vars : Variables} (h : Stamped tenant vars) {key : String}
    (hkey : key ≠ "__tenant") : Stamped tenant (vars.erase key) := by
  unfold Stamped
  rw [Map.getElem?_erase, if_neg hkey]
  exact h

theorem stamped_edit {d : Definition} {w : World ω} {s t : ExecutionState} (hd : Clean e tenant d)
    (h : Stamped tenant s.vars) (hedit : Edit e.platform w d s t) : Stamped tenant t.vars := by
  cases hedit with
  | version => exact h
  | record => exact h
  | «variable» a v ha _ => exact stamped_insert h v (hd.ids d a .self ha)
  | order => exact h
  | mark id v => exact stamped_insert h v (timerMarker_ne id)
  | unmark id => exact stamped_erase h (timerMarker_ne id)
  | expand _ _ _ => exact stamped_insert h _ (forEachMarker_ne _)
  | enlist => exact h
  | collapse id => exact stamped_erase h (forEachMarker_ne id)

theorem stamped_handed {d : Definition} {vars : Variables} {a : ActivityDef} {ctx : ActivityContext}
    (h : Stamped tenant vars) (hctx : Handed e.platform d vars a ctx) : Stamped tenant ctx.vars := by
  cases hctx with
  | declared => exact h
  | @item _ _ _ _ value _ _ _ _ =>
    exact stamped_insert (stamped_insert h value (by decide)) _ (by decide)

def contract (e : Engine ω) (tenant root : String) (old : List Call) : Contract e where
  inv w := w.WellKeyed e
    ∧ (∀ k s, Footprint e root k → w.checkpoints[k]? = some s → Stamped tenant s.vars)
    ∧ ∀ call ∈ w.calls, call ∈ old ∨ Stamped tenant call.context.vars
  le w w' := w.calls ⊆ w'.calls
  refl _ _ h := h
  trans := World.calls_trans
  good _ d s := Footprint e root (e.backend.key s.executionId) ∧ Stamped tenant s.vars ∧ Clean e tenant d
  stable _ _ _ _ _ h := h
  calls _ _ h := h
  edit _ _ _ _ _ h hedit := by
    rw [hedit.executionId_eq]
    exact ⟨h.1, stamped_edit h.2.2 h.2.1 hedit, h.2.2⟩
  tick _ _ _ _ hinv := ⟨hinv, fun _ h => h⟩
  append _ _ _ _ hinv _ := ⟨hinv, fun _ h => h⟩
  save w _ s hinv h := by
    refine ⟨⟨hinv.1.save s, ?_, hinv.2.2⟩, fun _ h => h⟩
    intro k t hk ht
    unfold World.save at ht
    rcases Map.of_insert ht with ⟨-, rfl⟩ | ht
    . exact h.2.1
    . exact hinv.2.1 k t hk ht
  react w d s rollback a ctx hinv h hctx := by
    refine ⟨⟨hinv.1, hinv.2.1, ?_⟩, fun _ h => List.mem_append_left _ h⟩
    apply forall_mem_snoc hinv.2.2
    exact .inr (stamped_handed h.2.1 hctx)

theorem contract_closed (root : String) (old : List Call) : (contract e tenant root old).Closed where
  status _ _ _ _ _ h := h
  skip _ _ _ _ h := h
  child w d s a resolver childName child hinv h ha htype hresolver hname hchild _ := by
    obtain ⟨w', -, hchild⟩ := hchild
    have hroot : Footprint e root (e.backend.key (Engine.childId s a)) :=
      Footprint.childId (by rw [hresolver]; rfl) h.1
    have hclean : Clean e tenant child := clean_child h.2.2 ha htype hresolver hname hchild
    refine ⟨⟨hroot, ?_, hclean⟩, ?_⟩
    . unfold Stamped
      rw [initialState_tenant]
      exact h.2.2.carries d a resolver childName _ child .self ha htype hresolver hname hchild
    . intro t ht
      refine ⟨?_, hinv.2.1 _ t hroot ht, hclean⟩
      rw [hinv.1.latest ht]
      exact hroot

variable {root : String} {old : List Call} {d : Definition} {executionId : String} {w : World ω}

theorem good_latest {t : ExecutionState} (hroot : Footprint e root (e.backend.key executionId))
    (hclean : Clean e tenant d) (hinv : (contract e tenant root old).inv w)
    (ht : w.latest e executionId = some t) : (contract e tenant root old).good w d t := by
  refine ⟨?_, hinv.2.1 _ t hroot ht, hclean⟩
  rw [hinv.1.latest ht]
  exact hroot

theorem eventKey_ne (name : String) : "event." ++ name ≠ "__tenant" := by
  intro h
  have := congrArg (fun s => s.toList.take 1) h
  simp at this

theorem timerKey_ne (timer : String) : "timer." ++ timer ≠ "__tenant" := by
  intro h
  have := congrArg (fun s => s.toList.take 1) h
  simp at this

theorem deliver_inv {d₀ : Definition} {key : String} (payload : Value) (gas : Nat)
    (hkey : key ≠ "__tenant") (hclean₀ : Clean e tenant d₀)
    (hroot : Footprint e root (e.backend.key executionId))
    (hclean : ∀ s, w.latest e executionId = some s → Engine.pinned d s = true → Clean e tenant d)
    (hinv : (contract e tenant root old).inv w)
    : (contract e tenant root old).inv (e.deliver gas d executionId key payload w).2 := by
  have hdeliver := Contract.deliver_keeps (contract_closed root old)
    (P := fun w => ∀ s, w.latest e executionId = some s → Engine.pinned d s = true → Clean e tenant d)
    (fun w t hinv ht => hinv.1.latest ht)
    (fun w t hinv hP ht => by
      have hgood := good_latest hroot hclean₀ hinv ht
      have hset : Stamped tenant (t.setVariable key payload).vars :=
        stamped_insert hgood.2.1 payload hkey
      refine ⟨⟨d₀, hgood.1, hset, hclean₀⟩, ?_⟩
      intro hpinned w' hinv' ht'
      exact ⟨hgood.1, hset, hP t ht hpinned⟩) gas
  exact (hdeliver w hinv hclean).1

theorem takeTurn_inv {d₀ : Definition} {turn : Turn ω} (hclean₀ : Clean e tenant d₀)
    (hclean : CleanTurn e tenant root w turn) (hinv : (contract e tenant root old).inv w)
    : (contract e tenant root old).inv (takeTurn e w turn) := by
  have hboot : (contract e tenant root old).inv (w.boot turn.process) := hinv
  obtain ⟨hroot, hclean⟩ := hclean
  unfold takeTurn
  cases turn.operation with
  | resume =>
    have hresume := Contract.resume_keeps (contract_closed root old)
      (P := fun w => ∀ s, w.latest e turn.executionId = some s →
        Engine.pinned turn.definition s = true → Clean e tenant turn.definition)
      (fun w t hinv hP ht hpinned => good_latest hroot (hP t ht hpinned) hinv ht) turn.process.gas
    exact (hresume _ hboot hclean).1
  | signal name payload =>
    exact deliver_inv payload _ (eventKey_ne name) hclean₀ hroot hclean hboot
  | fireTimer timer => exact deliver_inv _ _ (timerKey_ne timer) hclean₀ hroot hclean hboot
  | cancel =>
    have hcancel := Contract.cancel_keeps (contract_closed root old)
      (P := fun _ => True) (fun w t hinv _ ht => good_latest hroot hclean₀ hinv ht)
    exact (hcancel _ hboot trivial).1

end Stamping

open Stamping

/--
The executor acts for the tenant of the submission in every run of the execution: if the input can
be stamped, no activity has the id of the marker, and the children are given the marker too.
-/
theorem stamped_of_run {ω : Type} (e : Engine ω) (tenant : String) (project : Option String)
    (input : Value) (d : Definition) (executionId : String) (w₀ : World ω) (process₀ : Process ω)
    (hw₀ : w₀.WellKeyed e)
    (hfree : ∀ k s, Footprint e (e.backend.key executionId) k → w₀.checkpoints[k]? = some s →
      Stamped tenant s.vars)
    (hinput : input = .null ∨ (∃ fields, input = .object fields)
      ∨ d.spec.vars["__tenant"]? = some (.string tenant))
    (hclean : Clean e tenant d) (turns : List (Turn ω)) (w : World ω)
    (hrun : Run (Guarded (CleanTurn e tenant (e.backend.key executionId)) (takeTurn e))
      (e.start d executionId (stampInput tenant project input) (w₀.boot process₀)).2 turns w)
    : ∀ call ∈ w.calls, call ∈ w₀.calls
        ∨ (Stamped tenant call.context.vars ∧ agentTenant call.context = tenant) := by
  have hstart : (contract e tenant (e.backend.key executionId) w₀.calls).inv
      (e.start d executionId (stampInput tenant project input) (w₀.boot process₀)).2 := by
    have hclosed : (contract e tenant (e.backend.key executionId) w₀.calls).Closed :=
      contract_closed _ _
    have hkeeps := Contract.start_keeps (d := d) hclosed executionId (stampInput tenant project input)
    refine (hkeeps (w₀.boot process₀) ⟨hw₀, hfree, fun _ h => .inl h⟩ ⟨.inl rfl, ?_, hclean⟩).1
    unfold Stamped
    rw [initialState_tenant]
    exact carries_stampInput hinput
  have hinv := Run.invariant
    (fun w turn _ hinv (hstep : Guarded _ _ w turn _) =>
      hstep.2 ▸ takeTurn_inv hclean hstep.1 hinv) hrun hstart
  intro call hcall
  cases hinv.2.2 call hcall with
  | inl hold => exact .inl hold
  | inr hstamped =>
    refine .inr ⟨hstamped, ?_⟩
    unfold agentTenant
    rw [show call.context.vars["__tenant"]? = some (.string tenant) from hstamped]
    rfl

namespace Stamping

def leaf : Definition where
  metadata := { name := "leaf" }
  spec := { activities := [{ id := "answer", activityType := "agent" }] }

def ticket : Definition where
  metadata := { name := "ticket" }
  spec := {
    activities := [
      { id := "triage", activityType := "agent" },
      { id := "nested", activityType := "workflow", name := some "leaf",
        inputs := .object [("__tenant", .string "acme")] }]
    transitions := [{ source := "triage", target := "nested" }] }

def greeting : Definition where
  metadata := { name := "greeting" }
  spec := {
    vars := (∅ : Variables).insert "__tenant" (.string "globex")
    activities := [{ id := "greet", activityType := "agent" }] }

def helpdesk : Engine Unit where
  platform := .integral
  backend := .file
  execute _ _ := { executor := (), progress := [], reply := .output .null }
  nowMillis _ := 0
  timers := true
  subworkflows := some fun _ name => if name = "leaf" then some leaf else none

def submission (d : Definition) (input : Value) (turns : List (Turn Unit)) : World Unit :=
  turns.foldl (takeTurn helpdesk)
    (helpdesk.start d "run-1" (stampInput "acme" none input)
      (World.boot { executor := (), writes := 0 } ⟨(), 9, 9, []⟩)).2

-- The first process stops inside the child, which is then resumed under its own id.
def shift : List (Turn Unit) :=
  [⟨⟨(), 99, 8, []⟩, "run-1", ticket, .resume⟩, ⟨⟨(), 99, 99, []⟩, "run-1::nested", leaf, .resume⟩,
    ⟨⟨(), 99, 99, []⟩, "run-1", ticket, .resume⟩]

theorem uses_ticket {d : Definition} (h : Uses helpdesk ticket d) : d = ticket ∨ d = leaf := by
  cases h with
  | self => exact .inl rfl
  | child _ _ _ hresolver _ hchild =>
    rw [← Option.some.inj hresolver] at hchild
    dsimp only at hchild
    split at hchild
    . exact .inr (Option.some.inj hchild).symm
    . cases hchild

theorem ids_ticket : ∀ a ∈ ticket.spec.activities ++ leaf.spec.activities, a.id ≠ "__tenant" := by
  decide

theorem inputs_ticket
    : ∀ a ∈ ticket.spec.activities ++ leaf.spec.activities, a.activityType = "workflow" →
        lastField "__tenant" a.inputs = some (.string "acme") := by
  decide

theorem mem_activities {d : Definition} {a : ActivityDef} (huses : Uses helpdesk ticket d)
    (ha : d.activity a.id = some a) : a ∈ ticket.spec.activities ++ leaf.spec.activities := by
  have hmem : a ∈ d.spec.activities := List.mem_of_find?_eq_some ha
  cases uses_ticket huses with
  | inl h => exact List.mem_append_left _ (h ▸ hmem)
  | inr h => exact List.mem_append_right _ (h ▸ hmem)

theorem clean_ticket : Clean helpdesk "acme" ticket where
  ids _ a huses ha := ids_ticket a (mem_activities huses ha)
  carries _ a _ _ _ _ huses ha htype _ _ _ := by
    unfold Carries
    rw [inputs_ticket a (mem_activities huses ha) htype]
    rfl

theorem clean_leaf : Clean helpdesk "acme" leaf := by
  have hnested : ticket.activity "nested" = some ticket.spec.activities[1] := rfl
  have hname : ticket.spec.activities[1].name = some "leaf" := rfl
  exact clean_child (x := ()) clean_ticket hnested rfl rfl hname rfl

theorem clean_shift {turn : Turn Unit} (h : turn ∈ shift) (w : World Unit)
    : CleanTurn helpdesk "acme" (helpdesk.backend.key "run-1") w turn := by
  have hchild : helpdesk.backend.key "run-1::nested"
      = helpdesk.backend.key "run-1" ++ helpdesk.backend.key "::" ++ helpdesk.backend.key "nested" := by
    rw [← Backend.key_append, ← Backend.key_append]
    rfl
  simp only [shift, List.mem_cons, List.not_mem_nil, or_false] at h
  obtain rfl | rfl | rfl := h
  . exact ⟨.inl rfl, fun _ _ _ => clean_ticket⟩
  . exact ⟨.inr ⟨rfl, _, hchild⟩, fun _ _ _ => clean_leaf⟩
  . exact ⟨.inl rfl, fun _ _ _ => clean_ticket⟩

end Stamping

theorem stamped_ticket
    : (submission ticket (.object [("__tenant", .string "globex")]) shift).calls.length = 2
        ∧ ∀ call ∈ (submission ticket (.object [("__tenant", .string "globex")]) shift).calls,
          agentTenant call.context = "acme" := by
  refine ⟨by decide +kernel, ?_⟩
  intro call hcall
  have hstamped := stamped_of_run helpdesk "acme" none
    (.object [("__tenant", .string "globex")]) ticket "run-1"
    { executor := (), writes := 0 } ⟨(), 9, 9, []⟩ (fun _ _ h => absurd h (by simp))
    (fun _ _ _ h => absurd h (by simp)) (.inr (.inl ⟨_, rfl⟩)) clean_ticket shift _
    (Run.of_take fun _ hk => clean_shift (List.getElem_mem hk) _) call hcall
  cases hstamped with
  | inl hold => cases hold
  | inr hacme => exact hacme.2

theorem not_stamped_greeting
    : greeting.validate helpdesk.platform = .ok ()
        ∧ (submission greeting (.string "hello")
            [⟨⟨(), 99, 99, []⟩, "run-1", greeting, .resume⟩]).calls.map
          (fun call => agentTenant call.context) = ["globex"] := by
  refine ⟨by decide, by decide +kernel⟩

end Wovyr.Server.Workflows
