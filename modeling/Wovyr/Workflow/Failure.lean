import Wovyr.Workflow.Recovery

/-!
This module contains what is done for an execution once it has failed.
-/

namespace Wovyr.Workflow

open Course

def WorkflowEvent.isFailure : WorkflowEvent → Bool
  | .workflowFailed _ => true
  | _ => false

-- What has not come to an end is running and has not failed.
def Store.Undamaged (st : Store) : Prop :=
  ∀ (k : String) (t : ExecutionState), st.checkpoints[k]? = some t → t.status.isTerminal = false →
    t.status = .running ∧ ∀ event ∈ st.events[k]?.getD [], event.isFailure = false

namespace Operation

def isRecall : Operation → Bool
  | .resume | .signalEvent .. | .fireTimer _ => true
  | _ => false

end Operation

-- An execution that has come to an end is resumed, or nothing that has not is damaged.
def Act.Safe {ω : Type} (e : Engine ω) (w : World ω) (a : Act ω) : Prop :=
  (∃ t, w.store.latest e a.executionId = some t ∧ t.status.isTerminal = true) ∨ w.store.Undamaged

-- An execution is started or run, and from then on resumed.
def Lifetime {ω : Type} (id : String) : List (Act ω) → Prop
  | [] => True
  | first :: rest => first.executionId = id ∧ first.operation.input ≠ none
      ∧ ∀ a ∈ rest, a.executionId = id ∧ a.operation.isRecall = true

namespace Failure

variable {ω : Type} {e : Engine ω}

structure Kept (e : Engine ω) (st : Store) : Prop where
  keyed : st.WellKeyed e
  failed : ∀ k : String, st.checkpoints[k]? = none → ∀ event ∈ st.events[k]?.getD [], event.isFailure = false

def Spared (st : Store) (e : Engine ω) (id : String) : Prop :=
  ∀ event ∈ st.history e id, event.isFailure = false

structure Good (e : Engine ω) (l : Layer) (st : Store) (d : Definition) (s : ExecutionState) : Prop where
  kept : Kept e st
  sane : d.Sane
  stored : ∃ t, st.latest e s.executionId = some t
  owing : ∀ event, l = .owing event → event.isFailure = false

def Phased (e : Engine ω) (st : Store) (s : ExecutionState) : Phase → Prop
  | .onward => (s.status = .running ∧ Spared st e s.executionId) ∧ st.Undamaged
  | .failing => s.status = .running ∧ Spared st e s.executionId
  | .backward => True
  | .done => s.status = .completed ∧ st.Undamaged

variable {st : Store} {d : Definition} {s : ExecutionState} {l : Layer} {id : String} {event : WorkflowEvent}

theorem isFailure_of_isNeutral (h : event.isNeutral = true) : event.isFailure = false := by
  cases event <;> first | rfl | cases h

theorem getD_append (st : Store) (id k : String) (event : WorkflowEvent)
    : (st.append e id event).events[k]?.getD []
        = if e.backend.key id = k then st.events[k]?.getD [] ++ [event] else st.events[k]?.getD [] := by
  unfold Store.append
  dsimp only
  rw [Map.getElem?_insert]
  split
  next heq =>
    rw [heq]
    rfl
  next => rfl

theorem Kept.append (h : Kept e st) (hevent : event.isFailure = false ∨ ∃ t, st.latest e id = some t)
    : Kept e (st.append e id event) := by
  refine ⟨h.keyed, ?_⟩
  intro k hnone
  rw [getD_append]
  split
  next heq =>
    subst heq
    cases hevent with
    | inl hevent => exact forall_mem_snoc (h.failed _ hnone) hevent
    | inr hstored =>
      obtain ⟨t, ht⟩ := hstored
      cases hnone.symm.trans ht
  next => exact h.failed k hnone

theorem Kept.save (h : Kept e st) (s : ExecutionState) : Kept e (st.save e s) := by
  refine ⟨h.keyed.save s, ?_⟩
  intro k hnone
  unfold Store.save at hnone
  rw [Map.getElem?_insert] at hnone
  split at hnone
  . cases hnone
  . exact h.failed k hnone

theorem Spared.append (h : Spared st e s.executionId) (hevent : event.isFailure = false)
    : Spared (st.append e id event) e s.executionId := by
  unfold Spared
  rw [Store.history_append]
  split
  . exact forall_mem_snoc h hevent
  . exact h

theorem undamaged_append (h : st.Undamaged) (hevent : event.isFailure = false)
    : (st.append e id event).Undamaged := by
  intro k t ht hterminal
  obtain ⟨hstatus, hspared⟩ := h k t ht hterminal
  refine ⟨hstatus, ?_⟩
  rw [getD_append]
  split
  . exact forall_mem_snoc hspared hevent
  . exact hspared

theorem undamaged_save (h : st.Undamaged)
    (hs : s.status.isTerminal = false → s.status = .running ∧ Spared st e s.executionId)
    : (st.save e s).Undamaged := by
  intro k t ht hterminal
  unfold Store.save at ht
  rcases Map.of_insert ht with ⟨heq, rfl⟩ | ht
  . subst heq
    exact hs hterminal
  . exact h k t ht hterminal

theorem stored_save (h : ∃ t, st.latest e s.executionId = some t) (t : ExecutionState)
    : ∃ t', (st.save e t).latest e s.executionId = some t' := by
  rw [Store.latest_save]
  split
  . exact ⟨t, rfl⟩
  . exact h

theorem latest_save_self (hid : s.executionId = id) : ∃ t, (st.save e s).latest e id = some t := by
  rw [Store.latest_save, hid, if_pos rfl]
  exact ⟨s, rfl⟩

theorem Good.append (h : Good e l st d s) {l' : Layer} {s' : ExecutionState} (hid : s'.executionId = s.executionId)
    (hl : ∀ event, l' = .owing event → event.isFailure = false)
    : Good e l' (st.append e s.executionId event) d s' := by
  refine ⟨h.kept.append (.inr h.stored), h.sane, ?_, hl⟩
  rw [hid]
  exact h.stored

theorem Good.save (h : Good e l st d s) : Good e l (st.save e s) d s :=
  ⟨h.kept.save s, h.sane, stored_save h.stored s, h.owing⟩

theorem Phased.append {ph : Phase} (h : Phased e st s ph) (hevent : event.isFailure = false)
    : Phased e (st.append e id event) s ph := by
  cases ph with
  | onward => exact ⟨⟨h.1.1, h.1.2.append hevent⟩, undamaged_append h.2 hevent⟩
  | failing => exact ⟨h.1, h.2.append hevent⟩
  | backward => exact trivial
  | done => exact ⟨h.1, undamaged_append h.2 hevent⟩

theorem Phased.save {ph : Phase} (h : Phased e st s ph) : Phased e (st.save e s) s ph := by
  cases ph with
  | onward => exact ⟨h.1, undamaged_save h.2 fun _ => h.1⟩
  | failing => exact h
  | backward => exact trivial
  | done =>
    refine ⟨h.1, undamaged_save h.2 ?_⟩
    intro hterminal
    rw [h.1] at hterminal
    cases hterminal

theorem owing_of_move {l' : Layer} {t : ExecutionState} (h : Move e d s l l' t)
    : ∀ event, l' = .owing event → event.isFailure = false := by
  intro event hl
  cases h <;> cases hl <;> rfl

def course (hchildren : ∀ a child, e.Resolves a child → child.validate e.platform = .ok ()) : Course e where
  inv := Kept e
  may st call := call.rollback = false → Spared st e call.executionId
  fault err := ¬Refusal err
  whole := Store.Undamaged
  vacant st id := Spared st e id
  heir d _ := d.Sane
  takes _ _ _ := True
  good ph l st d s := Good e l st d s ∧ Phased e st s ph
  safe _ _ _ _ _ h := h.1.kept
  sane _ _ _ _ _ h := h.1.sane
  onward _ _ _ _ := by
    constructor
    . exact fun h => ⟨⟨h.1, h.2.1⟩, h.2.2⟩
    . exact fun h => ⟨h.1.1, h.1.2, h.2⟩
  ended _ _ _ _ h := h.2.2
  other _ h := h
  refused _ _ _ _ h hstatus := absurd h.2.1 hstatus
  dress ph _ _ _ _ _ _ h _ := by
    cases ph <;> exact ⟨⟨h.1.kept, h.1.sane, h.1.stored, h.1.owing⟩, h.2⟩
  move _ _ _ _ s t h hmove := by
    have hid := hmove.executionId_eq
    refine ⟨⟨h.1.kept, h.1.sane, ?_, owing_of_move hmove⟩, hmove.status_eq.trans h.2.1, ?_⟩
    . rw [hid]
      exact h.1.stored
    . rw [hid]
      exact h.2.2
  note _ _ _ _ _ _ h hevent _ :=
    ⟨h.1.append rfl h.1.owing, h.2.append (isFailure_of_isNeutral hevent)⟩
  pay _ _ _ _ event h := ⟨h.1.append rfl nofun, h.2.append (h.1.owing event rfl)⟩
  save _ _ _ _ h := ⟨h.1.save, h.2.save⟩
  finish _ _ _ h _ _ := ⟨h.1.append rfl nofun, rfl, undamaged_append h.2.2 rfl⟩
  fail _ _ _ _ h _ := ⟨h.1.append rfl nofun, trivial⟩
  fall _ _ _ h _ := ⟨h.1, trivial⟩
  turn _ _ _ h _ := ⟨h.1.append rfl nofun, trivial⟩
  settle _ _ _ h _ := ⟨h.1.append rfl nofun, trivial⟩
  undo _ _ _ _ _ _ _ _ h _ _ _ := by
    refine ⟨⟨h.1.kept, h.1.sane, h.1.stored, ?_⟩, trivial⟩
    intro event heq
    cases heq
    rfl
  calls _ _ _ _ _ _ h _ := fun _ => h.2.1.2
  undoes _ _ _ _ _ _ := nofun
  keyed _ _ _ hinv hlatest := hinv.keyed _ _ hlatest
  vacates _ _ hinv _ hnone := hinv.failed _ hnone
  opens _ _ _ _ hinv hwhole hvacant _ hevent := by
    have hneutral := isFailure_of_isNeutral hevent
    refine ⟨hinv.append (.inl hneutral), undamaged_append hwhole hneutral, ?_⟩
    unfold Spared
    rw [Store.history_append, if_pos rfl]
    exact forall_mem_snoc hvacant hneutral
  begins st d id input version hinv hwhole hvacant hheir _ := by
    refine ⟨⟨hinv.save _, hheir, ?_, nofun⟩, ⟨rfl, hvacant⟩, undamaged_save hwhole fun _ => ⟨rfl, hvacant⟩⟩
    exact latest_save_self (Eq.refl id)
  loads st _ id s hinv hwhole hheir hlatest hterminal := by
    have hkey := hinv.keyed _ _ hlatest
    obtain ⟨hstatus, hspared⟩ := hwhole _ s hlatest hterminal
    have hstored : st.latest e s.executionId = some s := by
      unfold Store.latest
      rw [hkey]
      exact hlatest
    refine ⟨⟨hinv, hheir, ⟨s, hstored⟩, nofun⟩, ⟨hstatus, ?_⟩, hwhole⟩
    unfold Spared Store.history
    rw [hkey]
    exact hspared
  child _ _ _ a child _ _ hchild := ⟨Definition.sane_of_validate (hchildren a child hchild), trivial⟩
  apart _ _ s _ _ h hlt hinv := by
    refine ⟨⟨hinv, h.1.sane, h.1.stored, h.1.owing⟩, h.2.1, ?_⟩
    unfold Spared
    rw [Store.history_append, if_neg (Account.ne_of_length hlt)]
    exact h.2.2
  aside _ _ s _ h hlt hinv := ⟨⟨hinv, h.1.sane, stored_save h.1.stored _, h.1.owing⟩, h.2⟩

variable {hchildren : ∀ a child, e.Resolves a child → child.validate e.platform = .ok ()} {α : Type}

theorem resume_keeps_terminal (id : String) (gas : Nat)
    : (course hchildren).Keeps (fun st => ∃ t, st.latest e id = some t ∧ t.status.isTerminal = true)
        (e.resume gas d id) (fun _ _ => True) := by
  unfold Engine.resume Engine.resumeWith
  apply latest_keeps
  intro found
  cases found with
  | none =>
    apply given_keeps (p := False)
    . rintro st ⟨⟨t, ht, -⟩, hnone⟩
      cases hnone.symm.trans ht
    . exact False.elim
  | some t =>
    apply given_keeps (p := t.status.isTerminal = true)
    . rintro st ⟨⟨t', ht', hterminal⟩, hfound⟩
      cases hfound.symm.trans ht'
      exact hterminal
    intro hterminal
    apply ofExcept_keeps
    . intro err herr
      unfold Engine.assertPinnedDefinition at herr
      split at herr
      . cases herr
      . cases herr
        rintro ⟨status, target, heq⟩
        cases heq
    intro _ _
    split
    . exact pure_keeps _ fun _ _ => trivial
    . exact pure_keeps _ fun _ _ => trivial
    . exact pure_keeps _ fun _ _ => trivial
    next hcompleted hfailed hcancelled =>
      cases hstatus : t.status with
      | completed => exact absurd hstatus hcompleted
      | failed => exact absurd hstatus hfailed
      | cancelled => exact absurd hstatus hcancelled
      | _ =>
        rw [hstatus] at hterminal
        cases hterminal

theorem deliver_keeps_terminal (id key : String) (payload : Value) (gas : Nat)
    : (course hchildren).Keeps (fun st => ∃ t, st.latest e id = some t ∧ t.status.isTerminal = true)
        (e.deliver gas d id key payload) (fun _ _ => True) := by
  unfold Engine.deliver
  apply latest_keeps
  intro found
  cases found with
  | none =>
    apply given_keeps (p := False)
    . rintro st ⟨⟨t, ht, -⟩, hnone⟩
      cases hnone.symm.trans ht
    . exact False.elim
  | some t =>
    apply bind_keeps
      (Q := fun _ st => ∃ t, st.latest e id = some t ∧ t.status.isTerminal = true)
    . apply save_keeps
      rintro st hinv ⟨⟨t', ht', hterminal⟩, hfound⟩
      cases hfound.symm.trans ht'
      refine ⟨Kept.save hinv _, t.setVariable key payload, ?_, hterminal⟩
      rw [Store.latest_save]
      exact if_pos (hinv.keyed _ t hfound)
    . exact fun _ => resume_keeps_terminal id gas

variable {a : Act ω} {w : World ω}

structure Decent (e : Engine ω) (w : World ω) (a : Act ω) : Prop where
  kept : Kept e (e.act w a).2.store
  calls : ∀ call ∈ e.latestCalls w a, call.rollback = false →
    Spared (e.act w a).2.store e call.executionId
  errors : ∀ err, (e.act w a).1 = .err err → ¬Refusal err

theorem decent_of_keeps (hchildren : ∀ a child, e.Resolves a child → child.validate e.platform = .ok ())
    {P : Store → Prop} {Q : Option RunOutcome × ExecutionState → Store → Prop} (h : (course hchildren).Keeps P (a.program e) Q) (hinv : Kept e w.store) (hP : P w.store) : Decent e w a where
  kept := Watch.Keeps.inv_stop (W := (course hchildren).watch) h (s := w.boot a.process) hinv hP a.process.writes
  calls := Watch.Keeps.may_recent (W := (course hchildren).watch) h (s := w.boot a.process) hinv hP a.process.writes
  errors := (h (w.boot a.process) hinv hP a.process.writes).1.err

theorem decent_first (hsane : a.definition.Sane) (hinput : a.operation.input ≠ none) (hinv : Kept e w.store)
    (hwhole : w.store.Undamaged) (hspared : Spared w.store e a.executionId)
    (hchildren : ∀ a child, e.Resolves a child → child.validate e.platform = .ok ()) : Decent e w a := by
  apply decent_of_keeps hchildren
    (P := fun st => st.Undamaged ∧ Spared st e a.executionId) (Q := fun _ _ => True) _ hinv ⟨hwhole, hspared⟩
  unfold Act.program
  cases hoperation : a.operation with
  | start input =>
    apply bind_keeps (start_keeps (K := course hchildren) hsane trivial)
    exact fun _ => pure_keeps _ fun _ _ => trivial
  | run input =>
    apply bind_keeps (runWith_keeps (drive_keeps _ (course hchildren)) hsane trivial)
    rintro ⟨outcome, state⟩
    exact pure_keeps _ fun _ _ => trivial
  | resume | signalEvent name payload | fireTimer timer | cancel =>
    rw [hoperation] at hinput
    exact absurd rfl hinput

theorem undamaged_deliver {st : Store} (hinv : Kept e st) (hwhole : st.Undamaged) {id : String}
    {t : ExecutionState} (ht : st.latest e id = some t) (key : String) (payload : Value)
    : (st.save e (t.setVariable key payload)).Undamaged := by
  apply undamaged_save hwhole
  intro hterminal
  obtain ⟨hstatus, hspared⟩ := hwhole _ t ht hterminal
  refine ⟨hstatus, ?_⟩
  have hkey : e.backend.key t.executionId = e.backend.key id := hinv.keyed _ t ht
  show ∀ event ∈ st.events[e.backend.key t.executionId]?.getD [], event.isFailure = false
  rw [hkey]
  exact hspared

theorem decent_recall (hsane : a.definition.Sane) (hrecall : a.operation.isRecall = true)
    (hinv : Kept e w.store) (hsafe : a.Safe e w)
    (hchildren : ∀ a child, e.Resolves a child → child.validate e.platform = .ok ()) : Decent e w a := by
  have hresumed {P : Store → Prop} {Q : RunOutcome × ExecutionState → Store → Prop}
      {m : Action ω (RunOutcome × ExecutionState)} (hm : (course hchildren).Keeps P m Q)
      : (course hchildren).Keeps P (m.bind fun r => .pure (some r.1, r.2)) (fun _ _ => True) :=
    bind_keeps hm fun _ => pure_keeps _ fun _ _ => trivial
  have hdelivered {key : String} {payload : Value} (st : Store) (t : ExecutionState) (hinv : Kept e st)
      (hwhole : st.Undamaged) (ht : st.latest e a.executionId = some t) :=
    And.intro (hinv.save (t.setVariable key payload)) (undamaged_deliver hinv hwhole ht key payload)
  cases hsafe with
  | inl hterminal =>
    apply decent_of_keeps hchildren
      (P := fun st => ∃ t, st.latest e a.executionId = some t ∧ t.status.isTerminal = true)
      (Q := fun _ _ => True) _ hinv hterminal
    unfold Act.program
    cases hoperation : a.operation with
    | resume => exact hresumed (resume_keeps_terminal _ _)
    | signalEvent name payload => exact hresumed (deliver_keeps_terminal _ _ _ _)
    | fireTimer timer => exact hresumed (deliver_keeps_terminal _ _ _ _)
    | start input | run input | cancel =>
      rw [hoperation] at hrecall
      cases hrecall
  | inr hwhole =>
    apply decent_of_keeps hchildren (P := Store.Undamaged) (Q := fun _ _ => True) _ hinv hwhole
    unfold Act.program
    cases hoperation : a.operation with
    | resume => exact hresumed (resume_keeps (K := course hchildren) hsane _)
    | signalEvent name payload =>
      exact hresumed (deliver_keeps (K := course hchildren) hsane hdelivered _)
    | fireTimer timer => exact hresumed (deliver_keeps (K := course hchildren) hsane hdelivered _)
    | start input | run input | cancel =>
      rw [hoperation] at hrecall
      cases hrecall

theorem kept_initial (x : ω) : Kept e ({ executor := x, writes := 0 } : World ω).store := by
  refine ⟨?_, ?_⟩
  . intro k s hs
    simp [World.store] at hs
  . intro k _ event hevent
    simp [World.store] at hevent

theorem undamaged_initial (x : ω) : ({ executor := x, writes := 0 } : World ω).store.Undamaged := by
  intro k s hs
  simp [World.store] at hs

theorem acts_concat (x : ω) (as : List (Act ω)) (a : Act ω)
    : e.acts x (as ++ [a]) = (e.act (e.acts x as) a).2 := by
  unfold Engine.acts
  rw [List.foldl_append]
  rfl

theorem lifetime_concat {id : String} {as : List (Act ω)} {a : Act ω} (h : Lifetime id (as ++ [a]))
    : Lifetime id as ∧ a.executionId = id
        ∧ (as = [] ∧ a.operation.input ≠ none ∨ a.operation.isRecall = true) := by
  cases as with
  | nil => exact ⟨trivial, h.1, .inl ⟨rfl, h.2.1⟩⟩
  | cons first rest =>
    obtain ⟨hid, hinput, hrest⟩ := h
    obtain ⟨haid, hrecall⟩ := hrest a (List.mem_append_right _ (List.mem_singleton_self a))
    exact ⟨⟨hid, hinput, fun b hb => hrest b (List.mem_append_left _ hb)⟩, haid, .inr hrecall⟩

theorem decent_acts (x : ω) {id : String} {as : List (Act ω)} {a : Act ω} (hvalid : e.Validates (as ++ [a]))
    (hlife : Lifetime id (as ++ [a]))
    (hsafe : ∀ before b after, as ++ [a] = before ++ b :: after → b.operation.isRecall = true →
      b.Safe e (e.acts x before)) : Decent e (e.acts x as) a := by
  induction as using List.reverseRecOn generalizing a with
  | nil =>
    cases (lifetime_concat hlife).2.2 with
    | inl hfirst =>
      apply decent_first (Definition.sane_of_validate (hvalid.1 a (by simp))) hfirst.2 (kept_initial x)
        (undamaged_initial x) _ hvalid.2
      intro event hevent
      simp [Store.history, World.store] at hevent
    | inr hrecall =>
      exact decent_recall (Definition.sane_of_validate (hvalid.1 a (by simp))) hrecall (kept_initial x)
        (hsafe [] a [] rfl hrecall) hvalid.2
  | append_singleton bs b ih =>
    obtain ⟨hlife', -, hcase⟩ := lifetime_concat hlife
    have hkept : Kept e (e.acts x (bs ++ [b])).store := by
      rw [acts_concat]
      refine (ih ⟨fun c hc => hvalid.1 c (List.mem_append_left _ hc), hvalid.2⟩ hlife' ?_).kept
      intro before c after heq
      exact hsafe before c (after ++ [a]) (by rw [heq, List.append_assoc, List.cons_append])
    have hsane := Definition.sane_of_validate (hvalid.1 a (by simp))
    cases hcase with
    | inl hfirst => exact absurd hfirst.1 (by simp)
    | inr hrecall => exact decent_recall hsane hrecall hkept (hsafe (bs ++ [b]) a [] rfl hrecall) hvalid.2

end Failure

/--
An execution is started and resumed any number of times, each time by a process that can stop before any
of its writes, and each time from a store in which it has come to an end or nothing is damaged: then
nothing is handed to the executor on the way forward once a failure is in the log, and no transition is
refused.
-/
theorem no_work_after_failure {ω : Type} (e : Engine ω) (x : ω) (id : String) (as : List (Act ω)) (a : Act ω)
    (hvalid : e.Validates (as ++ [a])) (hlife : Lifetime id (as ++ [a]))
    (hsafe : ∀ before b after, as ++ [a] = before ++ b :: after → b.operation.isRecall = true →
      b.Safe e (e.acts x before))
    : (∀ call ∈ e.latestCalls (e.acts x as) a, call.rollback = false →
        ∀ event ∈ (e.acts x (as ++ [a])).store.history e call.executionId, event.isFailure = false)
      ∧ ∀ err, (e.act (e.acts x as) a).1 = .err err → ¬Refusal err := by
  have hdecent := Failure.decent_acts x hvalid hlife hsafe
  refine ⟨?_, hdecent.errors⟩
  rw [Failure.acts_concat]
  exact hdecent.calls

namespace Failure

theorem undamaged_of_all {st : Store}
    (h : st.checkpoints.toList.all (fun (k, t) => t.status.isTerminal
      || (t.status == .running && (st.events[k]?.getD []).all fun event => !event.isFailure)) = true)
    : st.Undamaged := by
  intro k t ht hterminal
  have hchecked := List.all_eq_true.mp h (k, t) (Std.ExtTreeMap.mem_toList_iff_getElem?_eq_some.mpr ht)
  simp only [hterminal, Bool.false_or, Bool.and_eq_true, beq_iff_eq, List.all_eq_true,
    Bool.not_eq_true'] at hchecked
  exact hchecked

def parcel : Definition where
  metadata := { name := "parcel" }
  spec := {
    activities := [
      { id := "reserve", activityType := "function", compensate := some "release" },
      { id := "ship", activityType := "function" },
      { id := "insure", activityType := "function" },
      { id := "release", activityType := "function" }]
    transitions := [{ source := "reserve", target := "ship" }, { source := "reserve", target := "insure" }] }

def stubborn : Engine Bool where
  platform := .integral
  backend := .memory
  execute asked context :=
    { executor := asked || context.id == "insure"
      progress := []
      reply :=
        if context.id = "reserve" || (context.id = "insure" && asked) then
          .output .null
        else if context.id = "insure" then
          .error (.interrupted "ask again")
        else
          .error (.permanent "out of order") }
  nowMillis _ := 0
  timers := true
  subworkflows := none

def sent (operation : Operation) (asked : Bool) : Act Bool where
  definition := parcel
  executionId := "parcel-1"
  operation
  process := { executor := asked, gas := 9, writes := 99 }

def failed : World Bool :=
  stubborn.acts false [sent (.run .null) false]

def resumed : Outcome Error (Option RunOutcome × ExecutionState) × World Bool :=
  stubborn.act failed (sent .resume true)

-- Stopped while `ship` is called, then rolled back to the end, then sent a signal.
def hauled : List (Act Unit) :=
  [Saga.act (.start .null) 5, Saga.act .resume 4, Saga.act .resume 99, Saga.act (.signalEvent "paid" .null) 99]

def hauledTo (k : Nat) : World Unit :=
  Saga.carrier.acts () (hauled.take k)

theorem safe_hauled {k : Nat} {before after : List (Act Unit)} {b : Act Unit}
    (h : hauled.take k = before ++ b :: after) (hrecall : b.operation.isRecall = true)
    : b.Safe Saga.carrier (Saga.carrier.acts () before) := by
  have hsplit : hauled = before ++ b :: (after ++ hauled.drop k) := by
    rw [← List.cons_append, ← List.append_assoc, ← h, List.take_append_drop]
  have hbefore : hauled.take before.length = before := by rw [hsplit, List.take_left]
  have hb : hauled[before.length]? = some b := by
    rw [hsplit, List.getElem?_append_right (Nat.le_refl _), Nat.sub_self, List.getElem?_cons_zero]
  rw [← hbefore]
  match hlength : before.length with
  | 0 =>
    rw [hlength] at hb
    cases hb
    cases hrecall
  | 1 | 2 => exact .inr (undamaged_of_all (by decide +kernel))
  | 3 =>
    rw [hlength] at hb
    cases hb
    exact .inl ((Option.any_eq_true _ _).mp (by decide +kernel))
  | n + 4 => simp [hlength, hauled] at hb

theorem validates_hauled (k : Nat) : Saga.carrier.Validates (hauled.take k) := by
  have hvalid : Saga.shipment.validate Saga.carrier.platform = .ok () := by decide
  refine (Family.alone rfl hvalid ?_).validates
  intro a ha
  have hmem := List.mem_of_mem_take ha
  simp only [hauled, List.mem_cons, List.not_mem_nil, or_false] at hmem
  obtain rfl | rfl | rfl | rfl := hmem <;> rfl

end Failure

open Failure in
theorem no_work_after_failure_shipment
    : (Saga.carrier.latestCalls (hauledTo 1) (Saga.act .resume 4)).map (·.context.id) = ["ship"]
        ∧ (∀ call ∈ Saga.carrier.latestCalls (hauledTo 1) (Saga.act .resume 4), call.rollback = false →
          ∀ event ∈ (hauledTo 2).store.history Saga.carrier call.executionId, event.isFailure = false)
        ∧ ((hauledTo 3).store.history Saga.carrier "order-1").any (·.isFailure) = true
        ∧ ∀ err, (Saga.carrier.act (hauledTo 3) (Saga.act (.signalEvent "paid" .null) 99)).1 = .err err → ¬Refusal err := by
  have hlife (a : Act Unit) (as : List (Act Unit))
      (h : ∀ b ∈ as ++ [a], b.executionId = "order-1" ∧ b.operation.isRecall = true)
      : Lifetime "order-1" (Saga.act (.start .null) 5 :: as ++ [a]) :=
    ⟨rfl, Option.some_ne_none _, h⟩
  refine ⟨by decide +kernel, ?_, by decide +kernel, ?_⟩
  . exact (no_work_after_failure Saga.carrier () "order-1" (hauled.take 1) _ (validates_hauled 2)
      (hlife _ [] (by simp [Saga.act, Operation.isRecall])) fun _ _ _ => safe_hauled (k := 2)).1
  . exact (no_work_after_failure Saga.carrier () "order-1" (hauled.take 3) _ (validates_hauled 4)
      (hlife _ [_, _] (by simp [Saga.act, Operation.isRecall])) fun _ _ _ => safe_hauled (k := 4)).2

-- The handler fails as well, and the next call starts all over.
theorem worked_after_failure
    : Failure.parcel.validate Failure.stubborn.platform = .ok ()
        ∧ (Failure.failed.store.history Failure.stubborn "parcel-1").any (·.isFailure) = true
        ∧ (Failure.resumed.2.calls.drop Failure.failed.calls.length).map
            (fun call => (call.executionId, call.rollback, call.context.id)) = [("parcel-1", false, "insure")]
        ∧ ∃ err, Failure.resumed.1 = .err err ∧ Refusal err := by
  refine ⟨by decide, by decide +kernel, by decide +kernel, ?_⟩
  have hrefused : (match Failure.resumed.1 with
      | .err err => some err
      | _ => none) = some (refusal .compensating .compensating) := by
    decide +kernel
  generalize Failure.resumed.1 = o at hrefused
  cases o with
  | err err =>
    cases hrefused
    exact ⟨_, rfl, _, _, rfl⟩
  | ok r => cases hrefused
  | halted => cases hrefused

end Wovyr.Workflow
