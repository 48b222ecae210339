import Wovyr.Workflow.Recovery

/-!
This module contains what every checkpoint has in common, so that an execution can be resumed from any
of them.
-/

namespace Wovyr.Workflow

open ExecutionState

def Done (d : Definition) (s : ExecutionState) : Prop :=
  ∀ a ∈ d.spec.activities, a.id ∉ d.compensationTargets →
    ∃ record, s.activity? a.id = some record ∧ (record.state = .completed ∨ record.state = .skipped)

def WorkflowState.isStored : WorkflowState → Bool
  | .running | .completed | .failed | .compensating | .cancelled => true
  | _ => false

structure Resumable (definitions : String → Definition → Prop) (k : String) (s : ExecutionState) : Prop where
  idle : ∀ id record, s.activity? id = some record → record.state ≠ .running ∧ record.state ≠ .scheduled
  status : s.status.isStored = true
  done : s.status = .completed → ∃ d, definitions k d ∧ Done d s

namespace Resumable

variable {ω : Type} {e : Engine ω} {definitions : String → Definition → Prop} {d : Definition}
  {s t : ExecutionState} {l l' : Layer}

structure Tidy (l : Layer) (d : Definition) (s : ExecutionState) : Prop where
  running : ∀ id record, s.activity? id = some record → record.state = .running → l = .busy id
  scheduled : ∀ id record, s.activity? id = some record → record.state ≠ .scheduled
  status : s.status.isStored = true
  done : s.status = .completed → Done d s

theorem done_of_forwardComplete (h : Engine.forwardComplete d s = some true) : Done d s := by
  unfold Engine.forwardComplete at h
  obtain ⟨found, hfound, hnone⟩ := Option.map_eq_some_iff.mp h
  cases found with
  | some id => cases hnone
  | none =>
    have hall (as : List ActivityDef) (h : Engine.firstId (fun id => (s.activity? id).map fun record =>
        !(record.state == .completed || record.state == .skipped)) as = some none)
        : ∀ a ∈ as, ∃ record, s.activity? a.id = some record
          ∧ (record.state = .completed ∨ record.state = .skipped) := by
      induction as with
      | nil => exact nofun
      | cons b as ih =>
        unfold Engine.firstId at h
        split at h
        . cases h
        . cases h
        next hb =>
          obtain ⟨record, hrecord, hstate⟩ := Option.map_eq_some_iff.mp hb
          intro a ha
          cases List.mem_cons.mp ha with
          | inl heq =>
            refine ⟨record, heq ▸ hrecord, ?_⟩
            rw [Bool.not_eq_false', Bool.or_eq_true, beq_iff_eq, beq_iff_eq] at hstate
            exact hstate
          | inr ha => exact ih h a ha
    intro a ha hforward
    apply hall _ hfound a
    unfold Engine.forward
    exact List.mem_filter.mpr ⟨ha, by simpa using hforward⟩

theorem Tidy.setRecord (h : Tidy l d s) (hstatus : s.status ≠ .completed) {id : String}
    (hl : l = .rest ∨ l = .busy id) {r : ActivityRecord} (hr : r.state ≠ .running ∧ r.state ≠ .scheduled)
    (l' : Layer) : Tidy l' d (s.setRecord id r) := by
  refine ⟨?_, ?_, h.status, fun hcompleted => absurd hcompleted hstatus⟩
  . intro id' record hrecord hrunning
    rw [activity?_setRecord] at hrecord
    split at hrecord
    . cases hrecord
      exact absurd hrunning hr.1
    next hne =>
      have hbusy := h.running id' record hrecord hrunning
      cases hl with
      | inl hrest =>
        rw [hrest] at hbusy
        cases hbusy
      | inr hid =>
        rw [hid] at hbusy
        cases hbusy
        exact absurd rfl hne
  . intro id' record hrecord
    rw [activity?_setRecord] at hrecord
    split at hrecord
    . cases hrecord
      exact hr.2
    . exact h.scheduled id' record hrecord

theorem Tidy.move (h : Tidy l d s) (hstatus : s.status ≠ .completed) (hmove : Move e d s l l' t)
    : Tidy l' d t := by
  cases hmove with
  | @run id r hchange =>
    refine ⟨?_, ?_, h.status, fun hcompleted => absurd hcompleted hstatus⟩
    . intro id' record hrecord hrunning
      rw [activity?_setRecord] at hrecord
      split at hrecord
      next heq => rw [heq]
      . cases h.running id' record hrecord hrunning
    . intro id' record hrecord
      rw [activity?_setRecord] at hrecord
      split at hrecord
      . cases hrecord
        nofun
      . exact h.scheduled id' record hrecord
  | @settle _ id r r' hchange hl hr' =>
    apply h.setRecord hstatus hl
    cases hstate : r'.state <;> simp [hstate, ActivityState.isIdle] at hr' ⊢
  | fail msg hchange hl hr' =>
    apply h.setRecord hstatus hl
    rw [hr']
    exact ⟨nofun, nofun⟩
  | @complete _ a output r hrun hl hsource =>
    have hset := h.setRecord hstatus hl (r := { r with state := .completed, output := some output })
      (by simp) (.owing (.activityCompleted a.id output))
    exact { hset with }
  | completeItem attempts hchange hanswer => exact h.setRecord hstatus (.inr rfl) (by simp) _
  | expand id index hnone => exact h.setRecord hstatus (.inl rfl) (by simp) _

theorem created_of_initial (d : Definition) (id : String) (input : Value)
    : ∀ id' record, (Engine.initialState d id input).activity? id' = some record →
        record.state = .created := by
  intro id' record hrecord
  rw [activity?_initialState] at hrecord
  split at hrecord
  . cases hrecord
    rfl
  . cases hrecord

theorem Tidy.initial (d : Definition) (id : String) (input : Value) (version : Nat)
    : Tidy .rest d { Engine.initialState d id input with status := .running, version } := by
  have hcreated := created_of_initial d id input
  refine ⟨?_, ?_, rfl, nofun⟩
  . intro id' record hrecord hrunning
    rw [hcreated id' record hrecord] at hrunning
    cases hrunning
  . intro id' record hrecord hscheduled
    rw [hcreated id' record hrecord] at hscheduled
    cases hscheduled

theorem Tidy.turn (h : Tidy .rest d s) {target : WorkflowState} {event : WorkflowEvent}
    (hturn : Turn d s target event) : Tidy .rest d { s with status := target } := by
  cases hturn with
  | finish _ hcomplete => exact ⟨h.running, h.scheduled, rfl, fun _ => done_of_forwardComplete hcomplete⟩
  | fail | rollback | settle => exact ⟨h.running, h.scheduled, rfl, nofun⟩

theorem Tidy.pay {event : WorkflowEvent} (h : Tidy (.owing event) d s) : Tidy .rest d s := by
  refine ⟨?_, h.scheduled, h.status, h.done⟩
  intro id record hrecord hrunning
  cases h.running id record hrecord hrunning

theorem Tidy.resumable (h : Tidy .rest d s) {k : String} (hd : definitions k d)
    : Resumable definitions k s := by
  refine ⟨?_, h.status, fun hcompleted => ⟨d, hd, h.done hcompleted⟩⟩
  intro id record hrecord
  refine ⟨?_, h.scheduled id record hrecord⟩
  intro hrunning
  cases h.running id record hrecord hrunning

theorem child_of_family {as : List (Act ω)} (hfamily : Family e definitions as) (d : Definition) (s : ExecutionState)
    (a : ActivityDef) (child : Definition) (hd : definitions (e.backend.key s.executionId) d) (_ : d.Sane)
    (ha : d.activity a.id = some a) (hchild : e.Resolves a child)
    : definitions (e.backend.key (Engine.childId s a)) child ∧ child.Sane ∧ True :=
  ⟨hfamily.children d s a child hd ha hchild, Definition.sane_of_validate (hfamily.validates.2 a child hchild), trivial⟩

def account {as : List (Act ω)} (hfamily : Family e definitions as) : Account e where
  heir d k := definitions k d
  takes _ _ := True
  stored _ s := Resumable definitions (e.backend.key s.executionId) s
  live l _ _ d s := Tidy l d s
  may _ _ := True
  child := child_of_family hfamily
  begins _ d id input version _ _ _ := .initial d id input version
  loads _ d s hd _ hs hstatus := by
    refine ⟨?_, fun id record hrecord => (hs.idle id record hrecord).2, hs.status, ?_⟩
    . intro id record hrecord hrunning
      exact absurd hrunning (hs.idle id record hrecord).1
    . intro hcompleted
      rw [hcompleted] at hstatus
      cases hstatus
  stores _ _ _ _ hd h := ⟨h.resumable hd, h⟩
  dress _ _ _ _ _ _ _ h _ := { h with }
  move _ _ _ _ _ _ _ _ _ hstatus h hmove := h.move hstatus hmove
  note _ _ _ _ _ _ h _ _ := h
  pay _ _ _ _ _ h := h.pay
  grows _ _ _ h _ := h
  paid _ _ _ _ _ _ _ h := h
  turn _ _ _ _ _ _ h hturn := h.turn hturn
  undo _ _ _ _ activity id r attempts output h _ hstatus _ _ _ := by
    have hset := @Tidy.setRecord _ _ _ h hstatus id (.inl rfl)
      { r with state := .completed, attempts, output := some output } (by simp)
      (.owing (.compensationStepCompleted activity id))
    exact ⟨hset.running, hset.scheduled, hset.status, hset.done⟩
  calls _ _ _ _ _ _ _ _ _ := trivial

theorem skipOpen_settled (record : ActivityRecord) : (Engine.skipOpen record).state.isSettled = true := by
  unfold Engine.skipOpen
  split
  next h => rw [h]; rfl
  next h => rw [h]; rfl
  next h => rw [h]; rfl
  next => rfl

theorem fits {as : List (Act ω)} (hfamily : Family e definitions as) {a : Act ω} (ha : a ∈ as)
    : (account hfamily).Fits a where
  sane := Definition.sane_of_validate (hfamily.validates.1 a ha)
  heir := hfamily.roots a ha
  input _ _ := trivial
  delivery _ _ _ _ _ _ h := { h with }
  cancel _ log t version h _ := by
    refine ⟨?_, rfl, nofun⟩
    intro id record hrecord
    have hsettled : record.state.isSettled = true := by
      unfold activity? cancelled closed at hrecord
      dsimp only at hrecord
      rw [Std.ExtTreeMap.getElem?_map] at hrecord
      obtain ⟨record', -, rfl⟩ := Option.map_eq_some_iff.mp hrecord
      exact skipOpen_settled record'
    cases hstate : record.state <;> simp [hstate, ActivityState.isSettled] at hsettled ⊢

end Resumable

/--
Whatever is done for executions, each time by a process that stops before any of its writes: in the
checkpoints nothing is running or scheduled, their status is one of five, and what has completed has
completed or skipped everything on the way forward.
-/
theorem resumable_of_acts {ω : Type} (e : Engine ω) (x : ω) (as : List (Act ω))
    (definitions : String → Definition → Prop) (hfamily : Family e definitions as)
    : ∀ k s, (e.acts x as).checkpoints[k]? = some s → Resumable definitions k s := by
  intro k s hs
  have hstored := Account.stored_acts (A := Resumable.account hfamily) x
    (fun a ha => Resumable.fits hfamily ha) k s hs
  exact hstored.1 ▸ hstored.2

theorem resumable_of_acts_shipment
    : Saga.shipment.validate Saga.carrier.platform = .ok ()
        ∧ ∀ k s, (Saga.carrier.acts () [Saga.act (.start .null) 5, Saga.act .resume 6,
            Saga.act .resume 99]).checkpoints[k]? = some s →
          Resumable (fun _ d => d = Saga.shipment) k s := by
  have hvalid : Saga.shipment.validate Saga.carrier.platform = .ok () := by decide
  refine ⟨hvalid, resumable_of_acts Saga.carrier () _ _ (.alone rfl hvalid ?_)⟩
  simp [Saga.act]

end Wovyr.Workflow
