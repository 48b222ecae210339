import Wovyr.Workflow.Resumable

/-!
This module contains the proof that the event log is written ahead of the checkpoints: whatever a
checkpoint says about an execution has been logged before.
-/

namespace Wovyr.Workflow

open ExecutionState List

def lastOutput (log : List WorkflowEvent) (id : String) : Option Value :=
  (log.filterMap fun
    | .activityCompleted id' output => if id' = id then some output else none
    | _ => none).getLast?

def WorkflowState.Logged (log : List WorkflowEvent) : WorkflowState → Prop
  | .completed => .workflowCompleted ∈ log
  | .failed => ∃ error, .workflowFailed error ∈ log
  | .compensating => .compensationStarted ∈ log ∧ ∃ error, .workflowFailed error ∈ log
  | .cancelled => .workflowCancelled ∈ log
  | _ => True

/--
A state is justified by a log. Activities that are no handlers and items of a fan-out complete and fail,
handlers, which are activities, only complete.
-/
structure Justified (d : Definition) (log : List WorkflowEvent) (s : ExecutionState) : Prop where
  completed : ∀ id record, s.activity? id = some record → record.state = .completed →
    id ∉ d.compensationTargets → ∃ output, record.output = some output ∧ lastOutput log id = some output
  failed : ∀ id record, s.activity? id = some record → record.state = .failed →
    ∃ error, .activityFailed id error ∈ log
  handler : ∀ a ∈ d.spec.activities, a.id ∈ d.compensationTargets → ∀ record,
    s.activity? a.id = some record → record.state = .completed →
    ∃ activity, .compensationStepCompleted activity a.id ∈ log
  status : s.status.Logged log

theorem lastOutput_completed (log : List WorkflowEvent) (id id' : String) (output : Value)
    : lastOutput (log ++ [.activityCompleted id output]) id'
        = if id = id' then some output else lastOutput log id' := by
  unfold lastOutput
  rw [filterMap_append]
  by_cases h : id = id'
  . simp [h]
  . simp [h]

theorem lastOutput_other (log : List WorkflowEvent) (id : String) {event : WorkflowEvent}
    (h : event.isCompletion = false) : lastOutput (log ++ [event]) id = lastOutput log id := by
  unfold lastOutput
  rw [filterMap_append]
  cases event with
  | activityCompleted => cases h
  | _ => rw [filterMap_cons_none rfl, filterMap_nil, append_nil]

theorem WorkflowState.Logged.grow {log : List WorkflowEvent} {status : WorkflowState}
    (h : status.Logged log) (event : WorkflowEvent) : status.Logged (log ++ [event]) := by
  cases status with
  | completed | cancelled => exact mem_append_left _ h
  | failed =>
    obtain ⟨error, herror⟩ := h
    exact ⟨error, mem_append_left _ herror⟩
  | compensating =>
    obtain ⟨hstarted, error, herror⟩ := h
    exact ⟨mem_append_left _ hstarted, error, mem_append_left _ herror⟩
  | _ => trivial

namespace Justified

variable {ω : Type} {e : Engine ω} {d : Definition} {log : List WorkflowEvent} {s t : ExecutionState}
  {p : Option ExecutionState} {l l' : Layer}

theorem grow (h : Justified d log s) {event : WorkflowEvent}
    (hlast : ∀ id record, s.activity? id = some record → record.state = .completed →
      lastOutput (log ++ [event]) id = lastOutput log id) : Justified d (log ++ [event]) s where
  completed id record hrecord hstate hid := by
    rw [hlast id record hrecord hstate]
    exact h.completed id record hrecord hstate hid
  failed id record hrecord hstate := by
    obtain ⟨error, herror⟩ := h.failed id record hrecord hstate
    exact ⟨error, mem_append_left _ herror⟩
  handler a ha hid record hrecord hstate := by
    obtain ⟨activity, hactivity⟩ := h.handler a ha hid record hrecord hstate
    exact ⟨activity, mem_append_left _ hactivity⟩
  status := h.status.grow event

theorem note (h : Justified d log s) {event : WorkflowEvent} (hevent : event.isCompletion = false)
    : Justified d (log ++ [event]) s :=
  h.grow fun id _ _ _ => lastOutput_other log id hevent

theorem setRecord (h : Justified d log s) (id : String) {r : ActivityRecord}
    (hr : r.state ≠ .completed ∧ r.state ≠ .failed) : Justified d log (s.setRecord id r) where
  completed id' record hrecord hstate hid := by
    rw [activity?_setRecord] at hrecord
    split at hrecord
    . cases hrecord
      exact absurd hstate hr.1
    . exact h.completed id' record hrecord hstate hid
  failed id' record hrecord hstate := by
    rw [activity?_setRecord] at hrecord
    split at hrecord
    . cases hrecord
      exact absurd hstate hr.2
    . exact h.failed id' record hrecord hstate
  handler a ha hid record hrecord hstate := by
    rw [activity?_setRecord] at hrecord
    split at hrecord
    . cases hrecord
      exact absurd hstate hr.1
    . exact h.handler a ha hid record hrecord hstate
  status := h.status

theorem fail (h : Justified d log s) (id error : String) {r : ActivityRecord} (hr : r.state = .failed)
    : Justified d (log ++ [.activityFailed id error]) (s.setRecord id r) where
  completed id' record hrecord hstate hid := by
    rw [activity?_setRecord] at hrecord
    split at hrecord
    . cases hrecord
      rw [hr] at hstate
      cases hstate
    . exact (h.note rfl).completed id' record hrecord hstate hid
  failed id' record hrecord hstate := by
    rw [activity?_setRecord] at hrecord
    split at hrecord
    next heq => exact ⟨error, by simp [heq]⟩
    . exact (h.note rfl).failed id' record hrecord hstate
  handler a ha hid record hrecord hstate := by
    rw [activity?_setRecord] at hrecord
    split at hrecord
    . cases hrecord
      rw [hr] at hstate
      cases hstate
    . exact (h.note rfl).handler a ha hid record hrecord hstate
  status := h.status.grow _

theorem complete (h : Justified d log s) {id : String} {output : Value} {r : ActivityRecord}
    (hid : ∀ a ∈ d.spec.activities, a.id ∈ d.compensationTargets → id ≠ a.id)
    (hr : r.state = .completed) (houtput : r.output = some output)
    : Justified d (log ++ [.activityCompleted id output]) (s.setRecord id r) where
  completed id' record hrecord hstate hid' := by
    rw [lastOutput_completed]
    rw [activity?_setRecord] at hrecord
    split at hrecord
    next heq =>
      cases hrecord
      exact ⟨output, houtput, by rw [if_pos heq]⟩
    next hne =>
      rw [if_neg hne]
      exact h.completed id' record hrecord hstate hid'
  failed id' record hrecord hstate := by
    rw [activity?_setRecord] at hrecord
    split at hrecord
    . cases hrecord
      rw [hr] at hstate
      cases hstate
    . obtain ⟨error, herror⟩ := h.failed id' record hrecord hstate
      exact ⟨error, mem_append_left _ herror⟩
  handler a ha hid' record hrecord hstate := by
    rw [activity?_setRecord_of_ne s r (hid a ha hid')] at hrecord
    obtain ⟨activity, hactivity⟩ := h.handler a ha hid' record hrecord hstate
    exact ⟨activity, mem_append_left _ hactivity⟩
  status := h.status.grow _

theorem undo (h : Justified d log s) (activity : String) {id : String} (hid : id ∈ d.compensationTargets)
    {r : ActivityRecord} (hr : r.state = .completed)
    : Justified d (log ++ [.compensationStepCompleted activity id]) (s.setRecord id r) where
  completed id' record hrecord hstate hid' := by
    rw [activity?_setRecord] at hrecord
    split at hrecord
    next heq => exact absurd (heq ▸ hid) hid'
    . exact (h.note rfl).completed id' record hrecord hstate hid'
  failed id' record hrecord hstate := by
    rw [activity?_setRecord] at hrecord
    split at hrecord
    . cases hrecord
      rw [hr] at hstate
      cases hstate
    . exact (h.note rfl).failed id' record hrecord hstate
  handler a ha hid' record hrecord hstate := by
    rw [activity?_setRecord] at hrecord
    split at hrecord
    next heq => exact ⟨activity, by simp [heq]⟩
    . exact (h.note rfl).handler a ha hid' record hrecord hstate
  status := h.status.grow _

theorem turn (h : Justified d log s) {target : WorkflowState} {event : WorkflowEvent}
    (hturn : Turn d s target event) : Justified d (log ++ [event]) { s with status := target } := by
  have hnoted := h.note hturn.isCompletion
  refine ⟨hnoted.completed, hnoted.failed, hnoted.handler, ?_⟩
  have hstatus := h.status
  cases hturn with
  | finish => exact mem_append_right _ (mem_singleton_self _)
  | fail _ error => exact ⟨error, mem_append_right _ (mem_singleton_self _)⟩
  | rollback hfailed =>
    rw [hfailed] at hstatus
    obtain ⟨error, herror⟩ := hstatus
    exact ⟨by simp, error, mem_append_left _ herror⟩
  | settle hcompensating =>
    rw [hcompensating] at hstatus
    obtain ⟨-, error, herror⟩ := hstatus
    exact ⟨error, mem_append_left _ herror⟩

def Ahead (l : Layer) (log : List WorkflowEvent) (p : Option ExecutionState) (d : Definition)
    (s : ExecutionState) : Prop :=
  Covers p s ∧
    match l with
    | .owing event =>
      Justified d (log ++ [event]) s
        ∧ ∀ q, p = some q → Justified d log q → Justified d (log ++ [event]) q
    | _ => Justified d log s

theorem kept {q : ExecutionState} (h : Justified d log q) (hcovers : Covers (some q) s) {id : String}
    {r : ActivityRecord} (hchange : Changeable s id r) (output : Value)
    : Justified d (log ++ [.activityCompleted id output]) q := by
  apply h.grow
  intro id' record hrecord hstate
  rw [lastOutput_completed, if_neg]
  obtain ⟨record', hrecord', hfinished⟩ := hcovers q rfl id' record hrecord (.inl hstate)
  exact hchange.ne_of_finished hrecord' hfinished

theorem Ahead.justified (h : Ahead l log p d s) (hl : l.isOwing = false) : Justified d log s := by
  cases l with
  | owing event => cases hl
  | rest => exact h.2
  | busy id => exact h.2

theorem Ahead.move (hsane : d.Sane) (h : Ahead l log p d s) (hmove : Move e d s l l' t)
    : Ahead l' log p d t := by
  refine ⟨h.1.move hmove, ?_⟩
  have hopen {id : String} (hl : l = .rest ∨ l = .busy id) : Justified d log s := by
    apply h.justified
    cases hl with
    | inl hl => rw [hl]; rfl
    | inr hl => rw [hl]; rfl
  cases hmove with
  | @run id r hchange => exact (h.justified rfl).setRecord id (by simp)
  | @settle _ id r r' hchange hl hr' =>
    apply (hopen hl).setRecord id
    cases hstate : r'.state <;> simp [hstate, ActivityState.isIdle] at hr' ⊢
  | @fail _ id r r' error hchange hl hr' =>
    exact ⟨(hopen hl).fail id error hr', fun q _ hq => hq.note rfl⟩
  | @complete _ a output r hrun hl hsource =>
    obtain ⟨record, hrecord, hpending⟩ := hrun.pending
    have hcompleted := @complete _ _ _ (hopen hl) a.id output { r with state := .completed, output := some output }
      (fun b _ hb heq => hrun.forward (heq ▸ hb)) rfl rfl
    refine ⟨⟨hcompleted.completed, hcompleted.failed, hcompleted.handler, hcompleted.status⟩, ?_⟩
    intro q hq hjustified
    exact hjustified.kept (hq ▸ h.1) ⟨hrecord, .inl hpending⟩ output
  | @completeItem id index r output attempts hchange hanswer =>
    refine ⟨(h.justified rfl).complete ?_ rfl rfl, ?_⟩
    . exact fun b hb _ => instanceId_ne_plain (hsane.plain b hb)
    . exact fun q hq hjustified => hjustified.kept (hq ▸ h.1) hchange output
  | expand id index hnone => exact (h.justified rfl).setRecord _ (by simp)

theorem initial (d : Definition) (id : String) (input : Value) (version : Nat) (log : List WorkflowEvent)
    : Justified d log { Engine.initialState d id input with status := .running, version } := by
  have hcreated := Resumable.created_of_initial d id input
  refine ⟨?_, ?_, ?_, trivial⟩
  . intro id' record hrecord hstate
    rw [hcreated id' record hrecord] at hstate
    cases hstate
  . intro id' record hrecord hstate
    rw [hcreated id' record hrecord] at hstate
    cases hstate
  . intro a _ _ record hrecord hstate
    rw [hcreated a.id record hrecord] at hstate
    cases hstate

section

variable {definitions : String → Definition → Prop} {as : List (Act ω)}

def account (hfamily : Family e definitions as)
    (hunique : ∀ k d d', definitions k d → definitions k d' → d = d') : Account e where
  heir d k := definitions k d
  takes _ _ := True
  stored log s := ∃ d, definitions (e.backend.key s.executionId) d ∧ Justified d log s
  live := Ahead
  may _ _ := True
  child := Resumable.child_of_family hfamily
  begins log d id input version _ _ _ := ⟨Covers.self _, initial d id input version log⟩
  loads _ d s hd _ hs _ := by
    obtain ⟨d', hd', hjustified⟩ := hs
    rw [hunique _ d d' hd hd']
    exact ⟨Covers.self s, hjustified⟩
  stores _ _ d _ hd h := ⟨⟨d, hd, h.2⟩, Covers.self _, h.2⟩
  dress l _ _ _ _ _ _ h _ := by
    refine ⟨h.1, ?_⟩
    cases l with
    | owing event => exact ⟨⟨h.2.1.completed, h.2.1.failed, h.2.1.handler, h.2.1.status⟩, h.2.2⟩
    | _ => exact ⟨h.2.completed, h.2.failed, h.2.handler, h.2.status⟩
  move _ _ _ _ _ _ _ _ hsane _ h hmove := h.move hsane hmove
  note l _ _ _ _ _ h hevent hl := by
    have hnoted := (h.justified hl).note (isCompletion_of_isNeutral hevent)
    cases l with
    | owing event => cases hl
    | _ => exact ⟨h.1, hnoted⟩
  pay _ _ _ _ _ h := ⟨h.1, h.2.1⟩
  grows _ _ _ h hevent := by
    obtain ⟨d, hd, hjustified⟩ := h
    exact ⟨d, hd, hjustified.note hevent⟩
  paid _ q d _ _ hd h hq := by
    obtain ⟨d', hd', hjustified⟩ := hq
    rw [← hunique _ d d' hd hd'] at hjustified
    exact ⟨d, hd, h.2.2 q rfl hjustified⟩
  turn _ _ _ _ _ _ h hturn := ⟨h.1, h.2.turn hturn⟩
  undo _ _ _ _ activity id r attempts output h _ _ hid _ _ := by
    have hundone := h.2.undo activity hid
      (r := { r with state := .completed, attempts, output := some output }) rfl
    refine ⟨h.1.setCompleted id rfl, ?_, fun q _ hq => hq.note rfl⟩
    exact ⟨hundone.completed, hundone.failed, hundone.handler, hundone.status⟩
  calls _ _ _ _ _ _ _ _ _ := trivial

theorem skipOpen_open {record : ActivityRecord} (h : (Engine.skipOpen record).state ≠ .skipped)
    : Engine.skipOpen record = record := by
  unfold Engine.skipOpen at h ⊢
  cases hstate : record.state <;> simp [hstate] at h ⊢

theorem cancel (h : Justified d log s) (version : Nat)
    : Justified d (log ++ [.workflowCancelled]) { s.cancelled with version } := by
  have hopen (id : String) (record : ActivityRecord)
      (hrecord : { s.cancelled with version }.activity? id = some record)
      (hstate : record.state ≠ .skipped) : s.activity? id = some record := by
    unfold activity? cancelled closed at hrecord
    dsimp only at hrecord
    rw [Std.ExtTreeMap.getElem?_map] at hrecord
    obtain ⟨record', hrecord', rfl⟩ := Option.map_eq_some_iff.mp hrecord
    rw [skipOpen_open hstate]
    exact hrecord'
  have hnoted := @note _ _ _ h .workflowCancelled rfl
  refine ⟨?_, ?_, ?_, mem_append_right _ (mem_singleton_self _)⟩
  . intro id record hrecord hstate
    exact hnoted.completed id record (hopen id record hrecord (by simp [hstate])) hstate
  . intro id record hrecord hstate
    exact hnoted.failed id record (hopen id record hrecord (by simp [hstate])) hstate
  . intro a ha hid record hrecord hstate
    exact hnoted.handler a ha hid record (hopen a.id record hrecord (by simp [hstate])) hstate

theorem fits (hfamily : Family e definitions as)
    (hunique : ∀ k d d', definitions k d → definitions k d' → d = d') {a : Act ω} (ha : a ∈ as)
    : (account hfamily hunique).Fits a where
  sane := Definition.sane_of_validate (hfamily.validates.1 a ha)
  heir := hfamily.roots a ha
  input _ _ := trivial
  delivery _ _ _ _ _ _ h := by
    obtain ⟨d, hd, hjustified⟩ := h
    exact ⟨d, hd, hjustified.completed, hjustified.failed, hjustified.handler, hjustified.status⟩
  cancel _ _ _ version h _ := by
    obtain ⟨d, hd, hjustified⟩ := h
    exact ⟨d, hd, hjustified.cancel version⟩

end

end Justified

/--
Whatever is done for executions of which each has a definition, each time by a process that stops before
any of its writes: every checkpoint is justified by the log at that time.
-/
theorem justified_of_acts {ω : Type} (e : Engine ω) (x : ω) (as : List (Act ω))
    (definitions : String → Definition → Prop) (hfamily : Family e definitions as)
    (hunique : ∀ k d d', definitions k d → definitions k d' → d = d')
    : ∀ k s, (e.acts x as).checkpoints[k]? = some s →
        ∃ d, definitions k d ∧ Justified d ((e.acts x as).events[k]?.getD []) s := by
  intro k s hs
  have hstored := Account.stored_acts (A := Justified.account hfamily hunique) x
    (fun a ha => Justified.fits hfamily hunique ha) k s hs
  obtain ⟨d, hd, hjustified⟩ := hstored.2
  exact ⟨d, hstored.1 ▸ hd, hjustified⟩

theorem justified_of_acts_shipment
    : ((Saga.carrier.acts () [Saga.act (.start .null) 5, Saga.act .resume 6, Saga.act .resume 99]).latest
          Saga.carrier "order-1").isSome
        ∧ ∀ (k : String) (s : ExecutionState), (Saga.carrier.acts () [Saga.act (.start .null) 5, Saga.act .resume 6,
          Saga.act .resume 99]).checkpoints[k]? = some s →
        ∃ d, d = Saga.shipment ∧ Justified d ((Saga.carrier.acts () [Saga.act (.start .null) 5,
          Saga.act .resume 6, Saga.act .resume 99]).events[k]?.getD []) s := by
  have hvalid : Saga.shipment.validate Saga.carrier.platform = .ok () := by decide
  refine ⟨by decide +kernel, ?_⟩
  apply justified_of_acts Saga.carrier () _ (fun _ d => d = Saga.shipment)
  . exact .alone rfl hvalid (by simp [Saga.act])
  . exact fun _ _ _ h h' => h.trans h'.symm

end Wovyr.Workflow
