import Wovyr.Workflow.Account
import Wovyr.Workflow.Saga

/-!
This module contains what a recovery after a stop does not do again.
-/

namespace Wovyr.Workflow

def Covers (p : Option ExecutionState) (s : ExecutionState) : Prop :=
  ∀ q, p = some q → ∀ id record, q.activity? id = some record → Finished id record →
    ∃ record', s.activity? id = some record' ∧ Finished id record'

namespace Covers

variable {ω : Type} {e : Engine ω} {p : Option ExecutionState} {d : Definition} {s t : ExecutionState}

theorem self (s : ExecutionState) : Covers (some s) s := by
  intro q hq id record hrecord hfinished
  cases hq
  exact ⟨record, hrecord, hfinished⟩

theorem move {l l' : Layer} (h : Covers p s) (hmove : Move e d s l l' t) : Covers p t := by
  intro q hq id record hrecord hfinished
  obtain ⟨record', hrecord', hfinished'⟩ := h q hq id record hrecord hfinished
  exact ⟨record', hmove.finished hrecord' hfinished', hfinished'⟩

theorem setCompleted (h : Covers p s) (id : String) {r : ActivityRecord} (hr : r.state = .completed)
    : Covers p (s.setRecord id r) := by
  intro q hq id' record hrecord hfinished
  rw [ExecutionState.activity?_setRecord]
  split
  . exact ⟨r, rfl, .inl hr⟩
  . exact h q hq id' record hrecord hfinished

theorem not_finished (h : Covers p s) {context : ActivityContext}
    (hcall : Callable d s context) {q : ExecutionState} (hq : p = some q) {record : ActivityRecord}
    (hrecord : q.activity? context.id = some record) : ¬Finished context.id record := by
  intro hfinished
  obtain ⟨record', hrecord', hfinished'⟩ := h q hq _ record hrecord hfinished
  cases hcall with
  | activity hrun vars attempt =>
    obtain ⟨r, hr, hpending⟩ := hrun.pending
    exact (show Changeable s _ r from ⟨hr, .inl hpending⟩).ne_of_finished hrecord' hfinished' rfl
  | @item a index hitem spec vars attempt =>
    obtain ⟨r, hr, hstate⟩ := hitem
    have hchange : Changeable s (instanceId a.id index) r := ⟨hr, .inr ⟨hstate, a.id, index, rfl⟩⟩
    exact hchange.ne_of_finished hrecord' hfinished' rfl

end Covers

namespace Recovery

variable {ω : Type} {e : Engine ω}

def account (hchildren : ∀ a child, e.Resolves a child → child.validate e.platform = .ok ())
    : Account e where
  heir _ _ := True
  takes _ _ := True
  stored _ _ := True
  live _ _ p _ s := Covers p s
  may p context := ∀ q, p = some q → ∀ record, q.activity? context.id = some record →
    ¬Finished context.id record
  child _ _ a child _ _ _ hchild := ⟨trivial, Definition.sane_of_validate (hchildren a child hchild), trivial⟩
  begins _ _ _ _ _ _ _ _ := Covers.self _
  loads _ _ _ _ _ _ _ := Covers.self _
  stores _ _ _ _ _ _ := ⟨trivial, Covers.self _⟩
  dress _ _ _ _ _ _ _ h _ := h
  move _ _ _ _ _ _ _ _ _ _ h hmove := h.move hmove
  note _ _ _ _ _ _ h _ _ := h
  pay _ _ _ _ _ h := h
  grows _ _ _ _ _ := trivial
  paid _ _ _ _ _ _ _ _ := trivial
  turn _ _ _ _ _ _ h _ := h
  undo _ _ _ _ _ id r attempts output h _ _ _ _ _ :=
    h.setCompleted id (r := { r with state := .completed, attempts, output := some output }) rfl
  calls _ _ _ _ _ _ h _ hcall := fun _ hq _ hrecord => h.not_finished hcall hq hrecord

theorem fits {hchildren : ∀ a child, e.Resolves a child → child.validate e.platform = .ok ()} {a : Act ω}
    (hvalid : a.definition.validate e.platform = .ok ()) : (account hchildren).Fits a where
  sane := Definition.sane_of_validate hvalid
  heir := trivial
  input _ _ := trivial
  delivery _ _ _ _ _ _ _ := trivial
  cancel _ _ _ _ _ _ := trivial

end Recovery

open Recovery

/--
Whatever is done for executions, each time by a process that stops before any of its writes: an activity
on the way forward is not handed to the executor when its record in the checkpoint at that time is
completed, failed or skipped, nor is an item of a fan-out when its record is completed.
-/
theorem not_finished_of_call {ω : Type} (e : Engine ω) (x : ω) (as : List (Act ω)) (a : Act ω)
    (hvalid : e.Validates (as ++ [a]))
    : ∀ call ∈ e.latestCalls (e.acts x as) a, call.rollback = false →
      ∀ s, (e.acts x (as ++ [a])).latest e call.executionId = some s →
      ∀ record, s.activity? call.context.id = some record → ¬Finished call.context.id record := by
  have hfits : ∀ b ∈ as ++ [a], (account hvalid.2).Fits b :=
    fun b hb => fits (hvalid.1 b hb)
  have hstored := Account.stored_acts x fun b hb => hfits b (List.mem_append_left _ hb)
  have hlast : e.acts x (as ++ [a]) = (e.act (e.acts x as) a).2 := by
    unfold Engine.acts
    rw [List.foldl_append]
    rfl
  intro call hcall hrollback s hs record hrecord
  rw [hlast] at hs
  exact hstored.calls (hfits a (by simp)) call hcall hrollback s hs record hrecord

def Saga.act (operation : Operation) (writes : Nat) : Act Unit where
  definition := Saga.shipment
  executionId := "order-1"
  operation
  process := { executor := (), gas := 9, writes }

theorem not_finished_of_call_ship
    : Saga.carrier.Validates ([Saga.act (.start .null) 5] ++ [Saga.act .resume 4])
        ∧ ∀ call ∈ Saga.carrier.latestCalls (Saga.carrier.acts () [Saga.act (.start .null) 5])
            (Saga.act .resume 4), call.rollback = false →
          ∀ s, (Saga.carrier.acts () ([Saga.act (.start .null) 5] ++ [Saga.act .resume 4])).latest
              Saga.carrier call.executionId = some s →
          ∀ record, s.activity? call.context.id = some record → ¬Finished call.context.id record := by
  have hvalid : Saga.shipment.validate Saga.carrier.platform = .ok () := by decide
  have hfamily : Family Saga.carrier _ ([Saga.act (.start .null) 5] ++ [Saga.act .resume 4]) :=
    .alone rfl hvalid (by simp [Saga.act])
  exact ⟨hfamily.validates, not_finished_of_call Saga.carrier () _ _ hfamily.validates⟩

namespace Recovery

def inputs : Value :=
  .object [("items", .array [.null]), ("activity", .object [("type", .string "function")])]

def parts : Definition where
  metadata := { name := "parts" }
  spec := { activities := [{ id := "each", activityType := "for_each", inputs }] }

def splitting : Engine Unit where
  platform := .reading inputs { items := .array [.null], activity := { activityType := "function" } }
  backend := .memory
  execute _ _ := { executor := (), progress := [], reply := .error (.permanent "rejected") }
  nowMillis _ := 0
  timers := false
  subworkflows := none

def act (operation : Operation) (writes : Nat) : Act Unit :=
  { Saga.act operation writes with definition := parts }

end Recovery

-- The item is handed to the executor again though its record is that of a failure.
theorem called_failed_item
    : parts.validate splitting.platform = .ok ()
        ∧ ¬∀ call ∈ splitting.latestCalls
            (splitting.acts () [act (.start .null) 5,
              act .resume 4]) (act .resume 0),
          call.rollback = false →
          ∀ s, (splitting.acts () [act (.start .null) 5,
              act .resume 4, act .resume 0]).latest
                splitting call.executionId = some s →
          ∀ record, s.activity? call.context.id = some record → record.state.isSettled = false := by
  refine ⟨by decide +kernel, ?_⟩
  intro h
  have hcalls : (splitting.latestCalls
      (splitting.acts () [act (.start .null) 5,
        act .resume 4]) (act .resume 0)).map
        (fun call => (call.executionId, call.rollback, call.context.id))
      = [("order-1", false, "each[0]")] := by
    decide +kernel
  have hstate : (((splitting.acts () [act (.start .null) 5,
      act .resume 4, act .resume 0]).latest
        splitting "order-1").bind (·.activity? "each[0]")).map (·.state) = some .failed := by
    decide +kernel
  obtain ⟨record, hfound, hfailed⟩ := Option.map_eq_some_iff.mp hstate
  obtain ⟨s, hs, hrecord⟩ := Option.bind_eq_some_iff.mp hfound
  have hmem : ("order-1", false, "each[0]") ∈ [("order-1", false, "each[0]")] := List.mem_singleton_self _
  rw [← hcalls] at hmem
  obtain ⟨call, hcall, heq⟩ := List.mem_map.mp hmem
  simp only [Prod.mk.injEq] at heq
  obtain ⟨hid, hrollback, hcontext⟩ := heq
  rw [← hid] at hs
  rw [← hcontext] at hrecord
  have hopen := h call hcall hrollback s hs record hrecord
  rw [hfailed] at hopen
  cases hopen

end Wovyr.Workflow
