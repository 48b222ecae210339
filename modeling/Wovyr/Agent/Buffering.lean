import Wovyr.Agent.Steps

/-!
This module contains what a run with output guardrails lets through. Its streams are buffered, but a
tool call is announced as the model has written it.
-/

namespace Wovyr.Agent

open Provider Tools

def RunEvent.fromModel : RunEvent → Bool
  | .start _ _ | .memoryRetrieved _ _ | .done _ => false
  | .delta _ | .toolCallDelta _ _ _ | .reasoningDelta _ | .toolCall _ _ | .toolResult _ _ => true

namespace Setup

variable (setup : Setup)

def closing (out : AgentOutput) : List RunEvent :=
  (if out.text = "" then [] else [.delta out.text]) ++ [.done out.usage]

/--
Nothing that the model has written comes out, except for the final answer at the end of a successful
run, once all output guardrails have checked or rewritten it in order.
-/
def Covered (r : RunState) : Prop :=
  match r.phase with
  | .ended (.ok out) =>
    ∃ before x, r.exchanges.getLast? = some x
      ∧ Guardrails.Passes .output setup.opts.guardrails (x.response.message.content.getD "") out.text
      ∧ r.events = before ++ closing out ∧ ∀ e ∈ before, e.fromModel = false
  | _ => ∀ e ∈ r.events, e.fromModel = false

def Plain (r : RunState) (stream : Stream) : Prop :=
  ∀ request attempt response, r.phase = .asking request attempt →
    (streamChat setup.bufferStreaming stream).result = .ok response → response.message.toolCalls = []

theorem readEvents_buffer (completed : Option ChatResponse)
    (events : List (Except Error ChatStreamEvent)) : (readEvents true completed events).events = [] := by
  induction events generalizing completed with
  | nil => rfl
  | cons event events ih =>
    cases event with
    | error e => rfl
    | ok event =>
      unfold readEvents
      exact ih _

theorem streamChat_buffer (stream : Stream) : (streamChat true stream).events = [] := by
  unfold streamChat
  cases stream with
  | error e => rfl
  | ok events => exact readEvents_buffer none events

variable {setup}

theorem events_heard (hbuffer : setup.bufferStreaming = true) (r : RunState) (stream : Stream)
    : (setup.heard r stream).events = r.events := by
  unfold heard RunState.hear
  rw [hbuffer, streamChat_buffer]
  exact List.append_nil _

theorem covered_of_asking {r : RunState} {request : ChatRequest} {attempt : Nat}
    (h : r.phase = .asking request attempt)
    : setup.Covered r ↔ ∀ e ∈ r.events, e.fromModel = false := by
  unfold Covered
  rw [h]

theorem covered_of_error {r : RunState} {e : Error} (h : r.phase = .ended (.error e))
    : setup.Covered r ↔ ∀ e ∈ r.events, e.fromModel = false := by
  unfold Covered
  rw [h]

theorem exists_fromModel_called (r : RunState) (stream : Stream) (request : ChatRequest)
    {response : ChatResponse} (h : response.message.toolCalls ≠ [])
    : ∃ e ∈ (setup.called r stream request response).events, e.fromModel = true := by
  obtain ⟨call, hcall⟩ := List.exists_mem_of_ne_nil _ h
  refine ⟨.toolCall call.name call.arguments, ?_, rfl⟩
  apply List.mem_append_left
  apply List.mem_append_right
  exact List.mem_map.mpr ⟨call, hcall, rfl⟩

theorem covered_leaves (hbuffer : setup.bufferStreaming = true) {r t : RunState} {request : ChatRequest}
    {attempt : Nat} {stream : Stream} {response : ChatResponse} (hphase : r.phase = .asking request attempt)
    (h : setup.Leaves (setup.taken r stream request response) (response.message.content.getD "") t)
    : setup.Covered t ↔ setup.Covered r := by
  have hevents : (setup.taken r stream request response).events = r.events :=
    events_heard hbuffer r stream
  rw [covered_of_asking hphase]
  cases h with
  | refused =>
    rw [covered_of_error rfl, show ((setup.taken r stream request response).finish _).events = r.events
      from hevents]
  | @checked text _ _ happly =>
    have hlast : (setup.taken r stream request response).exchanges.getLast?
        = some (exchange r request response) :=
      List.getLast?_concat
    constructor
    . rintro ⟨before, x, _, _, hsplit, hbefore⟩
      have hclosed : (setup.taken r stream request response).events
            ++ closing ⟨text, (setup.taken r stream request response).usage,
              (setup.taken r stream request response).steps⟩
          = before ++ closing ⟨text, (setup.taken r stream request response).usage,
              (setup.taken r stream request response).steps⟩ := hsplit
      rw [hevents] at hclosed
      rw [List.append_cancel_right hclosed]
      exact hbefore
    . intro hold
      refine ⟨r.events, exchange r request response, hlast, (Guardrails.apply_eq_ok).mp happly, ?_, hold⟩
      rw [← hevents]
      rfl
  | unchecked _ hplain =>
    rw [hbuffer] at hplain
    cases hplain

theorem covered_answer_iff (hbuffer : setup.bufferStreaming = true) {r : RunState} (hasks : setup.Asks r)
    (stream : Stream) : setup.Covered (setup.answer r stream) ↔ setup.Covered r ∧ setup.Plain r stream := by
  have hsteps := steps_answer hasks stream
  generalize setup.answer r stream = t at hsteps ⊢
  cases hsteps with
  | idle hphase =>
    refine (and_iff_left ?_).symm
    intro _ _ _ hasking
    rw [hphase] at hasking
    cases hasking
  | retry hphase hresult =>
    have hplain : setup.Plain r stream := by
      intro _ _ _ _ hok
      rw [hresult] at hok
      cases hok
    rw [and_iff_left hplain, covered_of_asking rfl, covered_of_asking hphase]
    rw [show ({ setup.heard r stream with phase := _ } : RunState).events = r.events
      from events_heard hbuffer r stream]
  | failed hphase hresult =>
    have hplain : setup.Plain r stream := by
      intro _ _ _ _ hok
      rw [hresult] at hok
      cases hok
    rw [and_iff_left hplain, covered_of_error rfl, covered_of_asking hphase]
    rw [show ((setup.heard r stream).finish _).events = r.events from events_heard hbuffer r stream]
  | final hphase hresult hnone hleaves =>
    have hplain : setup.Plain r stream := by
      intro _ _ _ _ hok
      rw [hresult] at hok
      cases hok
      exact hnone
    rw [and_iff_left hplain, covered_leaves hbuffer hphase hleaves]
  | again hphase hresult hcalls =>
    obtain ⟨e, he, hmodel⟩ := @exists_fromModel_called setup r stream _ _ hcalls
    constructor
    . intro hcovered
      rw [(covered_of_asking rfl).mp hcovered e he] at hmodel
      cases hmodel
    . exact fun h => absurd (h.2 _ _ _ hphase hresult) hcalls
  | exhausted hphase hresult hcalls =>
    obtain ⟨e, he, hmodel⟩ := @exists_fromModel_called setup r stream _ _ hcalls
    constructor
    . intro hcovered
      rw [(covered_of_error rfl).mp hcovered e he] at hmodel
      cases hmodel
    . exact fun h => absurd (h.2 _ _ _ hphase hresult) hcalls

theorem covered_start : setup.Covered setup.start := by
  have hfresh : setup.Fresh setup.start := fresh_start
  have hevents : ∀ e ∈ setup.start.events, e.fromModel = false := by
    intro e he
    rcases hfresh.events e he with ⟨_, _, rfl⟩ | ⟨_, _, rfl⟩
    . rfl
    . rfl
  unfold Covered
  split
  . rename_i out hphase
    exact absurd hphase (hfresh.unanswered out)
  . exact hevents

-- With output guardrails, what the model has written stays covered exactly as long as no response asks
-- for tools.
theorem covered_iff_plain (setup : Setup) (hchecks : Guardrails.checksOutput setup.opts.guardrails = true)
    (streams : List Stream)
    : setup.Covered (setup.run streams)
        ↔ Run (Guarded setup.Plain setup.answer) setup.start streams (setup.run streams) := by
  apply Run.iff_guarded (I := setup.Asks) (P := setup.Covered)
  . exact fun _ stream h => asks_step h stream
  . exact fun _ stream h => covered_answer_iff hchecks h stream
  . exact (fresh_start).asks
  . exact covered_start

def masking (word mask : String) : Guardrail where
  name := "mask"
  check := fun _ content => .ok (if content = word then .redact mask else .allow)

def maskedRun : Setup :=
  localRun { name := "hello", instructions := "Greet the user.", tools := ["echo"] }
    (ToolRegistry.new.register (constantTool "echo" [])) [masking "secret" "[masked]"]

theorem covered_iff_plain_masked
    : maskedRun.Covered
        (maskedRun.run [.ok [.ok (.delta "secret"), .ok (.done (finalAnswer "secret" 10))]]) := by
  apply (covered_iff_plain maskedRun (by decide) _).mpr
  refine .cons ⟨?_, rfl⟩ (.nil _)
  intro _ _ _ _ hok
  cases hok
  rfl

-- The model writes the word into the arguments of a tool call.
theorem not_covered_arguments
    : ¬maskedRun.Covered (maskedRun.run [.ok [.ok (.done (toolRequest "echo" "secret" 10))]]) := by
  have hasking : ∃ request, (maskedRun.run [.ok [.ok (.done (toolRequest "echo" "secret" 10))]]).phase
      = .asking request 0 := ⟨_, rfl⟩
  obtain ⟨request, hphase⟩ := hasking
  intro h
  have hevents := (covered_of_asking hphase).mp h
  have hannounced : .toolCall "echo" "secret"
      ∈ (maskedRun.run [.ok [.ok (.done (toolRequest "echo" "secret" 10))]]).events := by
    decide
  cases hevents _ hannounced

end Wovyr.Agent.Setup
