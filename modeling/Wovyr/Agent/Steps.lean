import Wovyr.Agent.Runtime
import Wovyr.Lib.Run

/-!
This module contains what an answer of the gateway can do to a run, one case for each way the loop
goes on or ends.
-/

namespace Wovyr.Agent

open Provider Tools

namespace Setup

variable (setup : Setup)

-- The final answer ends the run with an error.
def Refuses (r : RunState) (finalText : String) : Prop :=
  (r.steps = setup.maxSteps ∧ finalText = "")
    ∨ (setup.bufferStreaming = true
      ∧ ∃ e, Guardrails.apply .output setup.opts.guardrails finalText = .error e)

inductive Leaves (r : RunState) (finalText : String) : RunState → Prop where
  | refused {e : Error} : setup.Refuses r finalText → Leaves r finalText (r.finish (.error e))
  | checked {text : String} :
    ¬setup.Refuses r finalText → setup.bufferStreaming = true →
    Guardrails.apply .output setup.opts.guardrails finalText = .ok text →
    Leaves r finalText ((r.emit ((if text = "" then [] else [.delta text]) ++ [.done r.usage])).finish
      (.ok { text, usage := r.usage, steps := r.steps }))
  | unchecked :
    ¬setup.Refuses r finalText → setup.bufferStreaming = false →
    Leaves r finalText ((r.emit [.done r.usage]).finish
      (.ok { text := finalText, usage := r.usage, steps := r.steps }))

theorem leaves_leave (r : RunState) (finalText : String)
    : setup.Leaves r finalText (setup.leave r finalText) := by
  unfold leave
  by_cases hunfinished : r.steps = setup.maxSteps ∧ finalText = ""
  . rw [if_pos hunfinished]
    exact .refused (.inl hunfinished)
  . rw [if_neg hunfinished]
    cases hbuffer : setup.bufferStreaming with
    | false =>
      apply Leaves.unchecked ?_ hbuffer
      rintro (h | ⟨h, _⟩)
      . exact hunfinished h
      . rw [hbuffer] at h
        cases h
    | true =>
      rw [if_pos rfl]
      cases happly : Guardrails.apply .output setup.opts.guardrails finalText with
      | error e => exact .refused (.inr ⟨hbuffer, e, happly⟩)
      | ok text =>
        apply Leaves.checked ?_ hbuffer happly
        rintro (h | ⟨_, e, h⟩)
        . exact hunfinished h
        . rw [happly] at h
          cases h

theorem nextStep_of_lt {r : RunState} (h : r.steps < setup.maxSteps)
    : ∃ messages, setup.nextStep r
        =
      { r with messages, phase := .asking (setup.stepRequest r messages) 0 } := by
  unfold nextStep
  rw [if_pos h]
  exact ⟨_, rfl⟩

theorem nextStep_of_eq {r : RunState} (h : r.steps = setup.maxSteps)
    : ∃ e, setup.nextStep r = r.finish (.error e) := by
  unfold nextStep leave
  rw [if_neg (by omega), if_pos ⟨h, rfl⟩]
  exact ⟨_, rfl⟩

structure Asks (r : RunState) : Prop where
  tools : ∀ spec ∈ r.tools, spec.name ∈ setup.definition.tools
  request : ∀ request attempt, r.phase = .asking request attempt →
    r.steps < setup.maxSteps ∧ (∀ spec ∈ request.tools, spec ∈ r.tools)
      ∧ (r.steps + 1 = setup.maxSteps → request.tools = [])

def heard (r : RunState) (stream : Stream) : RunState :=
  r.hear (streamChat setup.bufferStreaming stream)

def exchange (r : RunState) (request : ChatRequest) (response : ChatResponse) : Exchange :=
  { step := r.steps, request, response }

def taken (r : RunState) (stream : Stream) (request : ChatRequest) (response : ChatResponse) : RunState :=
  setup.take (setup.heard r stream) (exchange r request response)

def called (r : RunState) (stream : Stream) (request : ChatRequest) (response : ChatResponse) : RunState :=
  setup.callTools (setup.taken r stream request response) (exchange r request response)

inductive Steps (r : RunState) (stream : Stream) : RunState → Prop where
  | idle {result : Except Error AgentOutput} : r.phase = .ended result → Steps r stream r
  | retry {request : ChatRequest} {attempt : Nat} {e : Error} :
    r.phase = .asking request attempt → (streamChat setup.bufferStreaming stream).result = .error e →
    isTransient e = true ∧ attempt < setup.opts.stepRetries →
    Steps r stream { setup.heard r stream with phase := .asking request (attempt + 1) }
  | failed {request : ChatRequest} {attempt : Nat} {e : Error} :
    r.phase = .asking request attempt → (streamChat setup.bufferStreaming stream).result = .error e →
    ¬(isTransient e = true ∧ attempt < setup.opts.stepRetries) →
    Steps r stream ((setup.heard r stream).finish (.error e))
  | final {request : ChatRequest} {attempt : Nat} {response : ChatResponse} {t : RunState} :
    r.phase = .asking request attempt → (streamChat setup.bufferStreaming stream).result = .ok response →
    response.message.toolCalls = [] →
    setup.Leaves (setup.taken r stream request response) (response.message.content.getD "") t →
    Steps r stream t
  | again {request : ChatRequest} {attempt : Nat} {response : ChatResponse} {messages : List Message} :
    r.phase = .asking request attempt → (streamChat setup.bufferStreaming stream).result = .ok response →
    response.message.toolCalls ≠ [] → r.steps + 1 < setup.maxSteps →
    Steps r stream { setup.called r stream request response with
      messages
      phase := .asking (setup.stepRequest (setup.called r stream request response) messages) 0 }
  | exhausted {request : ChatRequest} {attempt : Nat} {response : ChatResponse} {e : Error} :
    r.phase = .asking request attempt → (streamChat setup.bufferStreaming stream).result = .ok response →
    response.message.toolCalls ≠ [] → r.steps + 1 = setup.maxSteps →
    Steps r stream ((setup.called r stream request response).finish (.error e))

variable {setup}

theorem steps_answer {r : RunState} (hasks : setup.Asks r) (stream : Stream)
    : setup.Steps r stream (setup.answer r stream) := by
  unfold answer
  cases hphase : r.phase with
  | ended result => exact .idle hphase
  | asking request attempt =>
    dsimp only
    cases hresult : (streamChat setup.bufferStreaming stream).result with
    | error e =>
      dsimp only
      split
      . rename_i hagain
        exact .retry hphase hresult hagain
      . rename_i hlast
        exact .failed hphase hresult hlast
    | ok response =>
      obtain ⟨hlt, _⟩ := hasks.request request attempt hphase
      dsimp only
      unfold accept
      dsimp only
      split
      . rename_i hnone
        exact .final hphase hresult hnone (setup.leaves_leave _ _)
      . rename_i hcalls
        by_cases hlast : r.steps + 1 = setup.maxSteps
        . obtain ⟨e, hnext⟩ := setup.nextStep_of_eq (r := setup.called r stream request response) hlast
          exact hnext ▸ Steps.exhausted hphase hresult hcalls hlast
        . have hmore : r.steps + 1 < setup.maxSteps := by omega
          obtain ⟨messages, hnext⟩ :=
            setup.nextStep_of_lt (r := setup.called r stream request response) hmore
          exact hnext ▸ Steps.again hphase hresult hcalls hmore

theorem stepRequest_tools (r : RunState) (messages : List Message)
    : (∀ spec ∈ (setup.stepRequest r messages).tools, spec ∈ r.tools)
      ∧ (r.steps + 1 = setup.maxSteps → (setup.stepRequest r messages).tools = []) := by
  unfold stepRequest
  dsimp only
  split
  . exact ⟨nofun, fun _ => rfl⟩
  . rename_i hoffered
    refine ⟨fun _ h => h, ?_⟩
    intro hlast
    by_contra hne
    exact hoffered ⟨hlast, hne⟩

theorem Asks.of_ended {r : RunState} {result : Except Error AgentOutput}
    (htools : ∀ spec ∈ r.tools, spec.name ∈ setup.definition.tools) (h : r.phase = .ended result)
    : setup.Asks r := by
  refine ⟨htools, ?_⟩
  intro request attempt hphase
  rw [h] at hphase
  cases hphase

theorem asks_step {r : RunState} (hasks : setup.Asks r) (stream : Stream)
    : setup.Asks (setup.answer r stream) := by
  have hsteps := steps_answer hasks stream
  generalize setup.answer r stream = t at hsteps ⊢
  cases hsteps with
  | idle => exact hasks
  | retry hphase _ _ =>
    refine ⟨hasks.tools, ?_⟩
    rintro _ _ ⟨⟩
    exact hasks.request _ _ hphase
  | failed => exact .of_ended hasks.tools rfl
  | final _ _ _ hleaves =>
    cases hleaves with
    | refused => exact .of_ended hasks.tools rfl
    | checked => exact .of_ended hasks.tools rfl
    | unchecked => exact .of_ended hasks.tools rfl
  | again _ _ _ hmore =>
    refine ⟨hasks.tools, ?_⟩
    rintro _ _ ⟨⟩
    exact ⟨hmore, stepRequest_tools _ _⟩
  | exhausted => exact .of_ended hasks.tools rfl

theorem resolveTools_names {ids : List String} {specs : List ToolSpec}
    (h : setup.resolveTools ids = .ok specs) : ∀ spec ∈ specs, spec.name ∈ ids := by
  induction ids generalizing specs with
  | nil =>
    cases h
    nofun
  | cons id ids ih =>
    unfold resolveTools at h
    cases hget : setup.registry.get id with
    | none =>
      rw [hget] at h
      cases h
    | some tool =>
      rw [hget] at h
      obtain ⟨rest, hrest, hspecs⟩ := (bind_eq_ok _ _ _).mp h
      cases hspecs
      intro spec hspec
      rcases List.mem_cons.mp hspec with rfl | hmem
      . rw [show (toolSpec tool).name = id from ToolRegistry.id_of_get hget]
        exact List.mem_cons_self
      . exact List.mem_cons_of_mem _ (ih hrest spec hmem)

theorem prepare_names {tools : List ToolSpec} {hits : List RetrievedContext} {messages : List Message}
    (h : setup.prepare = .ok (tools, hits, messages))
    : ∀ spec ∈ tools, spec.name ∈ setup.definition.tools := by
  unfold prepare at h
  obtain ⟨specs, hspecs, h⟩ := (bind_eq_ok _ _ _).mp h
  obtain ⟨prompt, _, h⟩ := (bind_eq_ok _ _ _).mp h
  have heq : specs = tools := by
    split at h
    . split at h
      . obtain ⟨hits, _, h⟩ := (bind_eq_ok _ _ _).mp h
        cases h
        rfl
      . cases h
        rfl
    . cases h
      rfl
  rw [← heq]
  exact resolveTools_names hspecs

structure Fresh (setup : Setup) (r : RunState) : Prop where
  asks : setup.Asks r
  usage : r.usage = {}
  receivedTokens : r.receivedTokens = 0
  exchanges : r.exchanges = []
  executions : r.executions = []
  events : ∀ e ∈ r.events, (∃ model provider, e = .start model provider)
    ∨ ∃ source score, e = .memoryRetrieved source score
  unanswered : ∀ out, r.phase ≠ .ended (.ok out)
  first : ∀ request attempt, r.phase = .asking request attempt → attempt = 0

theorem fresh_start : setup.Fresh setup.start := by
  unfold start
  split
  . constructor
    . exact .of_ended nofun rfl
    . rfl
    . rfl
    . rfl
    . rfl
    . nofun
    . nofun
    . nofun
  . dsimp only
    cases hprepare : setup.prepare with
    | error e =>
      constructor
      . exact .of_ended nofun rfl
      . rfl
      . rfl
      . rfl
      . rfl
      . intro e he
        cases List.mem_singleton.mp he
        exact Or.inl ⟨_, _, rfl⟩
      . nofun
      . nofun
    | ok prepared =>
      obtain ⟨tools, hits, messages⟩ := prepared
      have hevents : ∀ e ∈ RunEvent.start
          (resolveModel setup.providerName setup.definition.model setup.definition.selector)
          setup.providerName :: hits.map (fun hit => RunEvent.memoryRetrieved hit.source hit.score),
          (∃ model provider, e = .start model provider)
            ∨ ∃ source score, e = .memoryRetrieved source score := by
        intro e he
        rcases List.mem_cons.mp he with rfl | hmem
        . exact Or.inl ⟨_, _, rfl⟩
        . obtain ⟨hit, _, rfl⟩ := List.mem_map.mp hmem
          exact Or.inr ⟨_, _, rfl⟩
      dsimp only
      by_cases hnone : setup.maxSteps = 0
      . obtain ⟨e, hnext⟩ := setup.nextStep_of_eq (r := {
          tools, messages
          phase := .ended (.error (.runtime ""))
          events := .start (resolveModel setup.providerName setup.definition.model
            setup.definition.selector) setup.providerName
            :: hits.map fun hit => .memoryRetrieved hit.source hit.score }) hnone.symm
        rw [hnext]
        constructor
        . exact .of_ended (prepare_names hprepare) rfl
        . rfl
        . rfl
        . rfl
        . rfl
        . exact hevents
        . nofun
        . nofun
      . obtain ⟨sent, hnext⟩ := setup.nextStep_of_lt (r := {
          tools, messages
          phase := .ended (.error (.runtime ""))
          events := .start (resolveModel setup.providerName setup.definition.model
            setup.definition.selector) setup.providerName
            :: hits.map fun hit => .memoryRetrieved hit.source hit.score }) (Nat.pos_of_ne_zero hnone)
        rw [hnext]
        constructor
        . refine ⟨prepare_names hprepare, ?_⟩
          rintro _ _ ⟨⟩
          exact ⟨Nat.pos_of_ne_zero hnone, stepRequest_tools _ _⟩
        . rfl
        . rfl
        . rfl
        . rfl
        . exact hevents
        . nofun
        . rintro _ _ ⟨⟩
          rfl


def answersEnough : Nat :=
  setup.maxSteps * (setup.opts.stepRetries + 1)

structure Waits (setup : Setup) (left : Nat) (r : RunState) : Prop where
  asks : setup.Asks r
  left : ∀ request attempt, r.phase = .asking request attempt → attempt ≤ setup.opts.stepRetries
    ∧ (setup.maxSteps - r.steps) * (setup.opts.stepRetries + 1) ≤ left + attempt

theorem waits_answer {r : RunState} {left : Nat} (h : setup.Waits (left + 1) r) (stream : Stream)
    : setup.Waits left (setup.answer r stream) := by
  refine ⟨asks_step h.asks stream, ?_⟩
  have hsteps := steps_answer h.asks stream
  generalize setup.answer r stream = t at hsteps ⊢
  intro request attempt hasking
  cases hsteps with
  | idle hphase =>
    rw [hphase] at hasking
    cases hasking
  | retry hphase _ hagain =>
    cases hasking
    obtain ⟨_, hleft⟩ := h.left _ _ hphase
    refine ⟨hagain.2, ?_⟩
    show (setup.maxSteps - r.steps) * (setup.opts.stepRetries + 1) ≤ _
    omega
  | failed => cases hasking
  | final _ _ _ hleaves =>
    cases hleaves with
    | refused => cases hasking
    | checked => cases hasking
    | unchecked => cases hasking
  | again hphase _ _ hmore =>
    cases hasking
    obtain ⟨hattempt, hleft⟩ := h.left _ _ hphase
    refine ⟨Nat.zero_le _, ?_⟩
    show (setup.maxSteps - (r.steps + 1)) * (setup.opts.stepRetries + 1) ≤ _
    have hone : setup.maxSteps - r.steps = setup.maxSteps - (r.steps + 1) + 1 := by omega
    rw [hone, Nat.add_mul, Nat.one_mul] at hleft
    omega
  | exhausted => cases hasking

theorem waits_start (setup : Setup) : setup.Waits setup.answersEnough setup.start := by
  have hfresh : setup.Fresh setup.start := fresh_start
  refine ⟨hfresh.asks, ?_⟩
  intro request attempt hphase
  rw [hfresh.first request attempt hphase]
  refine ⟨Nat.zero_le _, ?_⟩
  exact Nat.mul_le_mul_right _ (Nat.sub_le _ _)

theorem Waits.ended {r : RunState} (h : setup.Waits 0 r) : ∃ result, r.phase = .ended result := by
  cases hphase : r.phase with
  | ended result => exact ⟨result, rfl⟩
  | asking request attempt =>
    obtain ⟨hlt, _⟩ := h.asks.request request attempt hphase
    obtain ⟨hattempt, hleft⟩ := h.left request attempt hphase
    have hone : setup.maxSteps - r.steps = setup.maxSteps - (r.steps + 1) + 1 := by omega
    rw [hone, Nat.add_mul, Nat.one_mul] at hleft
    omega

theorem Waits.mono {r : RunState} {left more : Nat} (h : setup.Waits left r) (hle : left ≤ more)
    : setup.Waits more r := by
  refine ⟨h.asks, ?_⟩
  intro request attempt hphase
  obtain ⟨hattempt, hleft⟩ := h.left request attempt hphase
  exact ⟨hattempt, by omega⟩

theorem waits_foldl {r : RunState} {left : Nat} (h : setup.Waits left r) (streams : List Stream)
    : setup.Waits (left - streams.length) (streams.foldl setup.answer r) := by
  induction streams generalizing r left with
  | nil => exact h
  | cons stream streams ih =>
    have hnext := ih (waits_answer (h.mono (by omega : left ≤ left - 1 + 1)) stream)
    rw [List.length_cons, Nat.add_comm, ← Nat.sub_sub]
    exact hnext

theorem ended_of_length (streams : List Stream) (h : setup.answersEnough ≤ streams.length)
    : ∃ result, (setup.run streams).phase = .ended result := by
  have hwaits := waits_foldl (waits_start setup) streams
  rw [Nat.sub_eq_zero_of_le h] at hwaits
  exact hwaits.ended

end Wovyr.Agent.Setup
