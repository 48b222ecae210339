import Wovyr.Agent.Steps

/-!
This module contains which tools a run executes. The loop looks a call up in the registry, which holds
more than what the request has advertised.
-/

namespace Wovyr.Agent

open Provider Tools List

namespace Setup

variable (setup : Setup)

def Advertised (request : ChatRequest) (call : ToolCall) : Prop :=
  ∃ spec ∈ request.tools, spec.name = call.name

-- What the manifest grants. A hosted run without such a block is granted nothing.
def Granted (permissions : List String) : Prop :=
  match setup.definition.permissions with
  | some perms => ∀ p ∈ permissions, p ∈ perms
  | none =>
    setup.opts.hosted = true → setup.unrestrictedToolsEscapeHatch = false → ∀ p ∈ permissions, False

structure Own (e : Execution) : Prop where
  asked : e.call ∈ e.exchange.response.message.toolCalls
  named : e.tool.metadata.id = e.call.name
  advertised : Advertised e.exchange.request e.call
  listed : e.tool.metadata.id ∈ setup.definition.tools
  early : e.exchange.step + 1 < setup.maxSteps
  granted : setup.Granted e.tool.metadata.permissions

def UsesOwnTools (r : RunState) : Prop :=
  ∀ e ∈ r.executions, e.exchange ∈ r.exchanges ∧ setup.Own e

-- A call of a registered tool with well-formed arguments and all permissions.
def Executable (call : ToolCall) : Prop :=
  ∃ tool, setup.registry.get call.name = some tool
    ∧ (∃ parameters, setup.parseArguments call.arguments = .ok parameters)
    ∧ setup.Granted tool.metadata.permissions

def Offered (r : RunState) (stream : Stream) : Prop :=
  ∀ request attempt response, r.phase = .asking request attempt →
    (streamChat setup.bufferStreaming stream).result = .ok response →
      ∀ call ∈ response.message.toolCalls, setup.Executable call → Advertised request call

theorem checkPermissions_toolContext (permissions : List String) (step idx : Nat)
    : checkPermissions permissions (setup.toolContext step idx) = .ok () ↔ setup.Granted permissions := by
  rw [checkPermissions_eq_ok]
  unfold toolContext grantedPermissions Granted
  dsimp only
  cases setup.definition.permissions with
  | some perms =>
    constructor
    . exact fun h => h perms rfl
    . rintro h _ ⟨⟩
      exact h
  | none =>
    dsimp only
    constructor
    . intro h hhosted hescape p hp
      have hnone := h [] (by rw [hhosted, hescape]; rfl) p hp
      cases hnone
    . intro h granted hgranted p hp
      split at hgranted
      . rename_i hdenied
        rw [Bool.and_eq_true, Bool.not_eq_true'] at hdenied
        exact absurd (h hdenied.1 hdenied.2 p hp) id
      . cases hgranted

theorem executeToolCall_eq_some (step idx : Nat) (call : ToolCall) (tool : Tool)
    : (setup.executeToolCall step idx call).1 = some tool
        ↔ setup.registry.get call.name = some tool
          ∧ (∃ parameters, setup.parseArguments call.arguments = .ok parameters)
          ∧ setup.Granted tool.metadata.permissions := by
  unfold executeToolCall
  cases hget : setup.registry.get call.name with
  | none => exact ⟨nofun, nofun⟩
  | some found =>
    cases hparse : setup.parseArguments call.arguments with
    | error e =>
      refine ⟨nofun, ?_⟩
      rintro ⟨_, ⟨_, hparameters⟩, _⟩
      cases hparameters
    | ok parameters =>
      dsimp only
      cases hcheck : checkPermissions found.metadata.permissions (setup.toolContext step idx) with
      | error e =>
        refine ⟨nofun, ?_⟩
        rintro ⟨hfound, _, hgranted⟩
        cases hfound
        rw [(setup.checkPermissions_toolContext _ step idx).mpr hgranted] at hcheck
        cases hcheck
      | ok =>
        have hgranted := (setup.checkPermissions_toolContext _ step idx).mp hcheck
        have hiff : some found = some tool ↔ some found = some tool
            ∧ (∃ p, Except.ok (ε := String) parameters = Except.ok p)
            ∧ setup.Granted tool.metadata.permissions := by
          constructor
          . rintro ⟨⟩
            exact ⟨rfl, ⟨parameters, rfl⟩, hgranted⟩
          . exact fun h => h.1
        dsimp only
        cases found.execute (setup.toolContext step idx) parameters with
        | ok => exact hiff
        | error => exact hiff

def executed (x : Exchange) : List Execution :=
  (setup.executeAll x.step x.response.message.toolCalls).filterMap fun (call, tool, ctx, _) =>
    tool.map fun tool => { exchange := x, call, tool, ctx }

theorem mem_executed {x : Exchange} {e : Execution} (h : e ∈ setup.executed x)
    : e.exchange = x ∧ e.call ∈ x.response.message.toolCalls
      ∧ setup.registry.get e.call.name = some e.tool
      ∧ (∃ parameters, setup.parseArguments e.call.arguments = .ok parameters)
      ∧ setup.Granted e.tool.metadata.permissions := by
  obtain ⟨⟨call, tool, ctx, outcome⟩, hmem, hsome⟩ := mem_filterMap.mp h
  obtain ⟨⟨call', idx⟩, hidx, heq⟩ := mem_map.mp hmem
  obtain ⟨found, htool, rfl⟩ := Option.map_eq_some_iff.mp hsome
  simp only [Prod.mk.injEq] at heq
  obtain ⟨rfl, hfst, -, -⟩ := heq
  rw [htool] at hfst
  exact ⟨rfl, fst_mem_of_mem_zipIdx hidx, (setup.executeToolCall_eq_some _ _ _ _).mp hfst⟩

theorem executed_of_executable {x : Exchange} {call : ToolCall} (hcall : call ∈ x.response.message.toolCalls)
    (h : setup.Executable call) : ∃ e ∈ setup.executed x, e.call = call ∧ e.exchange = x := by
  obtain ⟨tool, htool⟩ := h
  obtain ⟨idx, hidx⟩ := mem_iff_getElem?.mp hcall
  have hfst := (setup.executeToolCall_eq_some x.step idx call tool).mpr htool
  refine ⟨{ exchange := x, call, tool, ctx := setup.toolContext x.step idx }, ?_, rfl, rfl⟩
  apply mem_filterMap.mpr
  refine ⟨_, mem_map.mpr ⟨(call, idx), mk_mem_zipIdx_iff_getElem?.mpr hidx, rfl⟩, ?_⟩
  dsimp only
  rw [hfst]
  rfl

variable {setup}

theorem executions_answer {r : RunState} (hasks : setup.Asks r) (stream : Stream)
    : ((setup.answer r stream).executions = r.executions
        ∧ (∃ more, (setup.answer r stream).exchanges = r.exchanges ++ more)
        ∧ ∀ request attempt response, r.phase = .asking request attempt →
            (streamChat setup.bufferStreaming stream).result = .ok response →
              response.message.toolCalls = [])
      ∨ ∃ request attempt response, r.phase = .asking request attempt
        ∧ (streamChat setup.bufferStreaming stream).result = .ok response
        ∧ (setup.answer r stream).executions
            = r.executions ++ setup.executed (exchange r request response)
        ∧ (setup.answer r stream).exchanges = r.exchanges ++ [exchange r request response] := by
  have hsteps := steps_answer hasks stream
  generalize setup.answer r stream = t at hsteps ⊢
  cases hsteps with
  | idle hphase =>
    left
    refine ⟨rfl, ⟨[], (append_nil _).symm⟩, ?_⟩
    intro _ _ _ hasking
    rw [hphase] at hasking
    cases hasking
  | retry _ hresult _ =>
    left
    refine ⟨rfl, ⟨[], (append_nil _).symm⟩, ?_⟩
    intro _ _ _ _ hok
    rw [hresult] at hok
    cases hok
  | failed _ hresult _ =>
    left
    refine ⟨rfl, ⟨[], (append_nil _).symm⟩, ?_⟩
    intro _ _ _ _ hok
    rw [hresult] at hok
    cases hok
  | final _ hresult hnone hleaves =>
    left
    have hnocalls : ∀ request attempt response, r.phase = .asking request attempt →
        (streamChat setup.bufferStreaming stream).result = .ok response →
          response.message.toolCalls = [] := by
      intro _ _ _ _ hok
      rw [hresult] at hok
      cases hok
      exact hnone
    cases hleaves with
    | refused => exact ⟨rfl, ⟨_, rfl⟩, hnocalls⟩
    | checked => exact ⟨rfl, ⟨_, rfl⟩, hnocalls⟩
    | unchecked => exact ⟨rfl, ⟨_, rfl⟩, hnocalls⟩
  | again hphase hresult => exact Or.inr ⟨_, _, _, hphase, hresult, rfl, rfl⟩
  | exhausted hphase hresult => exact Or.inr ⟨_, _, _, hphase, hresult, rfl, rfl⟩

theorem own_of_advertised {r : RunState} (hasks : setup.Asks r) {request : ChatRequest} {attempt : Nat}
    {response : ChatResponse} (hphase : r.phase = .asking request attempt) {e : Execution}
    (he : e ∈ setup.executed (exchange r request response)) (h : Advertised request e.call)
    : setup.Own e := by
  obtain ⟨hexchange, hcall, hget, _, hgranted⟩ := setup.mem_executed he
  obtain ⟨hlt, hoffered, hlast⟩ := hasks.request request attempt hphase
  obtain ⟨spec, hspec, hname⟩ := h
  have hid : e.tool.metadata.id = e.call.name := ToolRegistry.id_of_get hget
  constructor
  . rw [hexchange]
    exact hcall
  . exact hid
  . rw [hexchange]
    exact ⟨spec, hspec, hname⟩
  . rw [hid, ← hname]
    exact hasks.tools spec (hoffered spec hspec)
  . rw [hexchange]
    have hne : r.steps + 1 ≠ setup.maxSteps := by
      intro heq
      rw [hlast heq] at hspec
      cases hspec
    show r.steps + 1 < setup.maxSteps
    omega
  . exact hgranted

structure Recorded (setup : Setup) (r : RunState) : Prop where
  asks : setup.Asks r
  exchanges : ∀ e ∈ r.executions, e.exchange ∈ r.exchanges

theorem recorded_answer {r : RunState} (h : setup.Recorded r) (stream : Stream)
    : setup.Recorded (setup.answer r stream) := by
  refine ⟨asks_step h.asks stream, ?_⟩
  rcases executions_answer h.asks stream with ⟨hexecutions, ⟨more, hexchanges⟩, _⟩
    | ⟨request, attempt, response, hphase, _, hexecutions, hexchanges⟩
  . rw [hexecutions, hexchanges]
    exact fun e he => mem_append_left _ (h.exchanges e he)
  . rw [hexecutions, hexchanges]
    intro e he
    rcases mem_append.mp he with hold | hnew
    . exact mem_append_left _ (h.exchanges e hold)
    . rw [(setup.mem_executed hnew).1]
      exact mem_append_right _ mem_cons_self

theorem own_answer_iff {r : RunState} (h : setup.Recorded r) (stream : Stream)
    : (∀ e ∈ (setup.answer r stream).executions, setup.Own e)
        ↔ (∀ e ∈ r.executions, setup.Own e) ∧ setup.Offered r stream := by
  rcases executions_answer h.asks stream with ⟨hexecutions, _, hnone⟩
    | ⟨request, attempt, response, hphase, hresult, hexecutions, _⟩
  . rw [hexecutions]
    constructor
    . intro hown
      refine ⟨hown, ?_⟩
      intro request attempt response hasking hok call hcall
      rw [hnone request attempt response hasking hok] at hcall
      cases hcall
    . exact fun hown => hown.1
  . rw [hexecutions]
    constructor
    . intro hown
      refine ⟨fun e he => hown e (mem_append_left _ he), ?_⟩
      intro request' attempt' response' hasking hok call hcall hexecutable
      rw [hphase] at hasking
      rw [hresult] at hok
      cases hasking
      cases hok
      obtain ⟨e, he, rfl, hexchange⟩ := setup.executed_of_executable
        (x := exchange r request response) hcall hexecutable
      have hadvertised := (hown e (mem_append_right _ he)).advertised
      rw [hexchange] at hadvertised
      exact hadvertised
    . rintro ⟨hown, hoffered⟩ e he
      rcases mem_append.mp he with hold | hnew
      . exact hown e hold
      . obtain ⟨_, hcall, hexecutable⟩ := setup.mem_executed hnew
        apply own_of_advertised h.asks hphase hnew
        exact hoffered request attempt response hphase hresult e.call hcall ⟨_, hexecutable⟩

theorem recorded_start : setup.Recorded setup.start := by
  refine ⟨(fresh_start).asks, ?_⟩
  intro e he
  rw [(fresh_start).executions] at he
  cases he

theorem recorded_run (streams : List Stream) : setup.Recorded (setup.run streams) := by
  unfold run
  induction streams using reverseRecOn with
  | nil =>
    rw [foldl_nil]
    exact recorded_start
  | append_singleton streams stream ih =>
    rw [foldl_append]
    exact recorded_answer ih stream

theorem own_start : ∀ e ∈ setup.start.executions, setup.Own e := by
  intro e he
  rw [(fresh_start).executions] at he
  cases he

-- A run uses the agent's own tools exactly if no response of it asks for a tool that could be executed
-- and was not advertised in its request.
theorem usesOwnTools_iff_offered (setup : Setup) (streams : List Stream)
    : setup.UsesOwnTools (setup.run streams)
        ↔ Run (Guarded setup.Offered setup.answer) setup.start streams (setup.run streams) := by
  have hrecorded : setup.Recorded (setup.run streams) := recorded_run streams
  have hiff := @Run.iff_guarded _ _ setup.Offered setup.answer setup.Recorded
    (fun r => ∀ e ∈ r.executions, setup.Own e) (fun _ stream h => recorded_answer h stream)
    (fun _ stream h => own_answer_iff h stream) _ recorded_start own_start streams
  unfold UsesOwnTools
  unfold run at hrecorded ⊢
  rw [← hiff]
  constructor
  . exact fun h e he => (h e he).2
  . exact fun h e he => ⟨hrecorded.exchanges e he, h e he⟩

end Setup

def echoAgent : Setup :=
  localRun { name := "hello", instructions := "Greet the user.", tools := ["echo"] }
    ((ToolRegistry.new.register (constantTool "echo" [])).register
      (constantTool "shell" ["shell.execute"])) []

-- The first response asks for the shell.
theorem not_usesOwnTools_shell
    : ¬echoAgent.UsesOwnTools (echoAgent.run [.ok [.ok (.done (toolRequest "shell" "" 10))]]) := by
  intro h
  have hids : (echoAgent.run [.ok [.ok (.done (toolRequest "shell" "" 10))]]).executions.map
      (fun e => e.tool.metadata.id) = ["shell"] := by
    decide
  have hmem : "shell" ∈ (echoAgent.run [.ok [.ok (.done (toolRequest "shell" "" 10))]]).executions.map
      (fun e => e.tool.metadata.id) := by
    rw [hids]
    exact mem_cons_self
  obtain ⟨e, he, hshell⟩ := mem_map.mp hmem
  have hlisted := (h e he).2.listed
  rw [hshell] at hlisted
  revert hlisted
  decide

end Wovyr.Agent
