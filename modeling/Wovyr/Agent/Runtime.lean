import Wovyr.Agent.Definition

/-!
This module contains the loop that runs an agent, cut at the calls of the gateway. Beside the state of the loop it
records which responses it has seen and which tools it has executed.
-/

namespace Wovyr.Agent

open Provider Tools

def defaultMaxSteps : Nat := 8

def forcedFinalAnswerNote : String :=
  "The step budget for this run is exhausted and tools are no longer available. Provide your best final "
    ++ "answer now, using only the information already gathered."

structure Exchange where
  step : Nat
  request : ChatRequest
  response : ChatResponse

structure Execution where
  exchange : Exchange
  call : ToolCall
  tool : Tool
  ctx : ToolContext

inductive Phase where
  | asking (request : ChatRequest) (attempt : Nat)
  | ended (result : Except Error AgentOutput)

structure RunState where
  tools : List ToolSpec := []
  messages : List Message := []
  usage : Usage := {}
  steps : Nat := 0
  phase : Phase
  events : List RunEvent := []
  exchanges : List Exchange := []
  executions : List Execution := []
  receivedTokens : Nat := 0

namespace RunState

variable (r : RunState)

def emit (events : List RunEvent) : RunState :=
  { r with events := r.events ++ events }

def finish (result : Except Error AgentOutput) : RunState :=
  { r with phase := .ended result }

end RunState

structure ToolOutcome where
  resultText : String
  ok : Bool

structure Reading where
  events : List RunEvent := []
  receivedTokens : Nat := 0
  result : Except Error (Option ChatResponse)

def ChatStreamEvent.shown : ChatStreamEvent → List RunEvent
  | .delta text => if text = "" then [] else [.delta text]
  | .toolCallDelta index _ name arguments => [.toolCallDelta index name arguments]
  | .reasoningDelta text => if text = "" then [] else [.reasoningDelta text]
  | .done _ => []

def readEvents (buffer : Bool)
    : Option ChatResponse → List (Except Error ChatStreamEvent) → Reading
  | completed, [] => { result := .ok completed }
  | _, .error e :: _ => { result := .error e }
  | completed, .ok event :: rest =>
    let (completed, tokens) :=
      match event with
      | .done response => (some response, response.usage.totalTokens)
      | _ => (completed, 0)
    let reading := readEvents buffer completed rest
    { reading with
      events := (if buffer then [] else event.shown) ++ reading.events
      receivedTokens := tokens + reading.receivedTokens }

structure Streamed where
  events : List RunEvent := []
  receivedTokens : Nat := 0
  result : Except Error ChatResponse

def RunState.hear (r : RunState) (streamed : Streamed) : RunState :=
  { r with
    events := r.events ++ streamed.events
    receivedTokens := r.receivedTokens + streamed.receivedTokens }

def streamChat (buffer : Bool) (stream : Stream) : Streamed :=
  match stream with
  | .error e => { result := .error e }
  | .ok events =>
    let reading := readEvents buffer none events
    { events := reading.events
      receivedTokens := reading.receivedTokens
      result :=
        match reading.result with
        | .error e => .error e
        | .ok none => .error (.provider "model stream ended without a final response" none)
        | .ok (some response) => .ok response }

def isTransient : Error → Bool
  | .provider _ _ => true
  | _ => false

namespace Setup

variable (setup : Setup)

def maxSteps : Nat :=
  (setup.opts.maxSteps.or setup.definition.maxSteps).getD defaultMaxSteps

def userPrompt : String :=
  match setup.opts.input with
  | .object fields =>
    match fields.lookup "message" with
    | some (.string s) => s
    | _ => valueToString setup.fmt setup.opts.input
  | .string s => s
  | other => valueToString setup.fmt other

def formatContext (hits : List RetrievedContext) : String :=
  if hits.isEmpty then
    "Retrieved knowledge: (none found in the knowledge base)"
  else
    "Retrieved knowledge (answer using only this; cite the source):\n"
      ++ String.join (hits.map fun hit => "[" ++ hit.source ++ "] " ++ hit.content ++ "\n")

def toolSpec (tool : Tool) : ToolSpec where
  name := tool.metadata.id
  description := tool.metadata.description
  parameters := tool.inputSchema
  strict := tool.metadata.strict

def resolveTools : List String → Except Error (List ToolSpec)
  | [] => .ok []
  | id :: ids => do
    match setup.registry.get id with
    | none => throw (.config s!"agent references unknown tool `{id}`")
    | some tool =>
      let specs ← resolveTools ids
      return toolSpec tool :: specs

def usageAdd (a b : Usage) : Usage where
  promptTokens := (a.promptTokens + b.promptTokens) % 2 ^ 32
  completionTokens := (a.completionTokens + b.completionTokens) % 2 ^ 32
  totalTokens := (a.totalTokens + b.totalTokens) % 2 ^ 32
  costUsd := setup.addCost a.costUsd b.costUsd

def toolsOverhead (tools : List ToolSpec) : Nat :=
  (tools.map fun t =>
    HeuristicTokenizer.count setup.unicode t.name + HeuristicTokenizer.count setup.unicode t.description
      + HeuristicTokenizer.count setup.unicode (valueToString setup.fmt t.parameters)
      + perToolOverhead).sum

def bufferStreaming : Bool :=
  Guardrails.checksOutput setup.opts.guardrails

def grantedPermissions : Option (List String) :=
  match setup.definition.permissions with
  | some perms => some perms
  | none => if setup.opts.hosted && !setup.unrestrictedToolsEscapeHatch then some [] else none

def toolContext (step idx : Nat) : ToolContext where
  executionId := s!"{setup.definition.name}-s{step}-t{idx}"
  agentId := setup.definition.name
  workdir := "."
  tenant := setup.opts.tenant
  grantedPermissions := setup.grantedPermissions
  egressAllowlist := setup.opts.egressAllowlist
  trustClass := setup.opts.trustClass

def parseArguments (arguments : String) : Except String Value :=
  if Text.trim arguments = "" then .ok (.object []) else setup.parseJson arguments

def executeToolCall (step idx : Nat) (call : ToolCall) : Option Tool × ToolOutcome :=
  match setup.registry.get call.name with
  | none => (none, ⟨"error: tool `" ++ call.name ++ "` is not available", false⟩)
  | some tool =>
    match setup.parseArguments call.arguments with
    | .error e =>
      (none, ⟨"error: the arguments for tool `" ++ call.name ++ "` are not valid JSON (" ++ e
        ++ "). Re-issue the tool call with well-formed JSON arguments.", false⟩)
    | .ok parameters =>
      let ctx := setup.toolContext step idx
      match checkPermissions tool.metadata.permissions ctx with
      | .error e => (none, ⟨"error: " ++ e.display, false⟩)
      | .ok () =>
        match tool.execute ctx parameters with
        | .ok resp => (some tool, ⟨valueToString setup.fmt resp.payload, resp.success⟩)
        | .error e => (some tool, ⟨"error: " ++ e.display, false⟩)

def leave (r : RunState) (finalText : String) : RunState :=
  if r.steps = setup.maxSteps ∧ finalText = "" then
    r.finish (.error (.runtime s!"agent did not finish within {setup.maxSteps} steps"))
  else if setup.bufferStreaming then
    match Guardrails.apply .output setup.opts.guardrails finalText with
    | .error e => r.finish (.error e)
    | .ok text =>
      (r.emit ((if text = "" then [] else [.delta text]) ++ [.done r.usage])).finish
        (.ok { text, usage := r.usage, steps := r.steps })
  else
    (r.emit [.done r.usage]).finish (.ok { text := finalText, usage := r.usage, steps := r.steps })

def stepRequest (r : RunState) (messages : List Message) : ChatRequest :=
  let request : ChatRequest := {
    model := resolveModel setup.providerName setup.definition.model setup.definition.selector
    messages
    temperature := setup.definition.temperature
    maxTokens := setup.definition.maxTokens }
  if r.steps + 1 = setup.maxSteps ∧ r.tools ≠ [] then
    { request with messages := messages ++ [.system forcedFinalAnswerNote] }
  else
    { request with tools := r.tools }

def nextStep (r : RunState) : RunState :=
  if r.steps < setup.maxSteps then
    let compacted := compact setup.unicode r.messages (setup.toolsOverhead r.tools) setup.opts.context
    { r with
      messages := compacted.messages
      phase := .asking (setup.stepRequest r compacted.messages) 0 }
  else
    setup.leave r ""

def executeAll (step : Nat) (calls : List ToolCall)
    : List (ToolCall × Option Tool × ToolContext × ToolOutcome) :=
  calls.zipIdx.map fun (call, idx) =>
    let (tool, outcome) := setup.executeToolCall step idx call
    (call, tool, setup.toolContext step idx, outcome)

def callTools (r : RunState) (exchange : Exchange) : RunState :=
  let calls := exchange.response.message.toolCalls
  let outcomes := setup.executeAll exchange.step calls
  { r with
    messages := r.messages ++ [exchange.response.message]
      ++ outcomes.map fun (call, _, _, outcome) => .toolResult call.id call.name outcome.resultText
    events := r.events ++ calls.map (fun call => .toolCall call.name call.arguments)
      ++ outcomes.map fun (call, _, _, outcome) => .toolResult call.name outcome.ok
    executions := r.executions ++ outcomes.filterMap fun (call, tool, ctx, _) =>
      tool.map fun tool => { exchange, call, tool, ctx } }

def take (r : RunState) (exchange : Exchange) : RunState :=
  { r with
    usage := setup.usageAdd r.usage exchange.response.usage
    steps := r.steps + 1
    exchanges := r.exchanges ++ [exchange] }

def accept (r : RunState) (request : ChatRequest) (response : ChatResponse) : RunState :=
  let exchange : Exchange := { step := r.steps, request, response }
  if response.message.toolCalls = [] then
    setup.leave (setup.take r exchange) (response.message.content.getD "")
  else
    setup.nextStep (setup.callTools (setup.take r exchange) exchange)

-- What the gateway answers to the request of a run.
def answer (r : RunState) (stream : Stream) : RunState :=
  match r.phase with
  | .ended _ => r
  | .asking request attempt =>
    let streamed := streamChat setup.bufferStreaming stream
    match streamed.result with
    | .ok response => setup.accept (r.hear streamed) request response
    | .error e =>
      if isTransient e ∧ attempt < setup.opts.stepRetries then
        { r.hear streamed with phase := .asking request (attempt + 1) }
      else
        (r.hear streamed).finish (.error e)

def prepare : Except Error (List ToolSpec × List RetrievedContext × List Message) := do
  let tools ← setup.resolveTools setup.definition.tools
  let prompt ← Guardrails.apply .input setup.opts.guardrails setup.userPrompt
  match setup.definition.memory, setup.retriever with
  | some mem, some retrieve =>
    if mem.enabled then
      let hits ← retrieve prompt mem
      return (tools, hits,
        [.system setup.definition.instructions, .system (formatContext hits), .user prompt])
    else
      return (tools, [], [.system setup.definition.instructions, .user prompt])
  | _, _ => return (tools, [], [.system setup.definition.instructions, .user prompt])

def emptyInstructions : Error :=
  match setup.definition.prompt with
  | some template =>
    .config s!"agent `{setup.definition.name}` references prompt template `{template}` — resolve it against a PromptRegistry (AgentDefinition::resolve_instructions) before running"
  | none => .config s!"agent `{setup.definition.name}` has empty instructions"

def start : RunState :=
  if Text.trim setup.definition.instructions = "" then
    { phase := .ended (.error setup.emptyInstructions) }
  else
    let model := resolveModel setup.providerName setup.definition.model setup.definition.selector
    let started : RunEvent := .start model setup.providerName
    match setup.prepare with
    | .error e => { phase := .ended (.error e), events := [started] }
    | .ok (tools, hits, messages) =>
      setup.nextStep {
        tools, messages
        phase := .ended (.error (.runtime ""))
        events := started :: hits.map fun hit => .memoryRetrieved hit.source hit.score }

def run (streams : List Stream) : RunState :=
  streams.foldl setup.answer setup.start

end Setup

def constantTool (id : String) (permissions : List String) : Tool where
  metadata := { id, version := "1.0.0", category := "test", description := "", permissions }
  inputSchema := .object []
  execute := fun _ _ => .ok { success := true, payload := .null }

def localRun (definition : AgentDefinition) (registry : ToolRegistry) (guardrails : Guardrails) : Setup where
  definition
  registry
  opts := { input := .string "Hello", guardrails }
  providerName := "mock"
  unicode := .asciiOnly
  fmt := { float := fun _ => "", str := id, value := fun _ => "", json := fun _ => [] }
  parseJson := fun _ => .ok .null
  addCost := fun a b => a + b

def finalAnswer (text : String) (tokens : Nat) : ChatResponse where
  message := .assistant text
  model := "mock-chat-fast"
  usage := { totalTokens := tokens }
  finishReason := "stop"

def toolRequest (name arguments : String) (tokens : Nat) : ChatResponse where
  message := { role := .assistant, toolCalls := [{ id := "call_1", name, arguments }] }
  model := "mock-chat-fast"
  usage := { totalTokens := tokens }
  finishReason := "tool_calls"

end Wovyr.Agent
