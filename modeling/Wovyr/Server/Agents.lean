import Wovyr.Lib.Aging
import Wovyr.Lib.Prog
import Wovyr.Server.Tenancy.Admission

/-!
This module contains the routes that run agents. What lies behind a connection to an MCP server, the
registry of the tools and the loop that drives a model are parameters.
-/

namespace Wovyr.Server.Agents

structure PromptSpec where
  template : String
  version : Option Nat := none
  ab : Option (List Nat) := none

structure AgentDefinition where
  kind : Option String := none
  name : String
  instructions : String := ""
  prompt : Option PromptSpec := none
  maxSteps : Option Nat := none
  tools : List String := []
  mcpServers : List String := []
  -- What only the loop reads.
  rest : Value := .null

def PromptSpec.validate (prompt : PromptSpec) : Except Error Unit := do
  if (Text.trim prompt.template).isEmpty then
    throw (.invalid "spec.prompt.template must not be empty")
  if let some arms := prompt.ab then
    if prompt.version.isSome then
      throw (.invalid "spec.prompt sets both `version` and `ab` — pin or experiment, not both")
    if arms.isEmpty then
      throw (.invalid "spec.prompt.ab must declare at least one arm")
    if arms.all (· == 0) then
      throw (.invalid "spec.prompt.ab arms have zero total weight — no arm can be assigned")

namespace AgentDefinition

def validate (d : AgentDefinition) : Except Error Unit := do
  if let some kind := d.kind then
    if kind != "Agent" then
      throw (.invalid s!"unsupported kind `{kind}`, expected `Agent`")
  if (Text.trim d.name).isEmpty then
    throw (.invalid "metadata.name must not be empty")
  match d.prompt, (Text.trim d.instructions).isEmpty with
  | none, true =>
    throw (.invalid "spec.instructions must not be empty (or reference a template via spec.prompt)")
  | some _, false =>
    throw (.invalid
      "spec sets both `instructions` and `prompt` — inline text or a template reference, not both")
  | some prompt, true => prompt.validate
  | none, false => return ()

def fromYaml (parseYaml : String → Except String AgentDefinition) (yaml : String)
    : Except Error AgentDefinition := do
  let d ←
    match parseYaml yaml with
    | .error e => throw (.invalid s!"invalid agent manifest: {e}")
    | .ok d => pure d
  d.validate
  return d

def withAdditionalTools (d : AgentDefinition) (ids : List String) : AgentDefinition :=
  { d with
    tools := ids.foldl (fun tools id => if tools.contains id then tools else tools ++ [id]) d.tools }

end AgentDefinition

inductive ToolError where
  | validation (msg : String)
  | permissionDenied (msg : String)
  | network (msg : String)
  | internal (msg : String)

def ToolError.display : ToolError → String
  | .validation msg => "validation error: " ++ msg
  | .permissionDenied msg => "permission denied: " ++ msg
  | .network msg => "network error: " ++ msg
  | .internal msg => "internal error: " ++ msg

structure McpConnection where
  name : String
  config : Value := .null

structure RunOptions where
  input : Value
  maxSteps : Option Nat := none
  tenant : String
  hosted : Bool

structure RunOutput where
  text : String
  steps : Nat
  totalTokens : Nat
  costUsd : Rat

-- `γ` are the clients of MCP servers, `ρ` the registries of tools.
structure Host (γ ρ : Type) where
  admins : Tenancy.PlatformAdmins
  money : Money
  parseYaml : String → Except String AgentDefinition
  registry : ρ
  connect : String → McpConnection → Except ToolError γ
  registerInto : γ → ρ → Except ToolError (ρ × List String)
  runAgent : AgentDefinition → ρ → RunOptions → Except Error RunOutput
  idleTimeout : Nat
  runBounds : Aging.Bounds

inductive AsyncRunStatus where
  | running
  | succeeded (output : Value) (steps : Nat) (usage : Value)
  | failed (error : String)

structure RunRecord where
  tenant : String
  status : AsyncRunStatus

structure Job (ρ : Type) where
  runId : String
  tenant : String
  project : Option String
  -- Whether the run holds a slot in the quota of the project.
  metered : Bool
  definition : AgentDefinition
  registry : ρ
  options : RunOptions
  streamed : Bool

structure Reach where
  tenant : String
  name : String
  dialed : Bool
deriving DecidableEq

structure AppState (γ ρ : Type) where
  tenancy : TenancyState
  usage : Tenancy.QuotaUsage := {}
  clockMs : Nat := 0
  agents : String → String → Option String := fun _ _ => none
  connections : String → String → Option McpConnection := fun _ _ => none
  clients : String → String → Option (γ × Nat) := fun _ _ => none
  runs : Aging RunRecord := {}
  runCounter : Nat := 1
  jobs : List (Job ρ) := []
  reached : List Reach := []
  -- The last event of each stream.
  frames : List (String × Except String Value) := []

abbrev Handler (γ ρ α : Type) := Prog (AppState γ ρ) ApiError α

structure RunRequest where
  manifest : String
  input : Value := .null
  maxSteps : Option Nat := none

structure RunStoredRequest where
  input : Value := .null
  maxSteps : Option Nat := none

inductive Response where
  | json (body : Value)
  | events (runId : String)

def wantsAsync (headers : Headers) : Bool :=
  (header headers "prefer").any fun v =>
    (Text.split ',' v).any fun p => Text.eqIgnoreAsciiCase (Text.trim p) "respond-async"

section

variable {γ ρ : Type} (host : Host γ ρ)

def setClient (tenant name : String) (entry : Option (γ × Nat)) (s : AppState γ ρ) : AppState γ ρ :=
  { s with clients := fun t n => if t = tenant ∧ n = name then entry else s.clients t n }

def reach (tenant name : String) (dialed : Bool) (s : AppState γ ρ) : AppState γ ρ :=
  { s with reached := s.reached ++ [⟨tenant, name, dialed⟩] }

def getOrConnect (tenant : String) (connection : McpConnection) : Prog (AppState γ ρ) ToolError γ := do
  let now ← Prog.gets AppState.clockMs
  let name := connection.name
  let fresh ← Prog.gets fun s =>
    (s.clients tenant name).filter fun entry => decide (now - entry.2 < host.idleTimeout)
  match fresh with
  | some (client, _) =>
    Prog.modify (setClient tenant name (some (client, now)))
    Prog.modify (reach tenant name false)
    return client
  | none =>
    Prog.modify (setClient tenant name none)
    Prog.modify (reach tenant name true)
    let client ← Prog.ofExcept (host.connect tenant connection)
    Prog.modify (setClient tenant name (some (client, now)))
    return client

def resolveAgentMcpTools (tenant : String)
    : List String → ρ → Prog (AppState γ ρ) ToolError (ρ × List String)
  | [], registry => return (registry, [])
  | name :: names, registry => do
    match ← Prog.gets fun s => s.connections tenant name with
    | none =>
      Prog.fail (.validation s!"no configured MCP connection named `{name}` for this tenant")
    | some connection =>
      let client ← getOrConnect host tenant connection
      let (registry, ids) ← Prog.ofExcept (host.registerInto client registry)
      let (registry, more) ← resolveAgentMcpTools tenant names registry
      return (registry, ids ++ more)

def resolveRunRegistry (tenant : String) (d : AgentDefinition) : Handler γ ρ (ρ × AgentDefinition) := do
  if d.mcpServers.isEmpty then
    return (host.registry, d)
  let (registry, ids) ← Prog.mapErr (fun e => ⟨400, "mcp_resolution_failed", e.display⟩)
    (resolveAgentMcpTools host tenant d.mcpServers host.registry)
  return (registry, d.withAdditionalTools ids)

def admitRun (project : Option String) : Handler γ ρ Bool := do
  match project with
  | none => return false
  | some project =>
    match ← Prog.gets fun s => s.tenancy.getQuota project with
    | none => return false
    | some limits =>
      let now ← Prog.gets AppState.clockMs
      let day := Tenancy.dayBucket (now / 1000) (limits.dayResetOffsetMinutes.getD 0)
      let usage ← Prog.gets AppState.usage
      let usage ← Prog.ofExcept
        ((Tenancy.Meter.admitRun host.money usage ⟨project, limits, day⟩).mapError ApiError.ofError)
      Prog.modify fun s => { s with usage }
      return true

def release (project : Option String) (metered : Bool) (s : AppState γ ρ) : AppState γ ρ :=
  match project, metered with
  | some project, true =>
    match s.usage.concurrent[project]? with
    | none => s
    | some c =>
      { s with usage := { s.usage with concurrent := s.usage.concurrent.insert project (c - 1) } }
  | _, _ => s

def recordRunUsage (project : Option String) (out : RunOutput) (s : AppState γ ρ) : AppState γ ρ :=
  match project with
  | none => s
  | some project =>
    let offset := ((s.tenancy.getQuota project).bind (·.dayResetOffsetMinutes)).getD 0
    let day := Tenancy.dayBucket (s.clockMs / 1000) offset
    { s with
      usage := Tenancy.Meter.recordUsage host.money s.usage ⟨project, day, out.costUsd, out.totalTokens⟩ }

def options (d : AgentDefinition) (tenant : String) (input : Value) (maxSteps : Option Nat) : RunOptions where
  input := if input = .null then .object [] else input
  maxSteps := maxSteps.or d.maxSteps
  tenant
  hosted := true

def usageJson (out : RunOutput) : Value :=
  .object [("total_tokens", .int out.totalTokens), ("cost_usd", .float out.costUsd)]

def outputJson (out : RunOutput) : Value :=
  .object [("message", .string out.text)]

def nextRunId : Handler γ ρ String := do
  let counter ← Prog.gets AppState.runCounter
  Prog.modify fun s => { s with runCounter := s.runCounter + 1 }
  return "run_" ++ toString counter

def runDefinition (d : AgentDefinition) (input : Value) (tenant : String) (project : Option String)
    (maxSteps : Option Nat) : Handler γ ρ Response := do
  let (registry, d) ← resolveRunRegistry host tenant d
  let metered ← admitRun host project
  match host.runAgent d registry (options d tenant input maxSteps) with
  | .error e =>
    Prog.modify (release project metered)
    Prog.fail (ApiError.ofError e)
  | .ok out =>
    Prog.modify (recordRunUsage host project out)
    let runId ← nextRunId
    Prog.modify (release project metered)
    return .json (.object [("run_id", .string runId), ("status", .string "succeeded"),
      ("output", outputJson out), ("steps", .int out.steps), ("usage", usageJson out)])

def parseManifest (manifest : String) : Handler γ ρ AgentDefinition :=
  Prog.ofExcept ((AgentDefinition.fromYaml host.parseYaml manifest).mapError
    fun e => ⟨400, "validation_failed", e.display⟩)

def runInner (tenant : String) (project : Option String) (req : RunRequest) : Handler γ ρ Response := do
  let d ← parseManifest host req.manifest
  runDefinition host d req.input tenant project req.maxSteps

-- What `agents:run` in the background and `agents:stream` have in common.
def spawn (tenant : String) (project : Option String) (req : RunRequest) (streamed : Bool)
    : Handler γ ρ String := do
  let d ← parseManifest host req.manifest
  let (registry, d) ← resolveRunRegistry host tenant d
  let metered ← admitRun host project
  let runId ← nextRunId
  let job : Job ρ := {
    runId, tenant, project, metered, registry, streamed
    definition := d
    options := options d tenant req.input req.maxSteps }
  Prog.modify fun s => { s with jobs := s.jobs ++ [job] }
  return runId

def runAsyncInner (tenant : String) (project : Option String) (req : RunRequest)
    : Handler γ ρ Response := do
  let runId ← spawn host tenant project req false
  Prog.modify fun s =>
    { s with runs := s.runs.put host.runBounds s.clockMs runId ⟨tenant, .running⟩ }
  return .json (.object [("run_id", .string runId), ("status", .string "running")])

def runHandler (headers : Headers) (req : RunRequest) : Handler γ ρ Response :=
  let tenant := Tenancy.requestTenant headers
  let project := Tenancy.runProject headers
  if wantsAsync headers then
    runAsyncInner host tenant project req
  else
    runInner host tenant project req

def runStreamHandler (headers : Headers) (req : RunRequest) : Handler γ ρ Response := do
  let runId ← spawn host (Tenancy.requestTenant headers) (Tenancy.runProject headers) req true
  return .events runId

def runStoredHandler (headers : Headers) (id : String) (req : RunStoredRequest)
    : Handler γ ρ Response := do
  let tenancy ← Prog.gets AppState.tenancy
  let tenant ← Prog.ofExcept (Tenancy.tenantAuthorize host.admins tenancy headers "agents:run")
  match ← Prog.gets fun s =>
      (s.agents tenant id).bind fun m => (AgentDefinition.fromYaml host.parseYaml m).toOption with
  | none => Prog.fail ⟨404, "not_found", s!"agent `{id}` not found"⟩
  | some d => runDefinition host d req.input tenant (Tenancy.runProject headers) req.maxSteps

def statusFields : AsyncRunStatus → List (String × Value)
  | .running => [("status", .string "running")]
  | .succeeded output steps usage =>
    [("status", .string "succeeded"), ("output", output), ("steps", .int steps), ("usage", usage)]
  | .failed error => [("status", .string "failed"), ("error", .string error)]

def getRunHandler (headers : Headers) (runId : String) : Handler γ ρ Response := do
  let missing : ApiError := ⟨404, "not_found", s!"run `{runId}` not found"⟩
  match ← Prog.gets fun s => s.runs.get? runId with
  | none => Prog.fail missing
  | some record =>
    if record.tenant != Tenancy.requestTenant headers then
      Prog.fail missing
    else
      return .json (.object (("run_id", .string runId) :: statusFields record.status))

inductive Request where
  | run (req : RunRequest)
  | stream (req : RunRequest)
  | runStored (id : String) (req : RunStoredRequest)
  | getRun (runId : String)

def routes (headers : Headers) : Request → Handler γ ρ Response
  | .run req => runHandler host headers req
  | .stream req => runStreamHandler host headers req
  | .runStored id req => runStoredHandler host headers id req
  | .getRun runId => getRunHandler headers runId

def finish (runId : String) (status : AsyncRunStatus) (s : AppState γ ρ) : AppState γ ρ :=
  match s.runs.entries[runId]? with
  | none => s
  | some (record, insertedAt) =>
    { s with
      runs := { s.runs with
        entries := s.runs.entries.insert runId ({ record with status }, insertedAt) } }

def send (runId : String) (frame : Except String Value) (s : AppState γ ρ) : AppState γ ρ :=
  { s with frames := s.frames ++ [(runId, frame)] }

def endJob (job : Job ρ) (s : AppState γ ρ) : AppState γ ρ :=
  match host.runAgent job.definition job.registry job.options with
  | .ok out =>
    let s := recordRunUsage host job.project out s
    let s :=
      if job.streamed then
        send job.runId (.ok (.object [("status", .string "succeeded"), ("output", outputJson out),
          ("steps", .int out.steps)])) s
      else
        finish job.runId (.succeeded (outputJson out) out.steps (usageJson out)) s
    release job.project job.metered s
  | .error e =>
    let s :=
      if job.streamed then
        send job.runId (.error e.display) s
      else
        finish job.runId (.failed e.display) s
    release job.project job.metered s

end

end Wovyr.Server.Agents
