import Wovyr.Server.Tenancy
import Wovyr.Workflow.Engine

/-!
This module contains the routes that submit, signal, approve and cancel workflow executions. The YAML parser is
a parameter. What a submission spawns is kept in a list until it is run.
-/

namespace Wovyr.Server.Workflows

open Workflow

structure Host (ω : Type) where
  engine : Engine ω
  -- `default_workflows_engine` attaches no resolver of child workflows.
  noChildren : engine.subworkflows = none
  admins : Tenancy.PlatformAdmins
  parseYaml : String → Except String Definition

structure Spawned where
  tenant : String
  definition : Definition
  executionId : String

structure AppState (ω : Type) where
  tenancy : TenancyState
  world : World ω
  workflowOwners : Std.ExtTreeMap String String := ∅
  definitions : Std.ExtTreeMap String String := ∅
  runCounter : Nat := 1
  spawned : List Spawned := []

structure SubmitRequest where
  manifest : String
  input : Value := .null
  executionId : Option String := none

structure SignalRequest where
  manifest : Option String := none
  event : String
  payload : Value := .null

structure ApproveRequest where
  manifest : Option String := none
  activityId : String
  decision : Value := .null

-- FNV-1a with 64 bits, in hex.
def contentHash (text : String) : String :=
  let h := (Bytes.utf8 text.toList).foldl
    (fun h b => (h ^^^ b.toUInt64) * 0x00000100000001b3) (0xcbf29ce484222325 : UInt64)
  Bytes.hexLower (Bytes.leBytes 8 h.toNat).reverse

def fromYaml (p : Platform) (parseYaml : String → Except String Definition) (yaml : String)
    : Except Error Definition := do
  let d ←
    match parseYaml yaml with
    | .error e => throw (.invalid s!"invalid workflow manifest: {e}")
    | .ok d => pure d
  d.validate p
  return { d with sourceHash := some (contentHash yaml) }

def validationFailed (e : Error) : ApiError := ⟨400, "validation_failed", e.display⟩

def setField (key : String) (value : Value) (fields : List (String × Value)) : List (String × Value) :=
  fields.filter (fun field => field.1 != key) ++ [(key, value)]

-- Only an input that is an object can carry the markers of the submission.
def stampInput (tenant : String) (project : Option String) (input : Value) : Value :=
  match if input = .null then .object [] else input with
  | .object fields =>
    let fields := setField "__tenant" (.string tenant) fields
    match project with
    | some project => .object (setField "__project" (.string project) fields)
    | none => .object fields
  | other => other

-- The tenant whose agents an activity of type `agent` resolves to.
def agentTenant (ctx : ActivityContext) : String :=
  ((ctx.vars["__tenant"]?).bind asStr).getD defaultTenant

namespace AppState

variable {ω : Type}

def recordWorkflowOwner (s : AppState ω) (executionId tenant : String) : AppState ω :=
  { s with workflowOwners := s.workflowOwners.insert executionId tenant }

def workflowVisible (s : AppState ω) (executionId tenant : String) : Bool :=
  match s.workflowOwners[executionId]? with
  | some owner => owner == tenant
  | none => tenant == defaultTenant

end AppState

abbrev Handler (ω α : Type) := Prog (AppState ω) ApiError α

section

variable {ω : Type} (srv : Host ω)

def tenantAuthorize (headers : Headers) (scope : String) : Handler ω String := do
  let tenancy ← Prog.gets AppState.tenancy
  Prog.ofExcept (Tenancy.tenantAuthorize srv.admins tenancy headers scope)

def onEngine {α : Type} (m : Action ω α) : Handler ω α :=
  fun s =>
    match m s.world with
    | (.ok a, world) => (.ok a, { s with world })
    | (.err e, world) => (.err (ApiError.ofError e), { s with world })
    | (.halted, world) => (.halted, { s with world })

-- Definitions are kept in files, if there is a directory for them.
def saveDefinition (name manifest : String) : Handler ω Unit :=
  Prog.modify fun s =>
    match srv.engine.backend with
    | .file => { s with definitions := s.definitions.insert (Backend.file.key name) manifest }
    | .memory => s

def definitionResolver (s : AppState ω) (name : String) : Option Definition :=
  (s.definitions[Backend.file.key name]?).bind fun yaml =>
    (fromYaml srv.engine.platform srv.parseYaml yaml).toOption

-- The index of the owners is a file of its own.
def recordOwner (executionId tenant : String) : Handler ω Unit := do
  onEngine (Engine.persist id)
  Prog.modify (·.recordWorkflowOwner executionId tenant)

-- The name of the workflow and a counter, unless the request brings an id.
def deriveExecutionId (req : SubmitRequest) (d : Definition) : Handler ω String :=
  match req.executionId with
  | some executionId => pure executionId
  | none => do
    let counter ← Prog.gets AppState.runCounter
    Prog.modify fun s => { s with runCounter := s.runCounter + 1 }
    return d.metadata.name ++ "-" ++ toString counter

def submit (headers : Headers) (req : SubmitRequest) : Handler ω Value := do
  let tenant ← tenantAuthorize srv headers "workflows:run"
  let d ← Prog.ofExcept
    ((fromYaml srv.engine.platform srv.parseYaml req.manifest).mapError validationFailed)
  saveDefinition srv d.metadata.name req.manifest
  let input := stampInput tenant (Tenancy.runProject headers) req.input
  let executionId ← deriveExecutionId req d
  let _ ← onEngine (srv.engine.start d executionId input)
  recordOwner executionId tenant
  Prog.modify fun s => { s with spawned := s.spawned ++ [⟨tenant, d, executionId⟩] }
  return .object [("execution_id", .string executionId), ("status", .string "submitted")]

def executionNotFound (id : String) : ApiError :=
  ⟨404, "not_found", s!"execution `{id}` not found"⟩

def requireWorkflowVisible (id tenant : String) : Handler ω Unit := do
  let visible ← Prog.gets (·.workflowVisible id tenant)
  if visible then
    return ()
  else
    Prog.fail (executionNotFound id)

def resolveDefinition (executionId : String) (manifest : Option String) : Handler ω Definition := do
  match manifest with
  | some manifest =>
    Prog.ofExcept ((fromYaml srv.engine.platform srv.parseYaml manifest).mapError validationFailed)
  | none =>
    match ← onEngine (srv.engine.latest executionId) with
    | none => Prog.fail (executionNotFound executionId)
    | some execution =>
      match ← Prog.gets fun s => definitionResolver srv s execution.workflowName with
      | some d => return d
      | none =>
        Prog.fail ⟨400, "definition_not_found",
          s!"no persisted definition found for workflow `{execution.workflowName}`; supply `manifest` explicitly"⟩

-- `signal_handler` and `approve_handler` differ in where the name and the payload come from.
def deliver (headers : Headers) (gas : Nat) (id : String) (manifest : Option String) (event : String)
    (payload : Value) : Handler ω Unit := do
  let tenant ← tenantAuthorize srv headers "workflows:run"
  requireWorkflowVisible id tenant
  let d ← resolveDefinition srv id manifest
  let _ ← onEngine (srv.engine.signalEvent gas d id event payload)

def signal (headers : Headers) (gas : Nat) (id : String) (req : SignalRequest) : Handler ω Value := do
  let payload := if req.payload = .null then .object [] else req.payload
  deliver srv headers gas id req.manifest req.event payload
  return .object [("execution_id", .string id), ("event", .string req.event),
    ("status", .string "signalled")]

def approve (headers : Headers) (gas : Nat) (id : String) (req : ApproveRequest) : Handler ω Value := do
  let decision :=
    if req.decision = .null then .object [("approved", .bool true)] else req.decision
  deliver srv headers gas id req.manifest req.activityId decision
  return .object [("execution_id", .string id), ("activity_id", .string req.activityId),
    ("status", .string "approved")]

def cancel (headers : Headers) (id : String) : Handler ω Value := do
  let tenant ← tenantAuthorize srv headers "workflows:write"
  requireWorkflowVisible id tenant
  let cancelled ← onEngine (srv.engine.cancel id)
  return .object [("execution_id", .string cancelled.executionId), ("status", .string "cancelled")]

end

end Wovyr.Server.Workflows
