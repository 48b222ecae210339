import Wovyr.Server.Ui.Decide
import Wovyr.Server.Workflows

/-!
This module contains the activities of type `ui`, which present a frame and suspend the execution
until a decision on it arrives, and the routes of the frames in front of the workflow engine.
-/

namespace Wovyr.Server.Ui

open Wovyr.Ui Workflow Server.Workflows

structure UiDesk (ι : Type) where
  inner : ι
  frames : UiFrameStore := ∅
  decisions : DecidedOutcomeStore := {}
  standaloneSeq : Nat := 0
  clockMs : Nat := 0
  stored : List PendingFrame := []

structure UiParts (ι : Type) where
  unicode : Unicode
  decode : Value → Except String UiFrame
  f64 : Float64
  writeF64 : Rat → List Char
  sha : List UInt8 → List UInt8
  runtime : UiRuntime
  inner : ι → ActivityContext → Reaction ι

namespace UiDesk

variable {ι : Type}

def upsert (desk : UiDesk ι) (frame : PendingFrame) : UiDesk ι :=
  { desk with
    frames := desk.frames.upsert frame
    stored := if desk.frames.isFresh frame then desk.stored ++ [frame] else desk.stored }

def remove (desk : UiDesk ι) (frameId : String) : UiDesk ι :=
  { desk with frames := desk.frames.remove frameId }

end UiDesk

def PresentError.toActivityError (activityId : String) : PresentError → ActivityError
  | .invalid msg => .permanent s!"activity `{activityId}`: invalid ui frame ({msg})"
  | .policyResolution err =>
    .permanent s!"activity `{activityId}`: ui policy resolution failed ({err.display}); failing closed"
  | .blocked rule => .permanent s!"activity `{activityId}`: ui frame blocked by policy rule `{rule}`"

def executionIdOf (ctx : ActivityContext) : Option String :=
  (ctx.vars["__execution_id"]?).bind asStr

def frameIdOf (sha : List UInt8 → List UInt8) (bytes : List UInt8) : String :=
  "uif-" ++ Bytes.hexLower ((sha bytes).take 8)

def frameIdFor (sha : List UInt8 → List UInt8) (executionId activityId : String) : String :=
  frameIdOf sha (Bytes.utf8 executionId.toList ++ [0x1f] ++ Bytes.utf8 activityId.toList)

def frameIdForStandalone (sha : List UInt8 → List UInt8) (tenant : String) (seq : Nat)
    (contentHash : String) : String :=
  frameIdOf sha (Bytes.utf8 tenant.toList ++ [0x1f] ++ Bytes.leBytes 8 seq ++ [0x1f]
    ++ Bytes.utf8 contentHash.toList)

def presented (frameId frameHash : String) (frame : UiFrame) : Value :=
  record [("frame_id", .string frameId), ("frame_hash", .string frameHash), ("frame", frame.toValue),
    ("presented", .bool true)]

namespace UiParts

variable {ι : Type} (parts : UiParts ι)

def hash (frame : UiFrame) : String :=
  frame.contentHash parts.sha parts.writeF64

def permanent (desk : UiDesk ι) (msg : String) : Reaction (UiDesk ι) :=
  ⟨desk, [], .error (.permanent msg)⟩

def present (desk : UiDesk ι) (ctx : ActivityContext) (tenant executionId : String) (frame : UiFrame)
    (policyRef : String) : Reaction (UiDesk ι) :=
  let frameId := frameIdFor parts.sha executionId ctx.id
  if frame.actions = [] then
    ⟨desk, [], .output (presented frameId (parts.hash frame) frame)⟩
  else
    ⟨desk.upsert {
        frameId, tenant, policyRef
        executionId := some executionId
        activityId := some ctx.id
        frame := frame.toValue
        frameHash := parts.hash frame
        createdAtMs := desk.clockMs },
      [], .error (.interrupted s!"activity `{ctx.id}` is awaiting a ui decision (frame `{frameId}`)")⟩

def executeUiActivity (desk : UiDesk ι) (ctx : ActivityContext) : Reaction (UiDesk ι) :=
  match (ctx.vars[ctx.id]?).or ctx.vars["event." ++ ctx.id]? with
  | some decision =>
    match executionIdOf ctx with
    | some executionId => ⟨desk.remove (frameIdFor parts.sha executionId ctx.id), [], .output decision⟩
    | none => ⟨desk, [], .output decision⟩
  | none =>
    match executionIdOf ctx with
    | none =>
      permanent desk
        s!"activity `{ctx.id}`: no `__execution_id` variable — `ui` activities need the engine-stamped execution id to key their pending decision"
    | some executionId =>
      let tenant := ((ctx.vars["__tenant"]?).bind asStr).getD defaultTenant
      match field? "frame" ctx.inputs with
      | none =>
        permanent desk
          s!"activity `{ctx.id}`: `ui` activities require `inputs.frame` (a UiFrame document)"
      | some frameValue =>
        -- Where the frame comes from is stamped, not taken from its author.
        let stamp (p : Provenance) : Provenance :=
          { p with executionId := some executionId, activityId := some ctx.id }
        match parts.runtime.judgeFrame parts.unicode parts.decode tenant frameValue stamp with
        | none => ⟨desk, [], .panic "redaction of a ui frame"⟩
        | some (.error e) => ⟨desk, [], .error (e.toActivityError ctx.id)⟩
        | some (.ok (frame, policyRef)) => parts.present desk ctx tenant executionId frame policyRef

-- The executor of the platform with the activities of type `ui` before it.
def execute (desk : UiDesk ι) (ctx : ActivityContext) : Reaction (UiDesk ι) :=
  if ctx.activityType = "ui" then
    parts.executeUiActivity desk ctx
  else
    let reaction := parts.inner desk.inner ctx
    ⟨{ desk with inner := reaction.executor }, reaction.progress, reaction.reply⟩

end UiParts

structure UiHost (ι : Type) where
  parts : UiParts ι
  host : Host (UiDesk ι)
  wired : host.engine.execute = parts.execute

section

variable {ι : Type} (srv : UiHost ι)

def onDesk (f : UiDesk ι → UiDesk ι) : Handler (UiDesk ι) Unit :=
  Prog.modify fun s => { s with world := { s.world with executor := f s.world.executor } }

def presentStandalone (tenant : String) (frameValue : Value) : Handler (UiDesk ι) PendingFrame := do
  let desk ← Prog.gets (·.world.executor)
  onDesk fun desk => { desk with standaloneSeq := desk.standaloneSeq + 1 }
  match srv.parts.runtime.judgeFrame srv.parts.unicode srv.parts.decode tenant frameValue id with
  | none => Prog.halt
  | some (.error e) => Prog.fail e.toApiError
  | some (.ok (frame, policyRef)) =>
    let pending : PendingFrame := {
      frameId := frameIdForStandalone srv.parts.sha tenant desk.standaloneSeq (srv.parts.hash frame)
      tenant, policyRef
      executionId := none
      activityId := none
      frame := frame.toValue
      frameHash := srv.parts.hash frame
      createdAtMs := desk.clockMs }
    onDesk (·.upsert pending)
    return pending

def presentHandler (headers : Headers) (frameValue : Value) : Handler (UiDesk ι) PendingFrame := do
  let tenant ← tenantAuthorize srv.host headers "ui:write"
  presentStandalone srv tenant frameValue

-- What a decision is checked against before it goes anywhere.
def checkDecision (tenant : String) (pending : PendingFrame) (req : DecideRequest) : Except ApiError Unit :=
  if pending.tenant ≠ tenant then
    .error (notFound req.frameId)
  else
    match fromValue srv.parts.decode pending.frame with
    | .error e =>
      .error ⟨500, "internal_error", s!"stored frame `{req.frameId}` failed to decode: {e.display}"⟩
    | .ok frame =>
      match validateDecision srv.parts.f64 frame req.decision with
      | .error e => .error ⟨400, "validation_failed", e.display⟩
      | .ok () => .ok ()

def deliverDecision (gas : Nat) (pending : PendingFrame) (req : DecideRequest) : Handler (UiDesk ι) Unit :=
  match pending.executionId, pending.activityId with
  | some executionId, some activityId => do
    let d ← resolveDefinition srv.host executionId none
    let _ ← onEngine (srv.host.engine.signalEvent gas d executionId activityId (req.payload pending))
  | _, _ => onDesk fun desk => { desk with decisions := desk.decisions.record (req.outcome pending) }

def decideHandler (headers : Headers) (gas : Nat) (frameId action : String)
    (values : Std.ExtTreeMap String Value) : Handler (UiDesk ι) Value := do
  let tenant ← tenantAuthorize srv.host headers "ui:write"
  let desk ← Prog.gets (·.world.executor)
  let req : DecideRequest := {
    tenant := .ok tenant
    frameId, action, values
    decidedBy := Tenancy.requestPrincipal headers
    decidedAtMs := desk.clockMs }
  match desk.frames[frameId]? with
  | none => Prog.fail (notFound frameId)
  | some pending =>
    Prog.ofExcept (checkDecision srv tenant pending req)
    deliverDecision srv gas pending req
    onDesk (·.remove frameId)
    return decidedResponse req pending

end

end Wovyr.Server.Ui
