import Wovyr.Json.Value
import Wovyr.Lib.Map
import Wovyr.Lib.Text

/-!
This module contains tools and the registry of them. What a tool does is up to the tool: it is a
function of the context it is executed in, whose execution id no two calls of a run share.
-/

namespace Wovyr.Tools

structure ToolMetadata where
  id : String
  version : String
  category : String
  description : String
  permissions : List String := []
  strict : Bool := false

inductive TrustClass where
  | firstParty
  | verified
  | untrusted
deriving DecidableEq

structure ToolContext where
  executionId : String
  agentId : String
  workdir : String
  tenant : String
  -- Without a value there is no policy.
  grantedPermissions : Option (List String) := none
  egressAllowlist : Option (List String) := none
  trustClass : TrustClass := .firstParty

structure ToolResponse where
  success : Bool
  payload : Value

inductive ToolError where
  | validation (msg : String)
  | permissionDenied (msg : String)
  | network (msg : String)
  | internal (msg : String)

def ToolError.display : ToolError → String
  | .validation msg => "validation error: " ++ msg
  | .permissionDenied msg => "permission denied: " ++ msg
  | .network msg => "network error: " ++ msg
  | .internal msg => "internal error: " ++ msg

def checkPermissions (required : List String) (ctx : ToolContext) : Except ToolError Unit :=
  match ctx.grantedPermissions with
  | none => .ok ()
  | some granted =>
    let missing := required.filter fun p => !granted.contains p
    if missing.isEmpty then
      .ok ()
    else
      .error (.permissionDenied ("tool requires ungranted permission(s): " ++ Text.join ", " missing))

structure Tool where
  metadata : ToolMetadata
  inputSchema : Value
  execute : ToolContext → Value → Except ToolError ToolResponse

structure ToolRegistry where
  tools : Std.ExtTreeMap String Tool
  keyed : ∀ (id : String) (tool : Tool), tools[id]? = some tool → tool.metadata.id = id

namespace ToolRegistry

def new : ToolRegistry where
  tools := ∅
  keyed := by
    intro id tool h
    cases h

def register (r : ToolRegistry) (tool : Tool) : ToolRegistry where
  tools := r.tools.insert tool.metadata.id tool
  keyed := by
    intro id other h
    rcases Map.of_insert h with ⟨hid, rfl⟩ | h
    . exact hid
    . exact r.keyed id other h

def unregister (r : ToolRegistry) (id : String) : ToolRegistry where
  tools := r.tools.erase id
  keyed := by
    intro other tool h
    exact r.keyed other tool (Map.of_erase h)

def get (r : ToolRegistry) (id : String) : Option Tool :=
  r.tools[id]?

theorem id_of_get {r : ToolRegistry} {id : String} {tool : Tool} (h : r.get id = some tool)
    : tool.metadata.id = id :=
  r.keyed id tool h

theorem get_register (r : ToolRegistry) (tool : Tool) (id : String)
    : (r.register tool).get id = if tool.metadata.id = id then some tool else r.get id :=
  Map.getElem?_insert r.tools tool.metadata.id id tool

theorem get_unregister (r : ToolRegistry) (id id' : String)
    : (r.unregister id).get id' = if id = id' then none else r.get id' :=
  Map.getElem?_erase r.tools id id'

end ToolRegistry

theorem checkPermissions_eq_ok {required : List String} {ctx : ToolContext}
    : checkPermissions required ctx = .ok ()
        ↔ ∀ granted, ctx.grantedPermissions = some granted → ∀ p ∈ required, p ∈ granted := by
  unfold checkPermissions
  cases hgranted : ctx.grantedPermissions with
  | none => exact ⟨fun _ => nofun, fun _ => rfl⟩
  | some granted =>
    have hnone : (required.filter fun p => !granted.contains p).isEmpty = true
        ↔ ∀ p ∈ required, p ∈ granted := by
      rw [List.isEmpty_iff, List.filter_eq_nil_iff]
      simp only [Bool.not_eq_true, Bool.not_eq_false', List.contains_iff_mem]
    dsimp only
    split
    . rename_i hempty
      refine ⟨?_, fun _ => rfl⟩
      rintro _ _ ⟨⟩
      exact hnone.mp hempty
    . rename_i hmissing
      refine ⟨nofun, ?_⟩
      intro h
      exact absurd (hnone.mpr (h granted rfl)) hmissing

end Wovyr.Tools
