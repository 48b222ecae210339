import Wovyr.Secrets.Vault
import Wovyr.Tools.Tool

/-!
This module contains the configured connections to MCP servers and how one is dialed. What the servers, the
vault and the operating system answer at each dial is up to the network.
-/

namespace Wovyr.Tools

def isValidMcpServerName (name : String) : Bool :=
  !name.isEmpty && name.toList.all fun c => c.isAlphanum || c == '_' || c == '-'

inductive McpTransportConfig where
  | stdio (command : String) (args : List String)
  | http (url : String)
deriving DecidableEq

def McpTransportConfig.isStdio : McpTransportConfig → Bool
  | .stdio _ _ => true
  | .http _ => false

structure McpConnection where
  name : String
  transport : McpTransportConfig
  secretRef : Option String := none
  secretEnvVar : Option String := none
  toolPermissions : Option (List String) := none
  createdMs : Nat
  updatedMs : Nat
deriving DecidableEq

abbrev McpConnectionsState := Std.ExtTreeMap String (Std.ExtTreeMap String McpConnection)

namespace McpConnectionsState

variable (s : McpConnectionsState)

def get (tenant name : String) : Option McpConnection :=
  s[tenant]?.bind fun byName => byName[name]?

def list (tenant : String) : List McpConnection :=
  (s[tenant]?.map fun byName => byName.values).getD []

def check (connection : McpConnection) : Except Error Unit := do
  if !isValidMcpServerName connection.name then
    throw (.invalid (s!"MCP connection name `{connection.name}` must be a non-empty [A-Za-z0-9_-]+ identifier "
      ++ "— it namespaces tool ids and permissions"))
  match connection.secretRef with
  | none => return ()
  | some raw =>
    match Secrets.SecretRef.parse raw with
    | .error e =>
      throw (.invalid s!"MCP connection `secret_ref` `{raw}` is invalid: {e.display}")
    | .ok _ => pure ()
    if connection.transport.isStdio && connection.secretEnvVar.isNone then
      throw (.invalid ("a Stdio connection with a secret_ref must also set secret_env_var — "
        ++ "only the admin configuring it knows what env var the spawned server expects"))

def put (tenant : String) (connection : McpConnection) : Except Error McpConnectionsState := do
  check connection
  return s.insert tenant ((s[tenant]?.getD ∅).insert connection.name connection)

def delete (tenant name : String) : Bool × McpConnectionsState :=
  match s[tenant]? with
  | none => (false, s)
  | some byName => (byName.contains name, s.insert tenant (byName.erase name))

end McpConnectionsState

structure McpProcess where
  program : String
  args : List String
  envs : List (String × String)
deriving DecidableEq

structure McpClient where
  connection : McpConnection
deriving DecidableEq

structure McpToolInfo where
  name : String
  description : String
deriving DecidableEq

/--
What is answered from outside, at the `n`-th dial or listing: the value of a secret, whether a guarded
connection or a process can be made, how the handshake ends and which tools are served.
-/
structure Network where
  resolve : Nat → Secrets.SecretRef → Secrets.SecretAccess → Except Error String
  connectGuarded : Nat → String → Except ToolError Unit
  spawn : Nat → McpProcess → Except ToolError Unit
  handshake : Nat → McpConnection → Except ToolError Unit
  listTools : Nat → McpClient → Except ToolError (List McpToolInfo)

namespace McpConnection

variable (net : Network) (n : Nat) (tenant : String) (c : McpConnection)

def secretValue : Except ToolError (Option String) :=
  match c.secretRef with
  | none => .ok none
  | some raw =>
    match Secrets.SecretRef.parse raw with
    | .error e => .error (.internal s!"secret reference: {e.display}")
    | .ok reference =>
      match net.resolve n reference ⟨tenant, [reference.readPermission]⟩ with
      | .error e => .error (.permissionDenied s!"resolve secret: {e.display}")
      | .ok value => .ok (some value)

def secretEnvs : Option String → Except ToolError (List (String × String))
  | none => .ok []
  | some value =>
    match c.secretEnvVar with
    | some var => .ok [(var, value)]
    | none => .error (.internal s!"connection `{c.name}` has a secret_ref but no secret_env_var")

def clientConnect : Except ToolError McpClient :=
  if !isValidMcpServerName c.name then
    .error (.validation (s!"MCP server name `{c.name}` must be a non-empty [A-Za-z0-9_-]+ identifier "
      ++ "— it namespaces tool ids and permissions"))
  else
    (net.handshake n c).map fun _ => { connection := c }

-- Dials the connection. The process is one that was started, whatever came of it.
def connect : Except ToolError McpClient × Option McpProcess :=
  match c.secretValue net n tenant with
  | .error e => (.error e, none)
  | .ok secret =>
    match c.transport with
    | .http url =>
      match net.connectGuarded n url with
      | .error e => (.error e, none)
      | .ok _ => (c.clientConnect net n, none)
    | .stdio command args =>
      match c.secretEnvs secret with
      | .error e => (.error e, none)
      | .ok envs =>
        let process : McpProcess := { program := command, args, envs }
        match net.spawn n process with
        | .error e => (.error e, none)
        | .ok _ => (c.clientConnect net n, some process)

theorem isStdio_of_connect (h : (c.connect net n tenant).2.isSome = true) : c.transport.isStdio = true := by
  unfold connect at h
  split at h
  . cases h
  . split at h
    . split at h <;> cases h
    . next htransport => simp [htransport, McpTransportConfig.isStdio]

end McpConnection

namespace McpConnectionsState

variable {s s' : McpConnectionsState} {tenant : String}

theorem get_put {c : McpConnection} (h : s.put tenant c = .ok s') (t n : String)
    : s'.get t n = if t = tenant ∧ n = c.name then some c else s.get t n := by
  obtain ⟨-, -, heq⟩ := (bind_eq_ok _ _ _).mp h
  cases heq
  unfold get
  rw [Map.getElem?_insert]
  by_cases ht : tenant = t
  . subst ht
    rw [if_pos rfl, Option.bind_some, Map.getElem?_insert]
    by_cases hn : c.name = n
    . simp [hn]
    . rw [if_neg hn, if_neg (by simp [Ne.symm hn])]
      cases s[tenant]? with
      | none => simp
      | some byName => rfl
  . rw [if_neg ht, if_neg (by simp [Ne.symm ht])]

theorem get_delete (t n tenant name : String)
    : (s.delete tenant name).2.get t n = if t = tenant ∧ n = name then none else s.get t n := by
  unfold delete get
  cases hs : s[tenant]? with
  | none =>
    dsimp only
    split
    . next heq =>
      rw [heq.1, hs]
      rfl
    . rfl
  | some byName =>
    dsimp only
    rw [Map.getElem?_insert]
    by_cases ht : tenant = t
    . subst ht
      rw [if_pos rfl, Option.bind_some, Map.getElem?_erase, hs, Option.bind_some]
      by_cases hn : name = n
      . simp [hn]
      . rw [if_neg hn, if_neg (by simp [Ne.symm hn])]
    . rw [if_neg ht, if_neg (by simp [Ne.symm ht])]

theorem mem_list {c : McpConnection} (h : c ∈ s.list tenant) : ∃ name, s.get tenant name = some c := by
  unfold list at h
  unfold get
  cases hs : s[tenant]? with
  | none => simp [hs] at h
  | some byName =>
    rw [hs] at h
    obtain ⟨name, hname⟩ := (Map.mem_values).mp h
    exact ⟨name, hname⟩

end Wovyr.Tools.McpConnectionsState
