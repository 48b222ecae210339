import Wovyr.Lib.Turns
import Wovyr.Server.Tenancy
import Wovyr.Tools.Mcp

/-!
This module contains the routes of the MCP connections, the cache of the live clients and those who
use it. A step is an access to the store, to the cache or to what is outside.
-/

namespace Wovyr.Server.Mcp

open Tools

structure CachedEntry where
  client : McpClient
  lastUsed : Nat

abbrev Key := String × String

structure App where
  connections : McpConnectionsState := ∅
  tenancy : TenancyState := .empty
  stdioEnabled : Bool := false
  cache : Std.ExtTreeMap Key CachedEntry lexOrd.compare := ∅
  clockMs : Nat := 0
  -- How often the network was asked.
  asked : Nat := 0

structure Host where
  admins : Tenancy.PlatformAdmins
  net : Network
  idleTimeoutMs : Nat := 10 * 60 * 1000

inductive Op where
  | tenantContext (headers : Headers)
  | stdioEnabled
  | getQuota (project : String)
  | nowMs
  | list (tenant : String)
  | get (tenant name : String)
  | put (tenant : String) (connection : McpConnection)
  | delete (tenant name : String)
  | lookup (tenant : String) (connection : McpConnection)
  | insert (tenant : String) (client : McpClient)
  | invalidate (tenant name : String)
  | connect (tenant : String) (connection : McpConnection)
  | listTools (client : McpClient)
  -- Time and the other routes.
  | elapse (ms : Nat)
  | setTenancy (tenancy : TenancyState)

abbrev Res : Op → Type
  | .tenantContext _ => TenantContext
  | .stdioEnabled => Bool
  | .getQuota _ => Option QuotaLimits
  | .nowMs => Nat
  | .list _ => List McpConnection
  | .get _ _ => Option McpConnection
  | .put _ _ => Except Error Unit
  | .delete _ _ => Bool
  | .lookup _ _ => Option McpClient
  | .insert _ _ | .invalidate _ _ | .elapse _ | .setTenancy _ => Unit
  | .connect _ _ => Except ToolError McpClient
  | .listTools _ => Except ToolError (List McpToolInfo)

def App.fresh? (host : Host) (s : App) (k : Key) : Option McpClient :=
  (s.cache[k]?.filter fun entry => decide (s.clockMs - entry.lastUsed < host.idleTimeoutMs)).map (·.client)

def Host.exec (host : Host) : (op : Op) → App → Res op × App
  | .tenantContext headers, s => (Tenancy.tenantContext host.admins s.tenancy headers, s)
  | .stdioEnabled, s => (s.stdioEnabled, s)
  | .getQuota project, s => (s.tenancy.getQuota project, s)
  | .nowMs, s => (s.clockMs, s)
  | .list tenant, s => (s.connections.list tenant, s)
  | .get tenant name, s => (s.connections.get tenant name, s)
  | .put tenant connection, s =>
    match s.connections.put tenant connection with
    | .ok connections => (.ok (), { s with connections })
    | .error e => (.error e, s)
  | .delete tenant name, s =>
    let (existed, connections) := s.connections.delete tenant name
    (existed, { s with connections })
  | .lookup tenant connection, s =>
    match s.fresh? host (tenant, connection.name) with
    | some client =>
      (some client, { s with cache := s.cache.insert (tenant, connection.name) ⟨client, s.clockMs⟩ })
    | none => (none, { s with cache := s.cache.erase (tenant, connection.name) })
  | .insert tenant client, s =>
    ((), { s with cache := s.cache.insert (tenant, client.connection.name) ⟨client, s.clockMs⟩ })
  | .invalidate tenant name, s => ((), { s with cache := s.cache.erase (tenant, name) })
  | .connect tenant connection, s =>
    ((connection.connect host.net s.asked tenant).1, { s with asked := s.asked + 1 })
  | .listTools client, s => (host.net.listTools s.asked client, { s with asked := s.asked + 1 })
  | .elapse ms, s => ((), { s with clockMs := s.clockMs + ms })
  | .setTenancy tenancy, s => ((), { s with tenancy })

abbrev Action (ε α : Type) := ExceptT ε (Client Op Res) α

def perform {ε : Type} (op : Op) : Action ε (Res op) :=
  ExceptT.lift (Client.perform op)

def orFail {ε ε' α : Type} (f : ε → ε') : Except ε α → Action ε' α
  | .ok a => return a
  | .error e => throw (f e)

def mapErr {ε ε' α : Type} (f : ε → ε') (m : Action ε α) : Action ε' α :=
  ExceptT.adapt f m

def notFound (name : String) : ApiError :=
  ⟨404, "not_found", s!"no MCP connection `{name}`"⟩

def providerError (context : String) (e : ToolError) : ApiError :=
  ⟨502, "provider_error", s!"{context}: {e.display}"⟩

namespace McpClientCache

def getOrConnect (tenant : String) (connection : McpConnection) : Action ToolError McpClient := do
  match ← perform (.lookup tenant connection) with
  | some client => return client
  | none =>
    let client ← orFail id (← perform (.connect tenant connection))
    perform (.insert tenant client)
    return client

def sanitizeId (part : String) : String :=
  part.map fun c => if c.isAlphanum || c == '_' || c == '-' then c else '_'

def toolId (client : McpClient) (info : McpToolInfo) : String :=
  s!"mcp__{client.connection.name}__{sanitizeId info.name}"

def toolDescription (client : McpClient) (info : McpToolInfo) : String :=
  if info.description.isEmpty then
    s!"MCP tool `{info.name}` served by `{client.connection.name}`"
  else
    info.description

-- The ids of the tools that are registered for the run.
def resolveAgentMcpTools (tenant : String) : List String → Action ToolError (List String)
  | [] => return []
  | name :: names => do
    match ← perform (.get tenant name) with
    | none => throw (.validation s!"no configured MCP connection named `{name}` for this tenant")
    | some connection =>
      let client ← getOrConnect tenant connection
      let infos ← orFail id (← perform (.listTools client))
      let ids ← resolveAgentMcpTools tenant names
      return infos.map (toolId client) ++ ids

end McpClientCache

structure ConnectionRequest where
  name : String
  -- An error is what the parser says of it.
  transport : Except String McpTransportConfig
  secretRef : Option String := none
  secretEnvVar : Option String := none
  toolPermissions : Option (List String) := none

structure ToolEntry where
  id : String
  description : String
  category : String
  permissions : List String

inductive Reply where
  | connection (c : McpConnection) (tools : List McpToolInfo)
  | config (c : McpConnection)
  | configs (items : List McpConnection) (stdioEnabled : Bool)
  | noContent
  | refreshed (name : String) (tools : List McpToolInfo)
  | tools (entries : List ToolEntry)
  | resolved (ids : List String)
  | passed

abbrev Handler := Action ApiError Reply

def tenantAuthorize (headers : Headers) (scope : String) : Action ApiError String := do
  let ctx ← perform (.tenantContext headers)
  orFail ApiError.ofError (ctx.authorize scope)
  return ctx.tenant

def checkStdio (transport : McpTransportConfig) : Action ApiError Unit := do
  if transport.isStdio then
    let enabled ← perform .stdioEnabled
    if enabled then
      return ()
    else
      throw ⟨403, "forbidden",
        "Stdio-transport MCP connections require the operator to set WOVYR_ENABLE_MCP_STDIO=1"⟩
  else
    return ()

def checkQuota (headers : Headers) (tenant : String) : Action ApiError Unit := do
  match Tenancy.runProject headers with
  | none => return ()
  | some project =>
    match ← perform (.getQuota project) with
    | none => return ()
    | some limits =>
      let connections ← perform (.list tenant)
      orFail ApiError.ofError (limits.checkMcpConnections connections.length)

def createHandler (headers : Headers) (req : ConnectionRequest) : Handler := do
  let transport ← orFail (fun e => ⟨400, "validation_failed", s!"invalid transport: {e}"⟩) req.transport
  let tenant ← tenantAuthorize headers (if transport.isStdio then "mcp:admin" else "mcp:write")
  checkStdio transport
  checkQuota headers tenant
  let now ← perform .nowMs
  let connection : McpConnection :=
    { name := req.name, transport, secretRef := req.secretRef, secretEnvVar := req.secretEnvVar,
      toolPermissions := req.toolPermissions, createdMs := now, updatedMs := now }
  let client ← orFail (providerError "could not connect") (← perform (.connect tenant connection))
  let tools ← orFail (providerError "could not list tools") (← perform (.listTools client))
  orFail ApiError.ofError (← perform (.put tenant connection))
  perform (.invalidate tenant connection.name)
  return .connection connection tools

def listHandler (headers : Headers) : Handler := do
  let tenant ← tenantAuthorize headers "mcp:read"
  let items ← perform (.list tenant)
  let stdioEnabled ← perform .stdioEnabled
  return .configs items stdioEnabled

def getHandler (headers : Headers) (name : String) : Handler := do
  let tenant ← tenantAuthorize headers "mcp:read"
  match ← perform (.get tenant name) with
  | none => throw (notFound name)
  | some connection => return .config connection

def mayChange (ctx : TenantContext) (connection : McpConnection) : Except Error Unit :=
  if connection.transport.isStdio then ctx.authorize "mcp:admin" else .ok ()

-- A connection of the tenant, for one who may change it.
def changeable (headers : Headers) (name : String) : Action ApiError (String × McpConnection) := do
  let ctx ← perform (.tenantContext headers)
  orFail ApiError.ofError (ctx.authorize "mcp:write")
  match ← perform (.get ctx.tenant name) with
  | none => throw (notFound name)
  | some connection =>
    orFail ApiError.ofError (mayChange ctx connection)
    return (ctx.tenant, connection)

def deleteHandler (headers : Headers) (name : String) : Handler := do
  let (tenant, _) ← changeable headers name
  let _ ← perform (.delete tenant name)
  perform (.invalidate tenant name)
  return .noContent

def refreshHandler (headers : Headers) (name : String) : Handler := do
  let (tenant, connection) ← changeable headers name
  perform (.invalidate tenant name)
  let client ← mapErr (providerError "could not connect") (McpClientCache.getOrConnect tenant connection)
  let tools ← orFail (providerError "could not list tools") (← perform (.listTools client))
  return .refreshed name tools

def toolEntry (client : McpClient) (info : McpToolInfo) : ToolEntry where
  id := McpClientCache.toolId client info
  description := McpClientCache.toolDescription client info
  category := "mcp"
  permissions := [s!"mcp:{client.connection.name}"]

-- A connection that cannot be dialed or does not answer is skipped.
def discover (tenant : String) (connection : McpConnection) : Action ApiError (List ToolEntry) := do
  match ← ExceptT.lift (McpClientCache.getOrConnect tenant connection).run with
  | .error _ => return []
  | .ok client =>
    match ← perform (.listTools client) with
    | .error _ => return []
    | .ok infos => return infos.map (toolEntry client)

def mcpToolMetadata (tenant : String) : List McpConnection → Action ApiError (List ToolEntry)
  | [] => return []
  | connection :: connections => do
    let entries ← discover tenant connection
    let more ← mcpToolMetadata tenant connections
    return entries ++ more

-- The tools of the connections, to one who may read them. The tools of the server itself are left out.
def listTools (headers : Headers) : Handler := do
  let ctx ← perform (.tenantContext headers)
  match ctx.authorize "mcp:read" with
  | .error _ => return .tools []
  | .ok _ =>
    let connections ← perform (.list ctx.tenant)
    let entries ← mcpToolMetadata ctx.tenant connections
    return .tools entries

def runAgent (tenant : String) (mcpServers : List String) : Handler := do
  let ids ← mapErr (fun e => ⟨400, "mcp_resolution_failed", e.display⟩)
    (McpClientCache.resolveAgentMcpTools tenant mcpServers)
  return .resolved ids

/--
The requests. An agent is run for a tenant that another route or a workflow has found; what else happens to
the memberships is `setTenancy`, and `elapse` is time.
-/
inductive Call where
  | create (headers : Headers) (req : ConnectionRequest)
  | list (headers : Headers)
  | get (headers : Headers) (name : String)
  | delete (headers : Headers) (name : String)
  | refresh (headers : Headers) (name : String)
  | listTools (headers : Headers)
  | runAgent (tenant : String) (mcpServers : List String)
  | elapse (ms : Nat)
  | setTenancy (tenancy : TenancyState)

def handle : Call → Handler
  | .create headers req => createHandler headers req
  | .list headers => listHandler headers
  | .get headers name => getHandler headers name
  | .delete headers name => deleteHandler headers name
  | .refresh headers name => refreshHandler headers name
  | .listTools headers => listTools headers
  | .runAgent tenant mcpServers => runAgent tenant mcpServers
  | .elapse ms => do
    perform (.elapse ms)
    return .passed
  | .setTenancy tenancy => do
    perform (.setTenancy tenancy)
    return .passed

abbrev Answer := Except ApiError Reply

-- The requests of one lifetime of the server. The store and the cache lock one step at a time.
def Host.service (host : Host) : Service Call Op Res App Answer where
  exec := host.exec
  prog c := (handle c).run
  locked _ := false

end Wovyr.Server.Mcp
