import Wovyr.Tools.Mcp

/-!
This module contains the tools of MCP servers as they are registered for a run, with their ids and
permissions.
-/

namespace Wovyr.Tools.McpTools

open List

/--
A live client of a server. What the server answers to a call is up to the server.
-/
structure LiveClient where
  server : String
  serverVersion : String
  toolPermissions : List String
  callTool : String → Value → Except ToolError ToolResponse

structure Dialed where
  serverVersion : Option String
  callTool : String → Value → Except ToolError ToolResponse

namespace LiveClient

def connect (server : String) (handshake : Except ToolError Dialed) : Except ToolError LiveClient :=
  if !isValidMcpServerName server then
    .error (.validation (s!"MCP server name `{server}` must be a non-empty [A-Za-z0-9_-]+ identifier "
      ++ "— it namespaces tool ids and permissions"))
  else
    handshake.map fun dialed =>
      { server
        serverVersion := dialed.serverVersion.getD "0"
        toolPermissions := [s!"mcp:{server}"]
        callTool := dialed.callTool }

-- A client as it comes out of `connect`.
structure Plain (client : LiveClient) (server : String) : Prop where
  name : client.server = server
  permissions : client.toolPermissions = [s!"mcp:{server}"]

theorem plain_connect {server : String} {handshake : Except ToolError Dialed} {client : LiveClient}
    (h : connect server handshake = .ok client) : client.Plain server := by
  rw [connect] at h
  split at h
  next => cases h
  next =>
    cases handshake with
    | error e => cases h
    | ok dialed =>
      cases h
      exact ⟨rfl, rfl⟩

end LiveClient

structure McpTool where
  client : LiveClient
  info : McpToolInfo
  inputSchema : Value

def sanitizeId (part : String) : String :=
  part.map fun c => if c.isAlphanum || c == '_' || c == '-' then c else '_'

namespace McpTool

variable (t : McpTool)

def metadata : ToolMetadata where
  id := s!"mcp__{t.client.server}__{sanitizeId t.info.name}"
  version := t.client.serverVersion
  category := "mcp"
  description :=
    if t.info.description = "" then
      s!"MCP tool `{t.info.name}` served by `{t.client.server}`"
    else
      t.info.description
  permissions := t.client.toolPermissions

def tool : Tool where
  metadata := t.metadata
  inputSchema := t.inputSchema
  execute := fun _ parameters => t.client.callTool t.info.name parameters

end McpTool

/--
The live clients of a tenant's connections. Each was dialed for the connection that it is kept for.
-/
structure McpClientCache where
  entries : String → String → Option LiveClient
  plain : ∀ tenant name client, entries tenant name = some client → client.Plain name

namespace McpClientCache

def empty : McpClientCache where
  entries := fun _ _ => none
  plain := nofun

def insert (cache : McpClientCache) (tenant name : String) (client : LiveClient) (h : client.Plain name)
    : McpClientCache where
  entries := fun t n => if t = tenant ∧ n = name then some client else cache.entries t n
  plain := by
    intro t n other hother
    split at hother
    next heq =>
      cases hother
      rw [heq.2]
      exact h
    next => exact cache.plain t n other hother

def remove (cache : McpClientCache) (tenant name : String) : McpClientCache where
  entries := fun t n => if t = tenant ∧ n = name then none else cache.entries t n
  plain := by
    intro t n other hother
    split at hother
    next => cases hother
    next => exact cache.plain t n other hother

end McpClientCache

/--
What is answered from outside at the `n`-th use of a connection: whether its client is still within the idle window,
what dialing it comes to, and which tools its server lists.
-/
structure Servers where
  fresh : Nat → Bool
  dial : Nat → McpConnection → Except ToolError Dialed
  listTools : Nat → LiveClient → Except ToolError (List (McpToolInfo × Value))

namespace Servers

variable (servers : Servers) (n : Nat) (tenant : String)

-- The secret and the transport are part of what dialing comes to.
def connect (connection : McpConnection) : Except ToolError LiveClient :=
  LiveClient.connect connection.name (servers.dial n connection)

def getOrConnect (connection : McpConnection) (cache : McpClientCache) : Except ToolError (LiveClient × McpClientCache) :=
  let redial (cache : McpClientCache) : Except ToolError (LiveClient × McpClientCache) :=
    match h : servers.connect n connection with
    | .error e => .error e
    | .ok client => .ok (client, cache.insert tenant connection.name client (LiveClient.plain_connect h))
  match cache.entries tenant connection.name with
  | some client =>
    if servers.fresh n then
      .ok (client, cache)
    else
      redial (cache.remove tenant connection.name)
  | none => redial cache

def discoverTools (client : LiveClient) : Except ToolError (List McpTool) :=
  (servers.listTools n client).map fun infos =>
    infos.map fun (info, inputSchema) => { client, info, inputSchema }

end Servers

structure Served where
  connection : McpConnection
  proxy : McpTool

def registerInto (registry : ToolRegistry) (tools : List McpTool) : ToolRegistry :=
  tools.foldl (fun registry t => registry.register t.tool) registry

/--
What a resolution comes to: the clients that are kept, the registry, and what was registered, whose ids are returned.
-/
structure Resolved where
  cache : McpClientCache
  registry : ToolRegistry
  served : List Served

def Resolved.ids (r : Resolved) : List String :=
  r.served.map fun s => s.proxy.metadata.id

def resolveAgentMcpTools (servers : Servers) (store : McpConnectionsState) (tenant : String)
    : Nat → List String → Resolved → Except ToolError Resolved
  | _, [], r => .ok r
  | n, name :: names, r => do
    match store.get tenant name with
    | none => throw (.validation s!"no configured MCP connection named `{name}` for this tenant")
    | some connection =>
      let (client, cache) ← servers.getOrConnect n tenant connection r.cache
      let tools ← servers.discoverTools n client
      resolveAgentMcpTools servers store tenant (n + 1) names {
        cache
        registry := registerInto r.registry tools
        served := r.served ++ tools.map fun proxy => { connection, proxy } }

section Names

variable {a b c d : List Char} {s t : String}

-- A name that goes on where another one ends, so that the rest of the other begins with what it goes on with.
def GoesOn (short long restShort restLong : List Char) : Prop :=
  (long = short ++ ['_'] ∧ restShort = '_' :: restLong)
    ∨ ∃ more, long = short ++ '_' :: '_' :: more ∧ restShort = more ++ '_' :: '_' :: restLong

theorem joined_of_goesOn (h : GoesOn a c b d) : a ++ '_' :: '_' :: b = c ++ '_' :: '_' :: d := by
  obtain ⟨rfl, rfl⟩ | ⟨more, rfl, rfl⟩ := h
  . rw [append_assoc, singleton_append]
  . rw [append_assoc, cons_append, cons_append]

theorem goesOn_of_joined {x : List Char} (hx : x ≠ []) (h : '_' :: '_' :: b = x ++ '_' :: '_' :: d) (a : List Char)
    : GoesOn a (a ++ x) b d := by
  match x with
  | [] => exact absurd rfl hx
  | [p] =>
    rw [singleton_append, cons.injEq, cons.injEq] at h
    obtain ⟨rfl, -, rfl⟩ := h
    exact .inl ⟨rfl, rfl⟩
  | p :: q :: more =>
    rw [cons_append, cons_append, cons.injEq, cons.injEq] at h
    obtain ⟨rfl, rfl, rfl⟩ := h
    exact .inr ⟨more, rfl, rfl⟩

theorem joined_iff
    : a ++ '_' :: '_' :: b = c ++ '_' :: '_' :: d ↔ (a = c ∧ b = d) ∨ GoesOn a c b d ∨ GoesOn c a d b := by
  constructor
  . intro h
    obtain ⟨x, hc, hb⟩ | ⟨x, ha, hd⟩ := append_eq_append_iff.mp h
    . by_cases hx : x = []
      . rw [hx] at hc hb
        rw [append_nil] at hc
        exact .inl ⟨hc.symm, (cons.inj (cons.inj hb).2).2⟩
      . rw [hc]
        exact .inr (.inl (goesOn_of_joined hx hb a))
    . by_cases hx : x = []
      . rw [hx] at ha hd
        rw [append_nil] at ha
        exact .inl ⟨ha, (cons.inj (cons.inj hd).2).2.symm⟩
      . rw [ha]
        exact .inr (.inr (goesOn_of_joined hx hd c))
  . rintro (⟨rfl, rfl⟩ | h | h)
    . rfl
    . exact joined_of_goesOn h
    . exact (joined_of_goesOn h).symm

def isIdChar (c : Char) : Bool :=
  c.isAlphanum || c == '_' || c == '-'

-- Names that differ, if at all, in characters for which an id has an underscore.
def Alike (s t : String) : Prop :=
  Forall₂ (fun c d => c = d ∨ (c = '_' ∨ ¬isIdChar c) ∧ (d = '_' ∨ ¬isIdChar d)) s.toList t.toList

theorem toList_sanitizeId (s : String)
    : (sanitizeId s).toList = s.toList.map fun c => if isIdChar c then c else '_' := by
  rw [sanitizeId, String.toList_map]
  rfl

theorem sanitizeId_eq_iff : sanitizeId s = sanitizeId t ↔ Alike s t := by
  rw [← String.toList_inj, toList_sanitizeId, toList_sanitizeId, ← forall₂_eq_eq_eq, forall₂_map_left_iff,
    forall₂_map_right_iff, Alike]
  have hchar (c d : Char) : ((if isIdChar c then c else '_') = if isIdChar d then d else '_')
      ↔ c = d ∨ (c = '_' ∨ ¬isIdChar c) ∧ (d = '_' ∨ ¬isIdChar d) := by
    by_cases hc : isIdChar c
    . by_cases hd : isIdChar d
      . rw [if_pos hc, if_pos hd]
        grind
      . rw [if_pos hc, if_neg hd]
        grind
    . by_cases hd : isIdChar d
      . rw [if_neg hc, if_pos hd]
        grind
      . rw [if_neg hc, if_neg hd]
        grind
  simp only [hchar]

/--
Two tools whose ids are the same: the names of the tools of one server are alike, or the name of one server goes on
where that of the other ends.
-/
def Clash (server tool server' tool' : String) : Prop :=
  (server = server' ∧ Alike tool tool')
    ∨ GoesOn server.toList server'.toList (sanitizeId tool).toList (sanitizeId tool').toList
    ∨ GoesOn server'.toList server.toList (sanitizeId tool').toList (sanitizeId tool).toList

theorem id_eq_iff (server tool other name : String)
    : s!"mcp__{server}__{sanitizeId tool}" = s!"mcp__{other}__{sanitizeId name}"
      ↔ Clash server tool other name := by
  have hid (server tool : String) : (s!"mcp__{server}__{sanitizeId tool}").toList
      = "mcp__".toList ++ (server.toList ++ '_' :: '_' :: (sanitizeId tool).toList) := by
    simp only [String.toList_append, append_assoc]
    rfl
  rw [← String.toList_inj, hid, hid, append_cancel_left_eq, joined_iff, String.toList_inj, String.toList_inj,
    sanitizeId_eq_iff]
  rfl

end Names

section Resolve

variable {servers : Servers} {store : McpConnectionsState} {tenant : String} {registry : ToolRegistry}
  {tools : List McpTool}

theorem get_registerInto (registry : ToolRegistry) (tools : List McpTool) (id : String)
    : (∃ t ∈ tools, t.metadata.id = id ∧ (registerInto registry tools).get id = some t.tool)
        ∨ ((∀ t ∈ tools, t.metadata.id ≠ id) ∧ (registerInto registry tools).get id = registry.get id) := by
  induction tools using reverseRecOn with
  | nil => exact .inr ⟨nofun, rfl⟩
  | append_singleton tools t ih =>
    have hget : (registerInto registry (tools ++ [t])).get id
        = if t.metadata.id = id then some t.tool else (registerInto registry tools).get id := by
      rw [registerInto, foldl_append]
      exact ToolRegistry.get_register _ t.tool id
    rw [hget]
    by_cases hid : t.metadata.id = id
    . rw [if_pos hid]
      exact .inl ⟨t, mem_append_right tools mem_cons_self, hid, rfl⟩
    . rw [if_neg hid]
      obtain ⟨t', ht', hid', hget'⟩ | ⟨hnone, hget'⟩ := ih
      . exact .inl ⟨t', mem_append_left [t] ht', hid', hget'⟩
      . refine .inr ⟨?_, hget'⟩
        intro t' ht'
        cases mem_append.mp ht' with
        | inl h => exact hnone t' h
        | inr h =>
          rw [mem_singleton.mp h]
          exact hid

theorem plain_getOrConnect {n : Nat} {connection : McpConnection} {cache cache' : McpClientCache} {client : LiveClient}
    (h : servers.getOrConnect n tenant connection cache = .ok (client, cache')) : client.Plain connection.name := by
  have hredial (cache : McpClientCache) (h : (match h : servers.connect n connection with
      | .error e => (.error e : Except ToolError (LiveClient × McpClientCache))
      | .ok client => .ok (client, cache.insert tenant connection.name client (LiveClient.plain_connect h)))
        = .ok (client, cache')) : client.Plain connection.name := by
    split at h
    next => cases h
    next client hclient =>
      cases h
      exact LiveClient.plain_connect hclient
  rw [Servers.getOrConnect] at h
  split at h
  next client hclient =>
    split at h
    next =>
      cases h
      exact cache.plain tenant connection.name _ hclient
    next => exact hredial _ h
  next => exact hredial _ h

/--
A registry with the tools that were served on top of it, each by a plain client of its connection.
-/
structure Registered (registry : ToolRegistry) (r : Resolved) : Prop where
  registry : r.registry = registerInto registry (r.served.map Served.proxy)
  plain : ∀ s ∈ r.served, s.proxy.client.Plain s.connection.name

theorem registered_resolve {n : Nat} {names : List String} {r r' : Resolved} (hr : Registered registry r)
    (h : resolveAgentMcpTools servers store tenant n names r = .ok r') : Registered registry r' := by
  induction names generalizing n r with
  | nil =>
    cases h
    exact hr
  | cons name names ih =>
    rw [resolveAgentMcpTools] at h
    split at h
    next => cases h
    next connection hget =>
      obtain ⟨⟨client, cache⟩, hclient, h⟩ := (bind_eq_ok _ _ _).mp h
      obtain ⟨proxies, hproxies, h⟩ := (bind_eq_ok _ _ _).mp h
      apply ih _ h
      refine ⟨?_, ?_⟩
      . rw [hr.registry, map_append, map_map]
        have hproxy : (Served.proxy ∘ fun proxy => { connection, proxy }) = (id : McpTool → McpTool) := rfl
        rw [hproxy, map_id, registerInto, registerInto, registerInto, foldl_append]
      . intro s hs
        cases mem_append.mp hs with
        | inl hs => exact hr.plain s hs
        | inr hs =>
          obtain ⟨proxy, hproxy, rfl⟩ := mem_map.mp hs
          rw [Servers.discoverTools] at hproxies
          cases hlist : servers.listTools n client with
          | error e =>
            rw [hlist] at hproxies
            cases hproxies
          | ok infos =>
            rw [hlist] at hproxies
            cases hproxies
            obtain ⟨info, -, rfl⟩ := mem_map.mp hproxy
            exact plain_getOrConnect hclient

namespace Served

variable (s : Served)

def key : String × String :=
  (s.connection.name, s.proxy.info.name)

def permissions : List String :=
  s.connection.toolPermissions.getD [s!"mcp:{s.connection.name}"]

end Served

/--
Tools keep apart: two have two ids, each id leads to its own tool with the permissions of its connection, and what was
registered before stays.
-/
structure KeptApart (registry : ToolRegistry) (r : Resolved) : Prop where
  distinct : ∀ s ∈ r.served, ∀ s' ∈ r.served, s.key ≠ s'.key → s.proxy.metadata.id ≠ s'.proxy.metadata.id
  own : ∀ s ∈ r.served, ∃ s' ∈ r.served, s'.key = s.key ∧ r.registry.get s.proxy.metadata.id = some s'.proxy.tool
  unused : ∀ s ∈ r.served, registry.get s.proxy.metadata.id = none
  kept : ∀ id tool, registry.get id = some tool → r.registry.get id = some tool
  permissions : ∀ s ∈ r.served, s.proxy.tool.metadata.permissions = s.permissions

/--
No two tools clash, none has an id that is taken, and no connection has other permissions than the default.
-/
structure Apart (registry : ToolRegistry) (served : List Served) : Prop where
  clash : ∀ s ∈ served, ∀ s' ∈ served, s.key ≠ s'.key → ¬Clash s.key.1 s.key.2 s'.key.1 s'.key.2
  taken : ∀ s ∈ served, registry.get s!"mcp__{s.connection.name}__{sanitizeId s.proxy.info.name}" = none
  default : ∀ s ∈ served, ∀ permissions, s.connection.toolPermissions = some permissions →
    permissions = [s!"mcp:{s.connection.name}"]

theorem keptApart_iff {names : List String} {cache : McpClientCache} {r : Resolved}
    (h : resolveAgentMcpTools servers store tenant 0 names ⟨cache, registry, []⟩ = .ok r)
    : KeptApart registry r ↔ Apart registry r.served := by
  have hreg : Registered registry r := registered_resolve ⟨rfl, forall_mem_nil _⟩ h
  have hid (s : Served) (hs : s ∈ r.served)
      : s.proxy.metadata.id = s!"mcp__{s.connection.name}__{sanitizeId s.proxy.info.name}" := by
    rw [McpTool.metadata, (hreg.plain s hs).name]
  have hclash (s s' : Served) (hs : s ∈ r.served) (hs' : s' ∈ r.served)
      : s.proxy.metadata.id = s'.proxy.metadata.id ↔ Clash s.key.1 s.key.2 s'.key.1 s'.key.2 := by
    rw [hid s hs, hid s' hs']
    exact id_eq_iff _ _ _ _
  have hpermissions (s : Served) (hs : s ∈ r.served)
      : s.proxy.tool.metadata.permissions = [s!"mcp:{s.connection.name}"] := (hreg.plain s hs).permissions
  constructor
  . intro hkept
    refine ⟨?_, ?_, ?_⟩
    . intro s hs s' hs' hkey
      rw [← hclash s s' hs hs']
      exact hkept.distinct s hs s' hs' hkey
    . intro s hs
      rw [← hid s hs]
      exact hkept.unused s hs
    . intro s hs permissions hset
      have hown := hkept.permissions s hs
      rw [hpermissions s hs, Served.permissions, hset] at hown
      exact hown.symm
  . intro hapart
    have hdistinct : ∀ s ∈ r.served, ∀ s' ∈ r.served, s.key ≠ s'.key
        → s.proxy.metadata.id ≠ s'.proxy.metadata.id := by
      intro s hs s' hs' hkey
      rw [ne_eq, hclash s s' hs hs']
      exact hapart.clash s hs s' hs' hkey
    have hunused : ∀ s ∈ r.served, registry.get s.proxy.metadata.id = none := by
      intro s hs
      rw [hid s hs]
      exact hapart.taken s hs
    refine ⟨hdistinct, ?_, hunused, ?_, ?_⟩
    . intro s hs
      rw [hreg.registry]
      obtain ⟨t, ht, htid, hget⟩ | ⟨hnone, -⟩ :=
        get_registerInto registry (r.served.map Served.proxy) s.proxy.metadata.id
      . obtain ⟨s', hs', rfl⟩ := mem_map.mp ht
        refine ⟨s', hs', ?_, hget⟩
        by_contra hkey
        exact hdistinct s' hs' s hs hkey htid
      . exact absurd rfl (hnone s.proxy (mem_map_of_mem hs))
    . intro id tool htool
      rw [hreg.registry]
      obtain ⟨t, ht, rfl, -⟩ | ⟨-, hget⟩ := get_registerInto registry (r.served.map Served.proxy) id
      . obtain ⟨s', hs', rfl⟩ := mem_map.mp ht
        rw [hunused s' hs'] at htool
        cases htool
      . rw [hget, htool]
    . intro s hs
      rw [hpermissions s hs, Served.permissions]
      cases hset : s.connection.toolPermissions with
      | none => rfl
      | some permissions => exact (hapart.default s hs permissions hset).symm

def localServer (name : String) (toolPermissions : Option (List String)) : McpConnection where
  name
  transport := .stdio "serve" [name]
  toolPermissions
  createdMs := 0
  updatedMs := 0

def localStore (connections : List McpConnection) : McpConnectionsState :=
  (∅ : McpConnectionsState).insert "acme" (connections.foldl (fun byName c => byName.insert c.name c) ∅)

def listing (toolsOf : String → List String) : Servers where
  fresh := fun _ => true
  dial := fun _ _ => .ok { serverVersion := none, callTool := fun _ _ => .error (.internal "") }
  listTools := fun _ client => .ok ((toolsOf client.server).map fun name => ({ name, description := "" }, .object []))

def echo : Tool where
  metadata := { id := "mcp__docs__read", version := "1.0.0", category := "utility", description := "" }
  inputSchema := .object []
  execute := fun _ parameters => .ok ⟨true, parameters⟩

def docsServers : Servers :=
  listing fun server => if server = "docs" then ["search", "list all"] else ["search", "open"]

def docsStore : McpConnectionsState :=
  localStore [localServer "docs" (some ["mcp:docs"]), localServer "docs-old" none]

def docsServed : List ((String × String) × Option (List String)) :=
  [(("docs", "search"), some ["mcp:docs"]), (("docs", "list all"), some ["mcp:docs"]),
    (("docs-old", "search"), none), (("docs-old", "open"), none),
    (("docs", "search"), some ["mcp:docs"]), (("docs", "list all"), some ["mcp:docs"])]

-- The second use of a connection finds its client in the cache and registers the tools again.
theorem keptApart_docs
    : ∃ r, resolveAgentMcpTools docsServers docsStore "acme" 0 ["docs", "docs-old", "docs"]
          ⟨.empty, ToolRegistry.new.register echo, []⟩ = .ok r
        ∧ (r.served.map fun s => (s.key, s.connection.toolPermissions)) = docsServed
        ∧ KeptApart (ToolRegistry.new.register echo) r := by
  have hresolve : ∃ r, resolveAgentMcpTools docsServers docsStore "acme" 0 ["docs", "docs-old", "docs"]
          ⟨.empty, ToolRegistry.new.register echo, []⟩ = .ok r
        ∧ (r.served.map fun s => (s.key, s.connection.toolPermissions)) = docsServed := ⟨_, rfl, rfl⟩
  obtain ⟨r, hr, hserved⟩ := hresolve
  have hmem (s : Served) (hs : s ∈ r.served) : (s.key, s.connection.toolPermissions) ∈ docsServed := by
    rw [← hserved]
    exact mem_map_of_mem hs
  refine ⟨r, hr, hserved, (keptApart_iff hr).mpr ⟨?_, ?_, ?_⟩⟩
  . intro s hs s' hs' hkey
    have hids : ∀ x ∈ docsServed, ∀ y ∈ docsServed, x.1 ≠ y.1
        → s!"mcp__{x.1.1}__{sanitizeId x.1.2}" ≠ s!"mcp__{y.1.1}__{sanitizeId y.1.2}" := by decide +kernel
    rw [← id_eq_iff]
    exact hids (s.key, _) (hmem s hs) (s'.key, _) (hmem s' hs') hkey
  . intro s hs
    have hfree : ∀ x ∈ docsServed, "mcp__docs__read" ≠ s!"mcp__{x.1.1}__{sanitizeId x.1.2}" := by decide +kernel
    rw [ToolRegistry.get_register]
    exact if_neg (hfree (s.key, _) (hmem s hs))
  . intro s hs permissions hset
    have hown : ∀ x ∈ docsServed, ∀ permissions ∈ x.2, permissions = [s!"mcp:{x.1.1}"] := by decide +kernel
    exact hown (s.key, _) (hmem s hs) permissions hset

-- One server goes on where the name of the other ends, and the permissions of a connection are not those that are set.
theorem not_keptApart
    : (∃ r, resolveAgentMcpTools (listing fun server => if server = "a" then ["b__c"] else ["c"])
            (localStore [localServer "a" none, localServer "a__b" none]) "acme" 0 ["a", "a__b"] ⟨.empty, .new, []⟩ = .ok r
          ∧ r.ids = ["mcp__a__b__c", "mcp__a__b__c"] ∧ ¬KeptApart .new r)
      ∧ ∃ r, resolveAgentMcpTools (listing fun _ => ["drop"]) (localStore [localServer "db" (some ["db:admin"])]) "acme" 0
            ["db"] ⟨.empty, .new, []⟩ = .ok r
          ∧ ¬KeptApart .new r := by
  refine ⟨⟨_, rfl, by decide +kernel, ?_⟩, ⟨_, rfl, ?_⟩⟩
  . intro h
    exact h.distinct _ mem_cons_self _ (mem_cons_of_mem _ mem_cons_self) (by decide)
      (by decide +kernel)
  . intro h
    have hpermissions := h.permissions _ mem_cons_self
    revert hpermissions
    decide

end Wovyr.Tools.McpTools.Resolve
