import Wovyr.Server.Mcp

/-!
This module contains the trust boundary of the connections that start local processes, over the requests of
several lifetimes of the server.
-/

namespace Wovyr.Server.Mcp

open Tools Client.Makes

inductive Event where
  | request (c : Call)
  | restart (stdioEnabled : Bool)

structure Act where
  call : Call
  op : Op
  before : App

def App.restart (s : App) (stdioEnabled : Bool) : App :=
  { s with stdioEnabled, cache := ∅ }

def Call.headers? : Call → Option Headers
  | .create headers _ | .list headers | .get headers _ | .delete headers _ | .refresh headers _
  | .listTools headers => some headers
  | .runAgent _ _ | .elapse _ | .setTenancy _ => none

def Call.isCreate : Call → Bool
  | .create _ _ => true
  | _ => false

section

variable (host : Host)

def acts (s : App) : List Event → List Act
  | [] => []
  | .request c :: events =>
    ((handle c).run.acts host.exec s).map (fun act => ⟨c, act.1, act.2⟩)
      ++ acts ((handle c).run.run host.exec s).2 events
  | .restart stdioEnabled :: events => acts (s.restart stdioEnabled) events

def StdioAt (s : App) (tenant name : String) : Prop :=
  ∃ c, s.connections.get tenant name = some c ∧ c.transport.isStdio = true

namespace Act

variable (a : Act)

def after : App :=
  (host.exec a.op a.before).2

def Spawns : Prop :=
  ∃ tenant connection, a.op = .connect tenant connection
    ∧ (connection.connect host.net a.before.asked tenant).2.isSome = true

def Touches (tenant name : String) : Prop :=
  (∃ c, a.op = .put tenant c ∧ c.name = name ∧ (host.exec (.put tenant c) a.before).1.isOk = true)
    ∨ a.op = .delete tenant name

-- The step is one of a request whose principal holds the scope in the tenant.
def Holds (tenant scope : String) : Prop :=
  ∃ headers, a.call.headers? = some headers
    ∧ (Tenancy.tenantContext host.admins a.before.tenancy headers).tenant = tenant
    ∧ (Tenancy.tenantContext host.admins a.before.tenancy headers).can scope = true

structure Trusted : Prop where
  spawned : a.Spawns host → a.before.stdioEnabled = true
  touched : ∀ tenant name, a.Touches host tenant name →
    StdioAt a.before tenant name ∨ StdioAt (a.after host) tenant name → a.Holds host tenant "mcp:admin"

/--
A stored connection that starts a process is dialed only where the operator has enabled it, and one over HTTP
is put in its place by an admin only.
-/
structure Guarded : Prop where
  dials : a.call.isCreate = false → ∀ tenant c, a.op = .connect tenant c → c.transport.isStdio = true →
    a.before.stdioEnabled = true
  replaces : ∀ tenant c, a.op = .put tenant c → c.transport.isStdio = false →
    StdioAt a.before tenant c.name → a.Holds host tenant "mcp:admin"

end Act

end

section

variable {host : Host} {c : Call} {s : App}

def May (host : Host) (c : Call) (op : Op) (s : App) : Prop :=
  (Act.mk c op s).Guarded host → (Act.mk c op s).Trusted host

def Op.isPlain : Op → Bool
  | .connect _ _ | .put _ _ | .delete _ _ => false
  | _ => true

theorem may_plain {op : Op} (h : op.isPlain = true) : May host c op s := by
  intro _
  constructor
  . rintro ⟨tenant, connection, rfl, -⟩
    cases h
  . rintro tenant name (⟨connection, rfl, -⟩ | rfl) -
    . cases h
    . cases h

theorem may_connect {tenant : String} {connection : McpConnection}
    (h : c.isCreate = true → connection.transport.isStdio = true → s.stdioEnabled = true)
    : May host c (.connect tenant connection) s := by
  intro hguarded
  constructor
  . rintro ⟨t, c', heq, hspawns⟩
    cases heq
    have hstdio := McpConnection.isStdio_of_connect _ _ _ _ hspawns
    cases hcreate : c.isCreate with
    | true => exact h hcreate hstdio
    | false => exact hguarded.dials hcreate tenant connection rfl hstdio
  . rintro t name (⟨connection, heq, -⟩ | heq) -
    . cases heq
    . cases heq

section

variable {ε α β : Type} {post : Except ε β → App → Prop}

theorem makes_bind {m : Action ε α} {f : α → Action ε β}
    (h : m.run.Makes host.exec (May host c)
      (fun out t =>
        match out with
        | .ok a => (f a).run.Makes host.exec (May host c) post t
        | .error e => post (.error e) t) s)
    : (m >>= f).run.Makes host.exec (May host c) post s := by
  apply Client.Makes.bind
  apply imp _ h
  intro out t hout
  cases out with
  | ok a => exact hout
  | error e => exact hout

theorem makes_perform {op : Op} {f : Res op → Action ε β} (hmay : May host c op s)
    (hf : (f (host.exec op s).1).run.Makes host.exec (May host c) post (host.exec op s).2)
    : (perform op >>= f).run.Makes host.exec (May host c) post s :=
  ⟨hmay, hf⟩

theorem makes_orFail {ε' : Type} {g : ε' → ε} {x : Except ε' α} {f : α → Action ε β}
    (hok : ∀ a, x = .ok a → (f a).run.Makes host.exec (May host c) post s)
    (herror : ∀ e, x = .error e → post (.error (g e)) s)
    : (orFail g x >>= f).run.Makes host.exec (May host c) post s := by
  cases x with
  | ok a => exact hok a rfl
  | error e => exact herror e rfl

abbrev Keeps (host : Host) (c : Call) (m : Action ε α) (s : App) : Prop :=
  m.run.Makes host.exec (May host c) (fun _ _ => True) s

theorem keeps_bind {m : Action ε α} {f : α → Action ε β} (hm : Keeps host c m s)
    (hf : ∀ a t, Keeps host c (f a) t) : Keeps host c (m >>= f) s := by
  apply makes_bind
  apply imp _ hm
  intro out t _
  cases out with
  | ok a => exact hf a t
  | error e => trivial

theorem keeps_perform {op : Op} {f : Res op → Action ε β} (hmay : May host c op s)
    (hf : ∀ res t, Keeps host c (f res) t) : Keeps host c (perform op >>= f) s :=
  makes_perform hmay (hf _ _)

theorem keeps_orFail {ε' : Type} {g : ε' → ε} {x : Except ε' α} {f : α → Action ε β}
    (hf : ∀ a, Keeps host c (f a) s) : Keeps host c (orFail g x >>= f) s :=
  makes_orFail (fun a _ => hf a) (fun _ _ => trivial)

theorem keeps_mapErr {ε' : Type} {g : ε' → ε} {m : Action ε' α} (h : Keeps host c m s)
    : Keeps host c (mapErr g m) s := by
  apply Client.Makes.bind
  apply imp _ h
  intro out t _
  trivial

end

section

variable (hcreate : c.isCreate = false)

include hcreate

theorem keeps_getOrConnect (tenant : String) (connection : McpConnection)
    : Keeps host c (McpClientCache.getOrConnect tenant connection) s := by
  unfold McpClientCache.getOrConnect
  apply keeps_perform (may_plain rfl)
  intro cached t
  cases cached with
  | some client => trivial
  | none =>
    dsimp only
    apply keeps_perform
    . apply may_connect
      intro h
      rw [hcreate] at h
      cases h
    . intro out t
      apply keeps_orFail
      intro client
      apply keeps_perform (may_plain rfl)
      intro _ t
      trivial

theorem keeps_resolveAgentMcpTools (tenant : String) (names : List String)
    : Keeps host c (McpClientCache.resolveAgentMcpTools tenant names) s := by
  induction names generalizing s with
  | nil => trivial
  | cons name names ih =>
    unfold McpClientCache.resolveAgentMcpTools
    apply keeps_perform (may_plain rfl)
    intro connection? t
    cases connection? with
    | none => trivial
    | some connection =>
      apply keeps_bind (keeps_getOrConnect hcreate tenant connection)
      intro client t
      apply keeps_perform (may_plain rfl)
      intro out t
      apply keeps_orFail
      intro infos
      apply keeps_bind ih
      intro ids t
      trivial

theorem keeps_discover (tenant : String) (connection : McpConnection)
    : Keeps host c (discover tenant connection) s := by
  unfold discover
  apply keeps_bind
  . apply Client.Makes.bind
    apply imp (fun _ _ _ => trivial) (keeps_getOrConnect hcreate tenant connection)
  . intro client? t
    cases client? with
    | error e => trivial
    | ok client =>
      apply keeps_perform (may_plain rfl)
      intro out t
      cases out with
      | error e => trivial
      | ok infos => trivial

theorem keeps_mcpToolMetadata (tenant : String) (connections : List McpConnection)
    : Keeps host c (mcpToolMetadata tenant connections) s := by
  induction connections generalizing s with
  | nil => trivial
  | cons connection connections ih =>
    unfold mcpToolMetadata
    apply keeps_bind (keeps_discover hcreate tenant connection)
    intro entries t
    apply keeps_bind ih
    intro more t
    trivial

end

theorem keeps_tenantAuthorize (headers : Headers) (scope : String)
    : Keeps host c (tenantAuthorize headers scope) s := by
  unfold tenantAuthorize
  apply keeps_perform (may_plain rfl)
  intro ctx t
  apply keeps_orFail
  intro _
  trivial

structure Changes (host : Host) (headers : Headers) (name : String) (s t : App) (tenant : String)
    (connection : McpConnection) : Prop where
  same : t = s
  named : (Tenancy.tenantContext host.admins s.tenancy headers).tenant = tenant
  stored : s.connections.get tenant name = some connection
  admin : connection.transport.isStdio = true →
    (Tenancy.tenantContext host.admins s.tenancy headers).can "mcp:admin" = true

theorem makes_changeable (headers : Headers) (name : String)
    : (changeable headers name).run.Makes host.exec (May host c)
        (fun out t => ∀ tenant connection, out = .ok (tenant, connection) →
          Changes host headers name s t tenant connection) s := by
  unfold changeable
  apply makes_perform (may_plain rfl)
  apply makes_orFail
  . rintro _ -
    apply makes_perform (may_plain rfl)
    dsimp only [Host.exec]
    cases hget : s.connections.get (Tenancy.tenantContext host.admins s.tenancy headers).tenant name with
    | none => exact fun _ _ h => nomatch h
    | some connection =>
      apply makes_orFail
      . intro u hmay
        rintro _ _ ⟨⟩
        refine ⟨rfl, rfl, hget, ?_⟩
        intro hstdio
        unfold mayChange at hmay
        rw [if_pos hstdio] at hmay
        exact (TenantContext.authorize_eq_ok _ _ _).mp hmay
      . simp
  . simp

theorem may_delete {headers : Headers} {name tenant : String} {connection : McpConnection}
    (hchanges : Changes host headers name s s tenant connection)
    : May host (.delete headers name) (.delete tenant name) s := by
  intro _
  constructor
  . rintro ⟨t, c', heq, -⟩
    cases heq
  . rintro t n (⟨c', heq, -⟩ | heq) hstdio
    . cases heq
    . cases heq
      refine ⟨headers, rfl, hchanges.named, hchanges.admin ?_⟩
      rcases hstdio with ⟨c', hget, hstdio⟩ | ⟨c', hget, -⟩
      . have hstored := hchanges.stored
        rw [hget] at hstored
        cases hstored
        exact hstdio
      . change (s.connections.delete tenant name).2.get tenant name = some c' at hget
        rw [McpConnectionsState.get_delete, if_pos ⟨rfl, rfl⟩] at hget
        cases hget

theorem keeps_deleteHandler (headers : Headers) (name : String)
    : Keeps host (.delete headers name) (deleteHandler headers name) s := by
  unfold deleteHandler
  apply makes_bind
  apply imp _ (makes_changeable headers name)
  intro out t hout
  cases out with
  | error e => trivial
  | ok found =>
    obtain ⟨rfl, hnamed, hstored, hadmin⟩ := hout found.1 found.2 rfl
    apply keeps_perform (may_delete ⟨rfl, hnamed, hstored, hadmin⟩)
    intro existed t
    apply keeps_perform (may_plain rfl)
    intro _ t
    trivial

theorem keeps_refreshHandler (headers : Headers) (name : String)
    : Keeps host (.refresh headers name) (refreshHandler headers name) s := by
  unfold refreshHandler
  apply keeps_bind
  . exact imp (fun _ _ _ => trivial) (makes_changeable headers name)
  . intro found t
    apply keeps_perform (may_plain rfl)
    intro _ t
    apply keeps_bind
    . exact keeps_mapErr (keeps_getOrConnect rfl found.1 found.2)
    . intro client t
      apply keeps_perform (may_plain rfl)
      intro out t
      apply keeps_orFail
      intro tools
      trivial

theorem makes_tenantAuthorize (headers : Headers) (scope : String)
    : (tenantAuthorize headers scope).run.Makes host.exec (May host c)
        (fun out t => ∀ tenant, out = .ok tenant → t = s
          ∧ (Tenancy.tenantContext host.admins s.tenancy headers).tenant = tenant
          ∧ (Tenancy.tenantContext host.admins s.tenancy headers).can scope = true) s := by
  unfold tenantAuthorize
  apply makes_perform (may_plain rfl)
  apply makes_orFail
  . intro u hauth
    rintro _ ⟨⟩
    exact ⟨rfl, rfl, (TenantContext.authorize_eq_ok _ _ _).mp hauth⟩
  . simp

theorem makes_checkStdio (transport : McpTransportConfig)
    : (checkStdio transport).run.Makes host.exec (May host c)
        (fun out t => ∀ u, out = .ok u → t = s ∧ (transport.isStdio = true → s.stdioEnabled = true)) s := by
  unfold checkStdio
  split
  . apply makes_perform (may_plain rfl)
    dsimp only [Host.exec]
    split
    . next henabled => exact fun _ _ => ⟨rfl, fun _ => henabled⟩
    . exact fun _ h => nomatch h
  . next hstdio => exact fun _ _ => ⟨rfl, fun h => absurd h hstdio⟩

theorem makes_checkQuota (headers : Headers) (tenant : String)
    : (checkQuota headers tenant).run.Makes host.exec (May host c) (fun _ t => t = s) s := by
  unfold checkQuota
  split
  . rfl
  . apply makes_perform (may_plain rfl)
    dsimp only [Host.exec]
    split
    . rfl
    . apply makes_perform (may_plain rfl)
      dsimp only [Host.exec]
      cases QuotaLimits.checkMcpConnections _ _ with
      | ok u => rfl
      | error e => rfl

theorem may_put {headers : Headers} {req : ConnectionRequest} {tenant : String} {connection : McpConnection}
    (hnamed : (Tenancy.tenantContext host.admins s.tenancy headers).tenant = tenant)
    (hadmin : connection.transport.isStdio = true →
      (Tenancy.tenantContext host.admins s.tenancy headers).can "mcp:admin" = true)
    : May host (.create headers req) (.put tenant connection) s := by
  intro hguarded
  constructor
  . rintro ⟨t, c', heq, -⟩
    cases heq
  . rintro t n (⟨c', heq, rfl, hok⟩ | heq) hstdio
    . cases heq
      cases htransport : connection.transport.isStdio with
      | true => exact ⟨headers, rfl, hnamed, hadmin htransport⟩
      | false =>
        apply hguarded.replaces tenant connection rfl htransport
        rcases hstdio with hbefore | ⟨c', hget, hstdio⟩
        . exact hbefore
        . exfalso
          unfold Act.after Host.exec at hget
          unfold Host.exec at hok
          dsimp only at hget hok
          cases hput : s.connections.put tenant connection with
          | error e => simp [hput, Except.isOk, Except.toBool] at hok
          | ok connections =>
            rw [hput] at hget
            dsimp only at hget
            rw [McpConnectionsState.get_put hput, if_pos ⟨rfl, rfl⟩] at hget
            cases hget
            rw [htransport] at hstdio
            cases hstdio
    . cases heq

theorem keeps_createHandler (headers : Headers) (req : ConnectionRequest)
    : Keeps host (.create headers req) (createHandler headers req) s := by
  unfold createHandler
  apply keeps_orFail
  intro transport
  apply makes_bind
  apply imp _ (makes_tenantAuthorize headers _)
  intro out t hauth
  cases out with
  | error e => trivial
  | ok tenant =>
    obtain ⟨rfl, hnamed, hcan⟩ := hauth tenant rfl
    apply makes_bind
    apply imp _ (makes_checkStdio transport)
    intro out t hgate
    cases out with
    | error e => trivial
    | ok u =>
      obtain ⟨rfl, henabled⟩ := hgate u rfl
      apply makes_bind
      apply imp _ (makes_checkQuota headers tenant)
      rintro out t rfl
      cases out with
      | error e => trivial
      | ok u =>
        apply makes_perform (may_plain rfl)
        apply makes_perform (may_connect fun _ => henabled)
        apply keeps_orFail
        intro client
        apply makes_perform (may_plain rfl)
        apply keeps_orFail
        intro tools
        apply keeps_perform
        . apply may_put
          . exact hnamed
          . intro hstdio
            rw [if_pos hstdio] at hcan
            exact hcan
        . intro out t
          apply keeps_orFail
          intro _
          apply keeps_perform (may_plain rfl)
          intro _ t
          trivial

theorem keeps_handle (c : Call) : Keeps host c (handle c) s := by
  cases c with
  | create headers req => exact keeps_createHandler headers req
  | delete headers name => exact keeps_deleteHandler headers name
  | refresh headers name => exact keeps_refreshHandler headers name
  | list headers =>
    apply keeps_bind (keeps_tenantAuthorize headers _)
    intro tenant t
    apply keeps_perform (may_plain rfl)
    intro items t
    apply keeps_perform (may_plain rfl)
    intro stdioEnabled t
    trivial
  | get headers name =>
    apply keeps_bind (keeps_tenantAuthorize headers _)
    intro tenant t
    apply keeps_perform (may_plain rfl)
    intro connection? t
    cases connection? with
    | none => trivial
    | some connection => trivial
  | listTools headers =>
    apply keeps_perform (may_plain rfl)
    intro ctx t
    cases ctx.authorize "mcp:read" with
    | error e => trivial
    | ok u =>
      apply keeps_perform (may_plain rfl)
      intro connections t
      apply keeps_bind (keeps_mcpToolMetadata rfl ctx.tenant connections)
      intro entries t
      trivial
  | runAgent tenant mcpServers =>
    apply keeps_bind
    . exact keeps_mapErr (keeps_resolveAgentMcpTools rfl tenant mcpServers)
    . intro ids t
      trivial
  | elapse ms =>
    apply keeps_perform (may_plain rfl)
    intro _ t
    trivial
  | setTenancy tenancy =>
    apply keeps_perform (may_plain rfl)
    intro _ t
    trivial

end

/--
In a run whose steps are guarded, a process is started for a connection only where the operator has enabled
it, and a stored connection that starts one is created, replaced or removed by an admin of the tenant only.
-/
theorem trusted_of_run (host : Host) (s : App) (events : List Event)
    (hguarded : ∀ a ∈ acts host s events, a.Guarded host) : ∀ a ∈ acts host s events, a.Trusted host := by
  induction events generalizing s with
  | nil => simp [acts]
  | cons event events ih =>
    cases event with
    | restart stdioEnabled => exact ih _ hguarded
    | request c =>
      intro a ha
      have hguard := hguarded a ha
      rcases List.mem_append.mp ha with hnow | hlater
      . obtain ⟨act, hact, rfl⟩ := List.mem_map.mp hnow
        exact (keeps_handle c).acts act hact hguard
      . apply ih _ _ a hlater
        intro a' ha'
        exact hguarded a' (List.mem_append_right _ ha')

def reachable : Network where
  resolve _ _ _ := .ok "token"
  connectGuarded _ _ := .ok ()
  spawn _ _ := .ok ()
  handshake _ _ := .ok ()
  listTools _ _ := .ok []

def rootHost : Host where
  admins := some "root"
  net := reachable

def staffed : App where
  tenancy :=
    { TenancyState.empty with
      orgs := (∅ : Std.ExtTreeMap String Organization).insert "org-default-ops" (.new "default" "Ops")
      memberships := [⟨"ed", .editor, .organization "org-default-ops"⟩] }

def asPrincipal (principal : String) : Headers :=
  (∅ : Headers).insert "x-wovyr-principal" principal

def addFs (principal : String) (transport : McpTransportConfig) : Event :=
  .request (.create (asPrincipal principal) { name := "fs", transport := .ok transport })

def enabledOnly : List Event :=
  [.restart true, addFs "root" (.stdio "node" []), .request (.runAgent "default" ["fs"]),
    .request (.delete (asPrincipal "root") "fs")]

instance (a : Act) (tenant scope : String) : Decidable (a.Holds rootHost tenant scope) :=
  match h : a.call.headers? with
  | none => isFalse (by simp [Act.Holds, h])
  | some headers =>
    decidable_of_iff
      ((Tenancy.tenantContext rootHost.admins a.before.tenancy headers).tenant = tenant
        ∧ (Tenancy.tenantContext rootHost.admins a.before.tenancy headers).can scope = true)
      (by simp [Act.Holds, h])

def Act.guarded? (a : Act) : Bool :=
  match a.op with
  | .connect _ c => a.call.isCreate || !c.transport.isStdio || a.before.stdioEnabled
  | .put tenant _ => decide (a.Holds rootHost tenant "mcp:admin")
  | _ => true

theorem Act.guarded_of_eq_true {a : Act} (h : a.guarded? = true) : a.Guarded rootHost := by
  unfold Act.guarded? at h
  constructor
  . intro hcreate tenant c hop hstdio
    simpa [hop, hcreate, hstdio] using h
  . intro tenant c hop _ _
    simpa [hop] using h

theorem trusted_enabled_only
    : acts rootHost {} enabledOnly ≠ [] ∧ ∀ a ∈ acts rootHost {} enabledOnly, a.Trusted rootHost := by
  have hsome : (acts rootHost {} enabledOnly).isEmpty = false := by decide
  refine ⟨fun hnil => Bool.noConfusion (hsome.symm.trans (congrArg List.isEmpty hnil)), ?_⟩
  apply trusted_of_run
  intro a ha
  apply Act.guarded_of_eq_true
  have hall : (acts rootHost {} enabledOnly).all Act.guarded? = true := by decide
  exact List.all_eq_true.mp hall a ha

def enabledOnce : List Event :=
  [.restart true, addFs "root" (.stdio "node" []), .restart false, .request (.runAgent "default" ["fs"])]

def replacedByEditor : List Event :=
  [.restart true, addFs "root" (.stdio "node" []), addFs "ed" (.http "https://example.org/mcp")]

theorem not_trusted
    : ¬(∀ a ∈ acts rootHost {} enabledOnce, a.Trusted rootHost)
      ∧ ¬∀ a ∈ acts rootHost staffed replacedByEditor, a.Trusted rootHost := by
  constructor
  . intro htrusted
    have hany : ((acts rootHost {} enabledOnce).any fun a =>
        (match a.op with
        | .connect tenant c => (c.connect rootHost.net a.before.asked tenant).2.isSome
        | _ => false) && !a.before.stdioEnabled) = true := by
      decide
    obtain ⟨a, ha, hspawns⟩ := List.any_eq_true.mp hany
    rw [Bool.and_eq_true] at hspawns
    obtain ⟨hspawns, hdisabled⟩ := hspawns
    split at hspawns
    . next tenant c hop =>
      simp [(htrusted a ha).spawned ⟨tenant, c, hop, hspawns⟩] at hdisabled
    . cases hspawns
  . intro htrusted
    have hany : ((acts rootHost staffed replacedByEditor).any fun a =>
        match a.op with
        | .put tenant c =>
          (rootHost.exec (.put tenant c) a.before).1.isOk
            && (a.before.connections.get tenant c.name).any (·.transport.isStdio)
            && !decide (a.Holds rootHost tenant "mcp:admin")
        | _ => false) = true := by
      decide
    obtain ⟨a, ha, hput⟩ := List.any_eq_true.mp hany
    split at hput
    . next tenant c hop =>
      simp only [Bool.and_eq_true, Option.any_eq_true, Bool.not_eq_true', decide_eq_false_iff_not] at hput
      obtain ⟨⟨hok, old, hold, hstdio⟩, hholds⟩ := hput
      apply hholds
      exact (htrusted a ha).touched tenant c.name (Or.inl ⟨c, hop, rfl, hok⟩) (Or.inl ⟨old, hold, hstdio⟩)
    . cases hput

end Wovyr.Server.Mcp
