import Wovyr.Lib.Aging
import Wovyr.Server.Tenancy
import Wovyr.Workflow.Definition

/-!
This module contains the replay of responses by `Idempotency-Key`. A request looks its key up and
then either gets what is stored under it or enters the handler of its route, which first asks for
the scopes that the request needs; what it answers after that is left open.
-/

namespace Wovyr.Server.Hardening

inductive Method where
  | get
  | head
  | options
  | post
  | put
  | patch
  | delete
deriving DecidableEq

def Method.display : Method → String
  | .get => "GET"
  | .head => "HEAD"
  | .options => "OPTIONS"
  | .post => "POST"
  | .put => "PUT"
  | .patch => "PATCH"
  | .delete => "DELETE"

inductive Body where
  | empty
  | json (value : Value)
  -- Not JSON.
  | other (text : String)
  -- More than 16 MiB.
  | large
deriving DecidableEq

structure Request where
  method : Method
  path : String
  headers : Headers
  body : Body := .empty
  -- Neither the path of a URI nor the text of a header has control characters.
  path_visible : '\x1f' ∉ path.toList
  header_visible : ∀ name value : String, headers[name]? = some value → '\x1f' ∉ value.toList

structure Response where
  status : Nat
  body : Body
deriving DecidableEq

def Response.isSuccess (r : Response) : Bool :=
  200 ≤ r.status && r.status < 300

def scopedFor (tenant key : String) : String :=
  tenant ++ "\x1f" ++ key

def idempotencyKey (headers : Headers) : Option String :=
  (header headers "idempotency-key").filter fun s => !s.isEmpty

def isReplayEligible (method : Method) (path : String) : Bool :=
  (method matches .post | .put | .patch | .delete)
    && (Text.stripSuffix ":query" path).isNone
    && (Text.stripSuffix ":stream" path).isNone

def Request.scopedKey (r : Request) : Option String :=
  if isReplayEligible r.method r.path then
    (idempotencyKey r.headers).map fun key =>
      scopedFor (Tenancy.requestTenant r.headers) (r.method.display ++ " " ++ r.path ++ "\x1f" ++ key)
  else
    none

def cachedJson (status : Nat) (body : Value) : Value :=
  .object [("status", .int status), ("body", body)]

def replayCached (cached : Value) : Response :=
  let status := (((Workflow.field? "status" cached).bind Workflow.asU64).filter
    fun s => 100 ≤ s && s < 1000).getD 200
  match Workflow.field? "body" cached with
  | none => ⟨status, .empty⟩
  | some .null => ⟨status, .empty⟩
  | some body => ⟨status, .json body⟩

inductive Need where
  | tenant (scope : String)
  | context (project : Option String) (scope : String)
deriving DecidableEq

-- `σ` is what the stores hold that the handlers read.
structure App (σ : Type) where
  admins : Tenancy.PlatformAdmins
  bounds : Aging.Bounds
  -- What the handler of a request asks for, one after the other.
  needs : σ → Request → List Need

structure IdempotencyEntry where
  body : Value
  -- The request that was answered with it.
  owner : Request

structure InFlight where
  request : Request
  scopedKey : Option String
  arrivedAt : Nat
  -- How many handlers had succeeded before.
  seen : Nat

structure Success where
  request : Request
  response : Response
  time : Nat

structure Answer where
  request : Request
  response : Response
  arrivedAt : Nat
  seen : Nat
  replayed : Bool
  -- What the handler would have said to the request when it arrived.
  authorized : Except Error Unit

structure AppState (σ : Type) where
  tenancy : TenancyState
  stored : σ
  clock : Nat := 0
  store : Aging IdempotencyEntry := {}
  inflight : List InFlight := []
  successes : List Success := []
  answers : List Answer := []

def intoResponse (e : ApiError) : Response :=
  let kind := if 400 ≤ e.status ∧ e.status ≤ 499 then "client_error" else "server_error"
  ⟨e.status, .json (.object [("error", .object [("code", .string e.code),
    ("message", .string e.message), ("type", .string kind), ("status", .int e.status)])])⟩

section

variable {σ : Type} (app : App σ)

def Need.check (admins : Tenancy.PlatformAdmins) (tenancy : TenancyState) (headers : Headers)
    : Need → Except Error Unit
  | .tenant scope => (Tenancy.tenantContext admins tenancy headers).authorize scope
  | .context project scope => (Tenancy.context admins tenancy headers project).authorize scope

def authorize (tenancy : TenancyState) (stored : σ) (r : Request) : Except Error Unit :=
  forM (app.needs stored r) (Need.check app.admins tenancy r.headers)

namespace AppState

def answer (s : AppState σ) (r : Request) (response : Response) (replayed : Bool) : AppState σ :=
  { s with
    answers := s.answers ++
      [⟨r, response, s.clock, s.successes.length, replayed, authorize app s.tenancy s.stored r⟩] }

def enter (s : AppState σ) (r : Request) : AppState σ :=
  match authorize app s.tenancy s.stored r with
  | .ok () =>
    { s with inflight := s.inflight ++ [⟨r, r.scopedKey, s.clock, s.successes.length⟩] }
  | .error e => s.answer app r (intoResponse (ApiError.ofError e)) false

def arrive (s : AppState σ) (r : Request) : AppState σ :=
  match r.scopedKey with
  | none => s.enter app r
  | some key =>
    let s := { s with store := s.store.evict app.bounds s.clock false }
    match s.store.get? key with
    | some cached => s.answer app r (replayCached cached.body) true
    | none => s.enter app r

def cacheable : Body → Option Value
  | .empty => some .null
  | .json value => some value
  | .other _ => none
  | .large => none

def buffered (response : Response) : Response :=
  match response.body with
  | .large => { response with body := .empty }
  | _ => response

def remember (s : AppState σ) (f : InFlight) (response : Response) : AppState σ :=
  match f.scopedKey, cacheable response.body with
  | some key, some value =>
    { s with
      store := s.store.put app.bounds s.clock key
        ⟨cachedJson response.status value, f.request⟩ }
  | _, _ => s

def complete (s : AppState σ) (f : InFlight) (response : Response) : AppState σ :=
  { s with
    answers := s.answers ++ [⟨f.request, response, f.arrivedAt, f.seen, false, .ok ()⟩] }

def respond (s : AppState σ) (i : Nat) (response : Response) : AppState σ :=
  match s.inflight[i]? with
  | none => s
  | some f =>
    let s := { s with inflight := s.inflight.eraseIdx i }
    if response.isSuccess then
      let s : AppState σ := { s with successes := s.successes ++ [⟨f.request, response, s.clock⟩] }
      let answer := if f.scopedKey.isSome then buffered response else response
      (s.remember app f response).complete f answer
    else
      s.complete f response

inductive Move (σ : Type) where
  | arrive (r : Request)
  | respond (i : Nat) (response : Response)
  | setClock (clock : Nat)
  | setTenancy (tenancy : TenancyState)
  | setStored (stored : σ)

def move (s : AppState σ) : Move σ → AppState σ
  | .arrive r => s.arrive app r
  | .respond i response => s.respond app i response
  | .setClock clock => { s with clock }
  | .setTenancy tenancy => { s with tenancy }
  | .setStored stored => { s with stored }

end AppState

end

def connectionScope : Body → String
  | .json value =>
    if (Workflow.field? "transport" value).bind (Workflow.field? "kind") = some (.string "stdio") then
      "mcp:admin"
    else
      "mcp:write"
  | _ => "mcp:write"

-- The stores hold which connections of which tenants are local processes.
def agentsApp : App (List (String × String)) where
  admins := none
  bounds := ⟨86400000, 10000⟩
  needs stored r :=
    if r.method = .post ∧ r.path = "/api/v1/agents" then
      [.tenant "agents:write"]
    else if r.method = .post ∧ r.path = "/api/v1/mcp/connections" then
      [.tenant (connectionScope r.body)]
    else
      match r.method, Text.stripPrefix "/api/v1/mcp/connections/" r.path with
      | .delete, some name =>
        if stored.contains (Tenancy.requestTenant r.headers, name) then
          [.tenant "mcp:write", .tenant "mcp:admin"]
        else
          [.tenant "mcp:write"]
      | _, _ => []

def keyedHeaders (principal : String) : Headers :=
  (((∅ : Headers).insert "x-wovyr-tenant" "acme").insert "x-wovyr-principal" principal).insert
    "idempotency-key" "k1"

def keyed (method : Method) (path principal : String) (body : Body) (hpath : '\x1f' ∉ path.toList)
    (h : '\x1f' ∉ principal.toList) : Request where
  method
  path
  headers := keyedHeaders principal
  body
  path_visible := hpath
  header_visible := by
    intro name value hvalue
    unfold keyedHeaders at hvalue
    simp only [Map.getElem?_insert] at hvalue
    split at hvalue
    . cases hvalue
      decide
    . split at hvalue
      . cases hvalue
        exact h
      . split at hvalue
        . cases hvalue
          decide
        . simp at hvalue

def malloryPost : Request :=
  keyed .post "/api/v1/agents" "mallory" .empty (by decide) (by decide)

def evePost : Request :=
  keyed .post "/api/v1/agents" "eve" .empty (by decide) (by decide)

def connectLocal : Request :=
  keyed .post "/api/v1/mcp/connections" "mallory"
    (.json (.object [("name", .string "local"), ("transport", .object [("kind", .string "stdio"),
      ("command", .string "tool"), ("args", .array [])])])) (by decide) (by decide)

def created : Response := ⟨200, .json (.object [("id", .string "bot"), ("status", .string "created")])⟩

def afterMoves (tenancy : TenancyState) (moves : List (AppState.Move (List (String × String))))
    : AppState (List (String × String)) :=
  moves.foldl (AppState.move agentsApp) { tenancy, stored := [] }

end Wovyr.Server.Hardening
