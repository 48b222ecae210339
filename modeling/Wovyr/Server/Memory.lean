import Wovyr.Memory.Engine
import Wovyr.Server.Hardening.Paging
import Wovyr.Server.Tenancy

/-!
This module contains the routes of the memory explorer.
-/

namespace Wovyr.Server.Memory

open Wovyr.Memory

def tenantScopePrefix : String := "tenant:"

def tenantScope (tenant : String) : String :=
  tenantScopePrefix ++ tenant

-- The tenant that owns a record with these scopes.
def owner (requiredScopes : List String) : String :=
  (requiredScopes.findSome? (Text.stripPrefix tenantScopePrefix)).getD defaultTenant

def visibleTo (requiredScopes : List String) (tenant : String) : Bool :=
  match requiredScopes.findSome? (Text.stripPrefix tenantScopePrefix) with
  | some owner => owner == tenant
  | none => tenant == defaultTenant

theorem visibleTo_iff {requiredScopes : List String} {tenant : String}
    : visibleTo requiredScopes tenant = true ↔ owner requiredScopes = tenant := by
  unfold visibleTo owner
  cases requiredScopes.findSome? (Text.stripPrefix tenantScopePrefix) with
  | some owner => exact beq_iff_eq
  | none => exact beq_iff_eq.trans eq_comm

structure Host (σ F : Type) where
  admins : Tenancy.PlatformAdmins
  memory : MemoryEngine F
  memoryStore : MemoryStore σ F

structure AppState (σ : Type) where
  tenancy : TenancyState
  memory : σ

abbrev Handler (σ α : Type) := Prog (AppState σ) ApiError α

structure RecordJson (F : Type) where
  id : String
  ns : String
  content : String
  type : MemoryType
  importance : F
  tags : List String
  requiredScopes : List String
  seq : Nat
deriving DecidableEq

structure Namespaces where
  namespaces : List (String × Nat)
  total : Nat
deriving DecidableEq

structure RecordsQuery where
  ns : Option String := none
  limit : Option Nat := none
  cursor : Option String := none

structure QueryRequest (F : Type) where
  text : String
  ns : Option String := none
  strategy : Option String := none
  limit : Option Nat := none
  diversity : Option F := none
  minImportance : Option F := none
  tags : Option (List String) := none
  grants : Option (List String) := none
  relevance : Option F := none
  recency : Option F := none
  importance : Option F := none

structure ResultJson (F : Type) where
  id : String
  ns : String
  content : String
  type : MemoryType
  importance : F
  tags : List String
  score : F
  breakdown : ScoreBreakdown F

structure PutRequest (F : Type) where
  ns : String
  content : String
  memoryType : Option String := none
  importance : Option F := none
  tags : Option (List String) := none
  requiredScopes : Option (List String) := none
  sensitive : Option Bool := none

section

variable {σ F : Type} (host : Host σ F)

def tenantAuthorize (headers : Headers) (scope : String) : Handler σ String := do
  let tenancy ← Prog.gets AppState.tenancy
  Prog.ofExcept (Tenancy.tenantAuthorize host.admins tenancy headers scope)

def all (ns : Option String) : Handler σ (List (MemoryRecord F)) := do
  let listing ← Prog.gets fun s => host.memoryStore.all s.memory ns
  Prog.ofExcept (listing.mapError ApiError.ofError)

def recordJson (r : MemoryRecord F) : RecordJson F :=
  { id := r.id, ns := r.ns, content := r.content, type := r.memoryType, importance := r.importance
    tags := r.tags, requiredScopes := r.requiredScopes, seq := r.seq }

def parseType (s : Option String) : MemoryType :=
  let s := s.getD "semantic"
  if Text.eqIgnoreAsciiCase s "conversation" then .conversation
  else if Text.eqIgnoreAsciiCase s "workflow" then .workflow
  else if Text.eqIgnoreAsciiCase s "episodic" then .episodic
  else .semantic

def parseStrategy (s : Option String) : RetrievalStrategy :=
  let s := s.getD "hybrid"
  if Text.eqIgnoreAsciiCase s "vector" then .vector
  else if Text.eqIgnoreAsciiCase s "keyword" then .keyword
  else .hybrid

def visible (tenant : String) (records : List (MemoryRecord F)) : List (MemoryRecord F) :=
  records.filter fun r => visibleTo r.requiredScopes tenant

def countNamespaces (records : List (MemoryRecord F)) : Namespaces :=
  let names := records.map (·.ns)
  { namespaces := (btreeSet names).map fun ns => (ns, names.count ns), total := records.length }

def listNamespaces (headers : Headers) : Handler σ Namespaces := do
  let tenant ← tenantAuthorize host headers "memory:read"
  let records ← all host none
  return countNamespaces (visible tenant records)

def newestFirst (records : List (MemoryRecord F)) : List (MemoryRecord F) :=
  records.insertionSort fun a b => b.seq ≤ a.seq

def listRecords (headers : Headers) (q : RecordsQuery) : Handler σ (Hardening.Page (RecordJson F)) := do
  let tenant ← tenantAuthorize host headers "memory:read"
  let records ← all host q.ns
  let items := (newestFirst (visible tenant records)).map recordJson
  Prog.ofOption (Hardening.paginate items { limit := q.limit, cursor := q.cursor })

-- Without the scopes that only the server gives out.
def clientScopes (scopes : Option (List String)) : List String :=
  (scopes.getD []).filter fun scope => (Text.stripPrefix tenantScopePrefix scope).isNone

def memoryQuery (f : F32 F) (tenant : String) (req : QueryRequest F) : MemoryQuery F :=
  let q := MemoryQuery.new f req.text
  let d := RankingWeights.default f
  { q with
    ns := req.ns
    strategy := parseStrategy req.strategy
    limit := req.limit.getD q.limit
    diversity := (req.diversity.map f.clamp).getD q.diversity
    minImportance := req.minImportance.getD q.minImportance
    tags := req.tags.getD q.tags
    weights := {
      relevance := req.relevance.getD d.relevance
      recency := req.recency.getD d.recency
      importance := req.importance.getD d.importance }
    access := some { grants := clientScopes req.grants ++ [tenantScope tenant] } }

def resultJson (s : ScoredMemory F) : ResultJson F :=
  { id := s.record.id, ns := s.record.ns, content := s.record.content, type := s.record.memoryType
    importance := s.record.importance, tags := s.record.tags, score := s.score, breakdown := s.breakdown }

def query (headers : Headers) (req : QueryRequest F) : Handler σ (List (ResultJson F)) := do
  let tenant ← tenantAuthorize host headers "memory:read"
  let q := memoryQuery host.memory.f32 tenant req
  let answer ← Prog.gets fun s => host.memory.query host.memoryStore s.memory q
  let results ← Prog.ofExcept (answer.mapError ApiError.ofError)
  return (results.filter fun s => visibleTo s.record.requiredScopes tenant).map resultJson

def onStore {α : Type} (m : Prog σ Error α) : Handler σ α :=
  fun s =>
    match m s.memory with
    | (.ok a, memory) => (.ok a, { s with memory })
    | (.err e, memory) => (.err (ApiError.ofError e), { s with memory })
    | (.halted, memory) => (.halted, { s with memory })

def putRecord (headers : Headers) (req : PutRequest F) : Handler σ String := do
  let tenant ← tenantAuthorize host headers "memory:write"
  let f := host.memory.f32
  let requiredScopes := clientScopes req.requiredScopes ++ [tenantScope tenant]
  let record ← onStore <| host.memory.rememberFull host.memoryStore req.ns req.content
    (parseType req.memoryType) (f.clamp (req.importance.getD (f.lit 0.5))) (req.tags.getD [])
    requiredScopes (req.sensitive.getD false)
  return record.id

end

end Wovyr.Server.Memory
