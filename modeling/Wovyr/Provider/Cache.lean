import Mathlib.Data.List.MinMax
import Wovyr.Common
import Wovyr.Lib.Map
import Wovyr.Provider.Types

/-!
This module contains the response cache of a gateway and the calls that go through it. What a provider answers and
how the embedding of a request comes out is not determined here.
-/

namespace Wovyr.Provider

inductive CacheMode where
  | off
  | exactOnly
  | semantic
deriving DecidableEq

structure CacheConfig where
  mode : CacheMode := .off
  ttlMs : Nat := 3600000
  maxEntries : Nat := 10000

structure CacheEntry where
  response : ChatResponse
  createdMs : Nat
  lastAccess : Nat
  -- The call whose response this is.
  producer : Nat

structure ExactCache where
  entries : Std.ExtTreeMap String CacheEntry := ∅
  tick : Nat := 0
  maxEntries : Nat

namespace ExactCache

variable (c : ExactCache) (key : String) (nowMs ttlMs : Nat)

def nextTick : Nat :=
  min (c.tick + 1) (2 ^ 64 - 1)

def get : Option CacheEntry × ExactCache :=
  match c.entries[key]? with
  | some e =>
    if nowMs - e.createdMs > ttlMs then
      (none, { c with entries := c.entries.erase key })
    else
      (some e, { c with
        entries := c.entries.insert key { e with lastAccess := c.nextTick }
        tick := c.nextTick })
  | none => (none, c)

def sweep : Std.ExtTreeMap String CacheEntry :=
  c.entries.filter fun _ e => decide (nowMs - e.createdMs ≤ ttlMs)

def evict (maxEntries : Nat) : Nat → Std.ExtTreeMap String CacheEntry → Std.ExtTreeMap String CacheEntry
  | 0, entries => entries
  | n + 1, entries =>
    if entries.size > maxEntries then
      match entries.toList.argmin fun e => e.2.lastAccess with
      | some victim => evict maxEntries n (entries.erase victim.1)
      | none => entries
    else
      entries

def insert (response : ChatResponse) (producer : Nat) : ExactCache :=
  if c.maxEntries = 0 then
    c
  else
    let entries := (c.sweep nowMs ttlMs).insert key
      { response, createdMs := nowMs, lastAccess := c.nextTick, producer }
    { c with entries := evict c.maxEntries entries.size entries, tick := c.nextTick }

end ExactCache

structure SemanticEntry (V : Type) where
  embedding : V
  paramKey : String
  embeddingModel : String
  response : ChatResponse
  createdMs : Nat
  producer : Nat

structure InMemorySemanticCache (V : Type) where
  entries : List (SemanticEntry V) := []
  maxEntries : Nat := 10000

-- `V` are the embeddings, `S` the similarities of two of them.
structure Floats (V S : Type) where
  cosineSimilarity : V → V → S
  -- Whether a similarity is at least the threshold.
  clears : S → Bool
  gt : S → S → Bool

namespace InMemorySemanticCache

variable {V S : Type} (floats : Floats V S) (paramKey embeddingModel : String) (embedding : V)
  (nowMs ttlMs : Nat)

def compatible (e : SemanticEntry V) : Bool :=
  e.paramKey == paramKey && e.embeddingModel == embeddingModel && decide (nowMs - e.createdMs ≤ ttlMs)

def better (best : Option (S × SemanticEntry V)) (e : SemanticEntry V) : Option (S × SemanticEntry V) :=
  if compatible paramKey embeddingModel nowMs ttlMs e then
    let sim := floats.cosineSimilarity embedding e.embedding
    if floats.clears sim && best.all fun b => floats.gt sim b.1 then some (sim, e) else best
  else
    best

def lookup (c : InMemorySemanticCache V) : Option (SemanticEntry V) :=
  (c.entries.foldl (better floats paramKey embeddingModel embedding nowMs ttlMs) none).map Prod.snd

def oldest? (entries : List (SemanticEntry V)) : Option Nat :=
  (entries.zipIdx.argmin fun e => e.1.createdMs).map Prod.snd

def evict (maxEntries : Nat) : Nat → List (SemanticEntry V) → List (SemanticEntry V)
  | 0, entries => entries
  | n + 1, entries =>
    if entries.length > maxEntries then
      match oldest? entries with
      | some i => evict maxEntries n (entries.eraseIdx i)
      | none => entries
    else
      entries

def store (response : ChatResponse) (producer : Nat) (c : InMemorySemanticCache V) : InMemorySemanticCache V :=
  if c.maxEntries = 0 then
    c
  else
    let entries := c.entries ++
      [{ embedding, paramKey, embeddingModel, response, createdMs := nowMs, producer }]
    { c with entries := evict c.maxEntries entries.length entries }

end InMemorySemanticCache

def contents (role : Role) (request : ChatRequest) : String :=
  Text.join "\n" ((request.messages.filter fun m => m.role == role).filterMap (·.content))

def canonicalRequest (request : ChatRequest) : String :=
  contents .user request

def paramKey (fmt : Formats) (request : ChatRequest) : String :=
  request.model ++ "|" ++ debugOption fmt.float request.temperature
    ++ "|" ++ debugOption (ToolChoice.debug fmt) request.toolChoice
    ++ "|" ++ debugOption (ResponseFormat.debug fmt) request.responseFormat
    ++ "|sys:" ++ contents .system request
    ++ "|tools:" ++ toJson fmt (request.tools.map ToolSpec.toValue)

def cacheKey (fmt : Formats) (request : ChatRequest) : String :=
  request.model ++ "|" ++ debugOption fmt.float request.temperature
    ++ "|" ++ debugOption toString request.maxTokens
    ++ "|" ++ debugOption (ToolChoice.debug fmt) request.toolChoice
    ++ "|" ++ debugOption (ResponseFormat.debug fmt) request.responseFormat
    ++ "|" ++ toJson fmt (request.messages.map Message.toValue)
    ++ "|" ++ toJson fmt (request.tools.map ToolSpec.toValue)

def zeroCost (response : ChatResponse) : ChatResponse :=
  { response with usage := { response.usage with costUsd := 0 } }

structure Traffic (V S : Type) where
  cfg : CacheConfig
  fmt : Formats
  floats : Floats V S
  embeddingModel : String
  tenantOf : Nat → String
  requestOf : Nat → ChatRequest
  embeddingOf : Nat → Option V

namespace Traffic

inductive Progress (V : Type) where
  | idle
  | missed
  | searching (vec : Option V)
  | dispatching (vec : Option V)
  | storing (vec : Option V) (response : ChatResponse)
  | indexing (vec : Option V) (response : ChatResponse)
  | done

structure Answer where
  call : Nat
  result : Except Error ChatResponse
  source : Option Nat

structure State (V : Type) where
  nowMs : Nat := 0
  cache : ExactCache
  semanticCache : InMemorySemanticCache V
  calls : Nat → Progress V := fun _ => .idle
  answers : List Answer := []

inductive Move where
  | tick (nowMs : Nat)
  | lookup (call : Nat)
  | embed (call : Nat)
  | search (call : Nat)
  | respond (call : Nat) (result : Except Error ChatResponse)
  | store (call : Nat)
  | index (call : Nat)
  | drop (call : Nat)

variable {V S : Type} (traffic : Traffic V S)

namespace State

variable (s : State V)

def setCall (call : Nat) (progress : Progress V) : State V :=
  { s with calls := Function.update s.calls call progress }

def finish (call : Nat) (result : Except Error ChatResponse) (source : Option Nat) : State V :=
  { s.setCall call .done with answers := s.answers ++ [{ call, result, source }] }

def lookup (call : Nat) : State V :=
  if traffic.cfg.mode = .off then
    s.setCall call .missed
  else
    let (hit, cache) := s.cache.get (cacheKey traffic.fmt (traffic.requestOf call)) s.nowMs traffic.cfg.ttlMs
    match hit with
    | some e => { s with cache }.finish call (.ok (zeroCost e.response)) (some e.producer)
    | none => { s with cache }.setCall call .missed

def embed (call : Nat) : State V :=
  let vec :=
    if traffic.cfg.mode = .semantic ∧ canonicalRequest (traffic.requestOf call) ≠ "" then
      traffic.embeddingOf call
    else
      none
  s.setCall call (.searching vec)

def search (call : Nat) (vec : Option V) : State V :=
  match vec with
  | none => s.setCall call (.dispatching none)
  | some v =>
    match s.semanticCache.lookup traffic.floats (paramKey traffic.fmt (traffic.requestOf call))
        traffic.embeddingModel v s.nowMs traffic.cfg.ttlMs with
    | some e => s.finish call (.ok (zeroCost e.response)) (some e.producer)
    | none => s.setCall call (.dispatching (some v))

def respond (call : Nat) (vec : Option V) (result : Except Error ChatResponse) : State V :=
  match result with
  | .error e => s.finish call (.error e) none
  | .ok response => s.setCall call (.storing vec response)

def store (call : Nat) (vec : Option V) (response : ChatResponse) : State V :=
  let cache :=
    if traffic.cfg.mode = .off then
      s.cache
    else
      s.cache.insert (cacheKey traffic.fmt (traffic.requestOf call)) s.nowMs traffic.cfg.ttlMs response call
  { s with cache }.setCall call (.indexing vec response)

def index (call : Nat) (vec : Option V) (response : ChatResponse) : State V :=
  let semanticCache :=
    match vec with
    | none => s.semanticCache
    | some v =>
      s.semanticCache.store (paramKey traffic.fmt (traffic.requestOf call)) traffic.embeddingModel v
        s.nowMs response call
  { s with semanticCache }.finish call (.ok response) none

end State

-- A move that is not possible in a state changes nothing.
def step (s : State V) : Move → State V
  | .tick nowMs => if s.nowMs ≤ nowMs then { s with nowMs } else s
  | .lookup call =>
    match s.calls call with
    | .idle => s.lookup traffic call
    | _ => s
  | .embed call =>
    match s.calls call with
    | .missed => s.embed traffic call
    | _ => s
  | .search call =>
    match s.calls call with
    | .searching vec => s.search traffic call vec
    | _ => s
  | .respond call result =>
    match s.calls call with
    | .dispatching vec => s.respond call vec result
    | _ => s
  | .store call =>
    match s.calls call with
    | .storing vec response => s.store traffic call vec response
    | _ => s
  | .index call =>
    match s.calls call with
    | .indexing vec response => s.index traffic call vec response
    | _ => s
  | .drop call =>
    match s.calls call with
    | .idle => s
    | _ => s.setCall call .done

def init (semanticMaxEntries : Nat) : State V :=
  { cache := { maxEntries := traffic.cfg.maxEntries }
    semanticCache := { maxEntries := semanticMaxEntries } }

def run (s : State V) (moves : List Move) : State V :=
  moves.foldl traffic.step s

end Wovyr.Provider.Traffic
