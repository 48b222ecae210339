import Wovyr.Memory.Retrieval
import Wovyr.Memory.Store

/-!
This module contains the memory engine: what it stores, how it consolidates old records into a
summary and how it answers a query.
-/

namespace Wovyr.Memory

open Provider

structure MemoryEngine (F : Type) where
  f32 : F32 F
  unicode : Unicode
  resolveModel : String
  chat : ChatRequest → Except Error ChatResponse
  resolveEmbeddingModel : String
  -- The vectors of the response to an `EmbeddingRequest` for this model and these inputs.
  embedVectors : String → List String → Except Error (List (List F))
  reranker : Option (String → List String → Except Error (List F)) := none
  rerankTopN : Nat := 20
  rrfK : F
  nowMs : Nat

namespace MemoryEngine

variable {σ F : Type} (engine : MemoryEngine F) (store : MemoryStore σ F)

def embed (text : String) : Except Error (List F) := do
  let vectors ← engine.embedVectors engine.resolveEmbeddingModel [text]
  match vectors with
  | v :: _ => return v
  | [] => throw (.provider "embedding response was empty" none)

def rememberFull (ns content : String) (memoryType : MemoryType) (importance : F)
    (tags requiredScopes : List String) (sensitive : Bool) : Prog σ Error (MemoryRecord F) := do
  let embedding ← Prog.ofExcept (engine.embed content)
  store.put
    { ns, content, embedding, embeddingModel := engine.resolveEmbeddingModel, memoryType
      importance := engine.f32.clamp importance
      tags, requiredScopes, sensitive, createdMs := engine.nowMs }

def rememberScoped (ns content : String) (memoryType : MemoryType) (importance : F)
    (tags requiredScopes : List String) : Prog σ Error (MemoryRecord F) :=
  engine.rememberFull store ns content memoryType importance tags requiredScopes false

def summarize (contents : List String) : Except Error String := do
  let joined := Text.join "\n" (contents.map ("- " ++ ·))
  let prompt := "Summarize the following memories into a single concise note that " ++
    "preserves the key facts."
  let resp ← engine.chat
    { model := engine.resolveModel, messages := [Message.system prompt, Message.user joined] }
  return resp.message.content.getD ""

def candidates (policy : CompactionPolicy F) (records : List (MemoryRecord F)) : List (MemoryRecord F) :=
  let records := records.insertionSort fun a b => a.seq ≤ b.seq
  (records.take (records.length - policy.keepRecent)).filter fun r =>
    engine.f32.lt r.importance policy.maxImportance && !r.isParent && r.parentId.isNone

-- The first part of `compress`: the summary is stored, if there is enough to summarize.
def consolidate (ns : String) (policy : CompactionPolicy F)
    : Prog σ Error (Option (List (MemoryRecord F) × MemoryRecord F)) := do
  let listing ← Prog.gets fun s => store.all s (some ns)
  let records ← Prog.ofExcept listing
  let candidates := engine.candidates policy records
  if candidates.length < policy.minCandidates then
    return none
  let summary ← Prog.ofExcept (engine.summarize (candidates.map (·.content)))
  let tags := btreeSet (candidates.flatMap (·.tags))
  let scopes := btreeSet (candidates.flatMap (·.requiredScopes))
  let importance := engine.f32.maximum (candidates.map (·.importance))
  let record ← engine.rememberScoped store ns summary .semantic importance tags scopes
  return some (candidates, record)

def compress (ns : String) (policy : CompactionPolicy F) : Prog σ Error CompactionOutcome := do
  let consolidated ← engine.consolidate store ns policy
  match consolidated with
  | none => return { compacted := 0, summaryId := none }
  | some (candidates, summary) =>
    store.delete (candidates.map (·.id))
    return { compacted := candidates.length, summaryId := some summary.id }

structure Summarizes (ns : String) (policy : CompactionPolicy F) (s : σ) (cs : List (MemoryRecord F))
    (r : MemoryRecord F) : Prop where
  listed : ∃ records, store.all s (some ns) = .ok records ∧ cs = engine.candidates policy records
  enough : policy.minCandidates ≤ cs.length
  ns : r.ns = ns
  requiredScopes : r.requiredScopes = btreeSet (cs.flatMap (·.requiredScopes))
  plain : r.sensitive = false

theorem consolidate_cases (ns : String) (policy : CompactionPolicy F) (s : σ)
    : (∃ cs r x mid, engine.Summarizes store ns policy s cs r ∧ store.put r s = (.ok x, mid)
        ∧ engine.consolidate store ns policy s = (.ok (some (cs, x)), mid))
      ∨ ∃ o, engine.consolidate store ns policy s = (o, s) ∧ ∀ p, o ≠ .ok (some p) := by
  have hlisting : (Prog.gets fun s => store.all s (some ns) : Prog σ Error _) s
      = (.ok (store.all s (some ns)), s) := rfl
  unfold consolidate
  rw [Prog.bind_of_ok hlisting]
  cases hrecords : store.all s (some ns) with
  | error e => exact Or.inr ⟨.err e, rfl, by simp⟩
  | ok records =>
    have hread : (Prog.ofExcept (.ok records) : Prog σ Error _) s = (.ok records, s) := rfl
    simp only [Prog.bind_of_ok hread]
    split
    . exact Or.inr ⟨.ok none, rfl, by simp⟩
    . next henough =>
      cases hsummary : engine.summarize ((engine.candidates policy records).map (·.content)) with
      | error e => exact Or.inr ⟨.err e, rfl, by simp⟩
      | ok summary =>
        have hok : (Prog.ofExcept (.ok summary) : Prog σ Error _) s = (.ok summary, s) := rfl
        simp only [Prog.bind_of_ok hok]
        unfold rememberScoped rememberFull
        cases hembed : engine.embed summary with
        | error e => exact Or.inr ⟨.err e, rfl, by simp⟩
        | ok embedding =>
          have hvector : (Prog.ofExcept (.ok embedding) : Prog σ Error _) s = (.ok embedding, s) := rfl
          simp only [Prog.bind_assoc, Prog.bind_of_ok hvector]
          generalize hr : MemoryRecord.mk _ _ _ _ _ _ _ _ _ _ _ _ _ _ = r
          have hsummarizes
              : engine.Summarizes store ns policy s (engine.candidates policy records) r := by
            subst hr
            exact ⟨⟨records, hrecords, rfl⟩, by omega, rfl, rfl, rfl⟩
          rcases hput : store.put r s with ⟨o, mid⟩
          cases o with
          | ok x =>
            rw [Prog.bind_of_ok hput]
            exact Or.inl ⟨_, r, x, mid, hsummarizes, hput, rfl⟩
          | err e =>
            rw [Prog.bind_of_err hput, store.put_state r s _ mid hput (by simp)]
            exact Or.inr ⟨.err e, rfl, by simp⟩
          | halted =>
            rw [Prog.bind_apply, hput, store.put_state r s _ mid hput (by simp)]
            exact Or.inr ⟨.halted, rfl, by simp⟩

theorem compress_of_some {ns : String} {policy : CompactionPolicy F} {s mid : σ}
    {cs : List (MemoryRecord F)} {x : MemoryRecord F}
    (h : engine.consolidate store ns policy s = (.ok (some (cs, x)), mid))
    : (engine.compress store ns policy s).2 = (store.delete (cs.map (·.id)) mid).2 := by
  unfold compress
  rw [Prog.bind_of_ok h]
  exact Prog.bind_pure_state _ _ _

theorem compress_of_not_some {ns : String} {policy : CompactionPolicy F} {s : σ}
    {o : Outcome Error (Option (List (MemoryRecord F) × MemoryRecord F))}
    (h : engine.consolidate store ns policy s = (o, s)) (ho : ∀ p, o ≠ .ok (some p))
    : (engine.compress store ns policy s).2 = s := by
  unfold compress
  rw [Prog.bind_apply, h]
  cases o with
  | ok consolidated =>
    cases consolidated with
    | none => rfl
    | some p => exact absurd rfl (ho p)
  | err e => rfl
  | halted => rfl

def relevance (q : MemoryQuery F) (candidates : List (MemoryRecord F)) : Except Error (Relevance F) := do
  match q.strategy with
  | .keyword => return keywordRelevance engine.f32 engine.unicode q.text candidates
  | .vector =>
    let qv ← engine.embed q.text
    return vectorRelevance engine.f32 qv candidates
  | .hybrid =>
    let qv ← engine.embed q.text
    let vlist := rankedIds engine.f32 (vectorRelevance engine.f32 qv candidates)
    let klist := rankedIds engine.f32 (keywordRelevance engine.f32 engine.unicode q.text candidates)
    return reciprocalRankFusion engine.f32 engine.rrfK [vlist, klist]

-- The candidates among what a scan gives, with their relevance.
def fuse (q : MemoryQuery F) (records : List (MemoryRecord F))
    : Except Error (List (MemoryRecord F) × Relevance F) := do
  let candidates := records.filter (passesFilters engine.f32 · q)
  if candidates.isEmpty then
    return ([], ∅)
  let relevance ← engine.relevance q candidates
  return (candidates, relevance)

def fusedInProcess (s : σ) (q : MemoryQuery F) : Except Error (List (MemoryRecord F) × Relevance F) := do
  let records ← store.all s q.ns
  engine.fuse q records

def pushedRelevance (s : σ) (q : MemoryQuery F) : Except Error (Option (Relevance F)) := do
  let k := max (min (q.limit * 4) (2 ^ 64 - 1)) 50
  match q.strategy with
  | .vector =>
    let qv ← engine.embed q.text
    return (← store.vectorSearch s q.ns qv k).map (normalize engine.f32)
  | .keyword => return (← store.keywordSearch s q.ns q.text k).map (normalize engine.f32)
  | .hybrid =>
    let qv ← engine.embed q.text
    match ← store.vectorSearch s q.ns qv k, ← store.keywordSearch s q.ns q.text k with
    | some v, some kw =>
      return some (reciprocalRankFusion engine.f32 engine.rrfK [v.map (·.1), kw.map (·.1)])
    | _, _ => return none

def fusedPushdown (s : σ) (q : MemoryQuery F)
    : Except Error (Option (List (MemoryRecord F) × Relevance F)) := do
  match ← engine.pushedRelevance store s q with
  | none => return none
  | some relevance =>
    if relevance.isEmpty then
      return some ([], ∅)
    let records ← store.get s relevance.keys
    return some (records.filter (passesFilters engine.f32 · q), relevance)

-- A reranker that fails or gives another number of scores changes nothing.
def applyRerank (q : MemoryQuery F) (records : List (MemoryRecord F)) (relevance : Relevance F)
    : Relevance F :=
  match engine.reranker with
  | none => relevance
  | some rerank =>
    let key (r : MemoryRecord F) : String × F := (r.id, relevance[r.id]?.getD (engine.f32.lit 0))
    let ordered := records.insertionSort fun a b => better engine.f32 (key a) (key b)
    let top := ordered.take (max engine.rerankTopN q.limit)
    if top.isEmpty then
      relevance
    else
      match rerank q.text (top.map (·.content)) with
      | .ok scores =>
        if scores.length = top.length then
          (top.zip scores).foldl (fun m (r, score) => m.insert r.id (engine.f32.clamp score)) relevance
        else
          relevance
      | .error _ => relevance

def attachParents (s : σ) (q : MemoryQuery F) (results : List (ScoredMemory F))
    : Except Error (List (ScoredMemory F)) := do
  let ids := btreeSet (results.filterMap (·.record.parentId))
  if ids.isEmpty then
    return results
  let found ← store.get s ids
  let parents := (found.filter fun p => abacAllows p q.access).foldl
    (fun (m : Std.ExtTreeMap String (MemoryRecord F)) p => m.insert p.id p) ∅
  return results.map fun r =>
    match r.record.parentId with
    | some pid => { r with parent := parents[pid]? }
    | none => r

def ranked (q : MemoryQuery F) (fused : List (MemoryRecord F) × Relevance F) : List (ScoredMemory F) :=
  rank engine.f32 fused.1 (engine.applyRerank q fused.1 fused.2) q engine.nowMs

def query (s : σ) (q : MemoryQuery F) : Except Error (List (ScoredMemory F)) := do
  let pushed ← if store.supportsPushdown then engine.fusedPushdown store s q else pure none
  let fused ←
    match pushed with
    | some fused => pure fused
    | none => engine.fusedInProcess store s q
  let results := engine.ranked q fused
  if q.expandParents then attachParents store s q results else return results

def noteTaker : MemoryEngine Rat where
  f32 := .exact
  unicode := .asciiOnly
  resolveModel := "mock-1"
  chat _ := .ok
    { message := .assistant "A note.", model := "mock-1", usage := {}, finishReason := "stop" }
  resolveEmbeddingModel := "mock-embed"
  embedVectors _ texts := .ok (texts.map fun _ => [1])
  rrfK := 60
  nowMs := 1

end Wovyr.Memory.MemoryEngine
