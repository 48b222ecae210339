import Mathlib.Data.List.Dedup
import Mathlib.Data.String.Basic
import Std.Data.ExtTreeMap
import Wovyr.Memory.Record

/-!
This module contains the filters of a query, the relevance of the candidates and their ranking. A hash
map is an ordered map here: nothing depends on the order in which it is gone through.
-/

namespace Wovyr.Memory

variable {F : Type}

def btreeSet (xs : List String) : List String :=
  xs.dedup.insertionSort (· ≤ ·)

theorem mem_btreeSet {xs : List String} {x : String} : x ∈ btreeSet xs ↔ x ∈ xs := by
  unfold btreeSet
  rw [List.mem_insertionSort, List.mem_dedup]

theorem pairwise_btreeSet (xs : List String) : (btreeSet xs).Pairwise (· ≤ ·) :=
  List.pairwise_insertionSort _ _

def abacAllows (r : MemoryRecord F) (access : Option AccessContext) : Bool :=
  if r.requiredScopes.isEmpty then
    true
  else
    match access with
    | some ctx => r.requiredScopes.all ctx.grants.contains
    | none => false

theorem abacAllows_iff {r : MemoryRecord F} {access : Option AccessContext}
    : abacAllows r access = true
        ↔ r.requiredScopes = [] ∨ ∃ ctx, access = some ctx ∧ ∀ scope ∈ r.requiredScopes, scope ∈ ctx.grants := by
  unfold abacAllows
  split
  . next hempty => simp [List.isEmpty_iff.mp hempty]
  . next hempty =>
    rw [List.isEmpty_iff] at hempty
    cases access with
    | none => simp [hempty]
    | some ctx => simp [hempty]

abbrev Relevance (F : Type) := Std.ExtTreeMap String F

section

variable (f : F32 F)

def inTimeWindow (r : MemoryRecord F) (q : MemoryQuery F) : Bool :=
  if q.createdAfter.isSome || q.createdBefore.isSome then
    decide (0 < r.createdMs) && q.createdAfter.all (· ≤ r.createdMs)
      && q.createdBefore.all (r.createdMs ≤ ·)
  else
    true

def passesFilters (r : MemoryRecord F) (q : MemoryQuery F) : Bool :=
  !r.isParent && f.le q.minImportance r.importance && q.maxImportance.all (f.le r.importance)
    && inTimeWindow r q && (q.tags.isEmpty || q.tags.any r.tags.contains) && abacAllows r q.access

def cosineSimilarity (a b : List F) : F :=
  if a.length != b.length || a.isEmpty then
    f.lit 0
  else
    let dot := f.sum (List.zipWith f.mul a b)
    let normA := f.sum (a.map fun x => f.mul x x)
    let normB := f.sum (b.map fun y => f.mul y y)
    let denom := f.mul (f.sqrt normA) (f.sqrt normB)
    if f.eq denom (f.lit 0) then f.lit 0 else f.div dot denom

def collect (scores : List (String × F)) : Relevance F :=
  scores.foldl (fun m (id, score) => m.insert id score) ∅

def vectorRelevance (query : List F) (candidates : List (MemoryRecord F)) : Relevance F :=
  collect (candidates.map fun r =>
    (r.id, f.div (f.add (cosineSimilarity f query r.embedding) (f.lit 1)) (f.lit 2)))

def stem (token : String) : String :=
  let strip (suffix : String) (least : Nat) : Option String :=
    (Text.stripSuffix suffix token).filter (least ≤ ·.utf8ByteSize)
  let plural :=
    (strip "s" 3).filter fun base => !base.endsWith "s" && !base.endsWith "u" && !base.endsWith "i"
  ((strip "ies" 2).map (· ++ "y"))
    |>.or ((strip "sses" 0).map (· ++ "ss"))
    |>.or (["ing", "ed", "es"].findSome? fun suffix => strip suffix 3)
    |>.or plural
    |>.getD token

def tokens (unicode : Unicode) (text : String) : List String :=
  (unicode.tokens text).map stem

def normalized (max : F) (s : F) : F :=
  if f.lt (f.lit 0) max then f.div s max else f.lit 0

def keywordRelevance (unicode : Unicode) (query : String) (candidates : List (MemoryRecord F))
    : Relevance F :=
  let qTerms := btreeSet (tokens unicode query)
  if qTerms.isEmpty || candidates.isEmpty then
    collect (candidates.map fun r => (r.id, f.lit 0))
  else
    let docs := candidates.map fun r => tokens unicode r.content
    let docLens := docs.map fun doc => f.lit doc.length
    let n := f.lit candidates.length
    let avgdl := f.max (f.div (f.sum docLens) n) (f.lit 1)
    let idf (t : String) : F :=
      let df := f.lit (docs.countP (·.contains t))
      f.ln (f.add (f.lit 1) (f.div (f.add (f.sub n df) (f.lit 0.5)) (f.add df (f.lit 0.5))))
    let score (doc : List String) (dl : F) : F :=
      f.sum ((qTerms.filter doc.contains).map fun t =>
        let tf := f.lit (doc.count t)
        let length := f.add (f.sub (f.lit 1) (f.lit 0.75)) (f.div (f.mul (f.lit 0.75) dl) avgdl)
        let norm := f.add tf (f.mul (f.lit 1.2) length)
        f.div (f.mul (f.mul (idf t) tf) (f.add (f.lit 1.2) (f.lit 1))) norm)
    let scores := List.zipWith (fun r doc => (r.id, score doc.1 doc.2)) candidates (docs.zip docLens)
    let max := f.maximum (scores.map (·.2))
    collect (scores.map fun (id, s) => (id, normalized f max s))

-- The higher score comes first, of two with the same score the one with the smaller id.
def better (a b : String × F) : Bool :=
  ((f.cmp b.2 a.2).then (compare a.1 b.1)).isLE

def rankedIds (scores : Relevance F) : List String :=
  (scores.toList.insertionSort fun a b => better f a b).map (·.1)

def reciprocalRankFusion (k : F) (lists : List (List String)) : Relevance F :=
  let credit (fused : Relevance F) (entry : String × Nat) : Relevance F :=
    let part := f.div (f.lit 1) (f.add k (f.add (f.lit entry.2) (f.lit 1)))
    fused.insert entry.1 (f.add (fused[entry.1]?.getD (f.lit 0)) part)
  let fused := lists.foldl (fun fused list => list.zipIdx.foldl credit fused) (∅ : Relevance F)
  let max := f.maximum fused.values
  if f.lt (f.lit 0) max then fused.map fun _ v => f.div v max else fused

def normalize (hits : List (String × F)) : Relevance F :=
  let max := f.maximum (hits.map (·.2))
  collect (hits.map fun (id, s) => (id, normalized f max s))

def decay (age : Nat) (halfLife : Option Nat) : F :=
  match halfLife with
  | none => f.lit 1
  | some halfLife => f.exp (f.div (f.sub (f.lit 0) (f.lit age)) (f.lit halfLife))

def recency (r : MemoryRecord F) (maxSeq nowMs : Nat) : F :=
  if 0 < r.createdMs then
    decay f (nowMs - r.createdMs) r.memoryType.halfLifeMs
  else
    decay f (maxSeq - r.seq) r.memoryType.halfLife

def bestMmr (lambda : F) (selected remaining : List (ScoredMemory F)) : Nat :=
  let mmr (cand : ScoredMemory F) : F :=
    let maxSim := f.maximum (selected.map fun s =>
      cosineSimilarity f cand.record.embedding s.record.embedding)
    f.sub (f.mul lambda cand.score) (f.mul (f.sub (f.lit 1) lambda) maxSim)
  let pick (best : Nat × F) (entry : ScoredMemory F × Nat) : Nat × F :=
    if f.lt best.2 (mmr entry.1) then (entry.2, mmr entry.1) else best
  (remaining.zipIdx.foldl pick (0, f.negInfinity)).1

def mmrSelect (lambda : F) (selected remaining : List (ScoredMemory F)) : Nat → List (ScoredMemory F)
  | 0 => selected
  | limit + 1 =>
    let i := bestMmr f lambda selected remaining
    match remaining[i]? with
    | some cand => mmrSelect lambda (selected ++ [cand]) (remaining.eraseIdx i) limit
    | none => selected

def score (relevance : Relevance F) (q : MemoryQuery F) (maxSeq nowMs : Nat) (r : MemoryRecord F)
    : ScoredMemory F :=
  let rel := relevance[r.id]?.getD (f.lit 0)
  let rec' := recency f r maxSeq nowMs
  let total := f.add (f.add (f.mul q.weights.relevance rel) (f.mul q.weights.recency rec'))
    (f.mul q.weights.importance r.importance)
  { record := r, score := total,
    breakdown := { relevance := rel, recency := rec', importance := r.importance, total } }

def rank (records : List (MemoryRecord F)) (relevance : Relevance F) (q : MemoryQuery F) (nowMs : Nat)
    : List (ScoredMemory F) :=
  let maxSeq := records.foldl (fun m r => max m r.seq) 0
  let scored := (records.map (score f relevance q maxSeq nowMs)).insertionSort fun a b =>
    better f (a.record.id, a.score) (b.record.id, b.score)
  let limit := max q.limit 1
  if f.lt (f.lit 0) q.diversity then
    mmrSelect f (f.sub (f.lit 1) (f.clamp q.diversity)) [] scored limit
  else
    scored.take limit

end

end Wovyr.Memory
