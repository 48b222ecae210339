import Mathlib.Data.List.Sort
import Wovyr.Provider.Types

/-!
This module contains the records of the memory, the queries and policies over them and what a query
gives. `f32` is a parameter.
-/

namespace Wovyr.Memory

-- The operations on `f32` that are used; `lit` is the number next to a rational one.
structure F32 (F : Type) where
  lit : Rat → F
  negInfinity : F
  add : F → F → F
  sub : F → F → F
  mul : F → F → F
  div : F → F → F
  exp : F → F
  ln : F → F
  sqrt : F → F
  max : F → F → F
  lt : F → F → Bool
  le : F → F → Bool
  eq : F → F → Bool

namespace F32

variable {F : Type} (f : F32 F)

def clamp (x : F) : F :=
  if f.lt x (f.lit 0) then f.lit 0 else if f.lt (f.lit 1) x then f.lit 1 else x

-- `partial_cmp`, where what cannot be compared is equal.
def cmp (a b : F) : Ordering :=
  if f.lt a b then .lt else if f.lt b a then .gt else .eq

def sum (xs : List F) : F :=
  xs.foldl f.add (f.lit 0)

def maximum (xs : List F) : F :=
  xs.foldl f.max (f.lit 0)

def exact : F32 Rat where
  lit := id
  negInfinity := -1
  add := (· + ·)
  sub := (· - ·)
  mul := (· * ·)
  div := (· / ·)
  exp := id
  ln := id
  sqrt := id
  max a b := if a < b then b else a
  lt a b := decide (a < b)
  le a b := decide (a ≤ b)
  eq a b := decide (a = b)

end F32

inductive MemoryType where
  | conversation
  | workflow
  | episodic
  | semantic
deriving DecidableEq

def MemoryType.halfLife : MemoryType → Option Nat
  | .conversation => some 2
  | .workflow => some 14
  | .episodic => some 90
  | .semantic => none

def MemoryType.halfLifeMs (t : MemoryType) : Option Nat :=
  t.halfLife.map (· * 86400000)

structure MemoryRecord (F : Type) where
  id : String := ""
  -- The field `namespace`.
  ns : String
  content : String
  embedding : List F := []
  embeddingModel : String := ""
  memoryType : MemoryType := .semantic
  importance : F
  tags : List String := []
  requiredScopes : List String := []
  sensitive : Bool := false
  parentId : Option String := none
  isParent : Bool := false
  createdMs : Nat := 0
  seq : Nat := 0
deriving DecidableEq

structure AccessContext where
  grants : List String

inductive RetrievalStrategy where
  | vector
  | keyword
  | hybrid

structure RankingWeights (F : Type) where
  relevance : F
  recency : F
  importance : F

def RankingWeights.default {F : Type} (f : F32 F) : RankingWeights F where
  relevance := f.lit 0.55
  recency := f.lit 0.20
  importance := f.lit 0.15

structure MemoryQuery (F : Type) where
  text : String
  ns : Option String := none
  strategy : RetrievalStrategy := .hybrid
  limit : Nat := 5
  tags : List String := []
  minImportance : F
  maxImportance : Option F := none
  createdAfter : Option Nat := none
  createdBefore : Option Nat := none
  weights : RankingWeights F
  diversity : F
  access : Option AccessContext := none
  expandParents : Bool := false

def MemoryQuery.new {F : Type} (f : F32 F) (text : String) : MemoryQuery F where
  text := text
  minImportance := f.lit 0
  weights := .default f
  diversity := f.lit 0

structure ScoreBreakdown (F : Type) where
  relevance : F
  recency : F
  importance : F
  total : F

structure ScoredMemory (F : Type) where
  record : MemoryRecord F
  score : F
  breakdown : ScoreBreakdown F
  parent : Option (MemoryRecord F) := none

structure CompactionPolicy (F : Type) where
  maxImportance : F
  keepRecent : Nat
  minCandidates : Nat

def CompactionPolicy.default {F : Type} (f : F32 F) : CompactionPolicy F where
  maxImportance := f.lit 0.5
  keepRecent := 5
  minCandidates := 2

structure CompactionOutcome where
  compacted : Nat
  summaryId : Option String

end Wovyr.Memory
