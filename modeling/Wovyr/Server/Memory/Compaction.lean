import Wovyr.Lib.Run
import Wovyr.Server.Memory

/-!
This module contains who can read the summaries that compaction leaves behind.
-/

namespace Wovyr.Server.Memory

open Wovyr.Memory

variable {σ F : Type}

structure Call (F : Type) where
  engine : MemoryEngine F
  ns : String
  policy : CompactionPolicy F

structure Pass (F : Type) where
  sources : List (MemoryRecord F)
  summary : Option (MemoryRecord F)
  before : List (MemoryRecord F)
  between : List (MemoryRecord F)
  after : List (MemoryRecord F)
deriving DecidableEq

structure Archive (σ F : Type) where
  store : σ
  passes : List (Pass F) := []

def Archive.step (store : MemoryStore σ F) (s : Archive σ F) (call : Call F) : Archive σ F :=
  let (o, mid) := call.engine.consolidate store call.ns call.policy s.store
  let consolidated :=
    match o with
    | .ok consolidated => consolidated
    | .err _ => none
    | .halted => none
  let after := (call.engine.compress store call.ns call.policy s.store).2
  let pass : Pass F :=
    { sources := (consolidated.map (·.1)).getD []
      summary := consolidated.map (·.2)
      before := store.records s.store
      between := store.records mid
      after := store.records after }
  { store := after, passes := s.passes ++ [pass] }

inductive Derived (passes : List (Pass F)) : MemoryRecord F → MemoryRecord F → Prop where
  | direct {p : Pass F} {m r : MemoryRecord F} :
    p ∈ passes → p.summary = some m → r ∈ p.sources → Derived passes m r
  | through {p : Pass F} {m m' r : MemoryRecord F} :
    p ∈ passes → p.summary = some m → m' ∈ p.sources → Derived passes m' r → Derived passes m r

-- Who may see `m` may see `r`, and `m` is sensitive if `r` is.
structure Discreet (m r : MemoryRecord F) : Prop where
  granted : ∀ access, abacAllows m access = true → abacAllows r access = true
  visible : ∀ tenant, visibleTo m.requiredScopes tenant = true → visibleTo r.requiredScopes tenant = true
  sensitive : r.sensitive = true → m.sensitive = true

structure Pass.Orderly (p : Pass F) : Prop where
  kept : ∀ r ∈ p.before, r ∈ p.between
  consolidated : ∀ r ∈ p.between, r ∉ p.after →
    r ∈ p.sources ∧ ∃ m, p.summary = some m ∧ m ∈ p.between

structure Archive.Sealed (s : Archive σ F) : Prop where
  discreet : ∀ m r, Derived s.passes m r → Discreet m r
  orderly : ∀ p ∈ s.passes, p.Orderly

-- The records have one owner, and none has the scope of a tenant that sorts before it.
def OneOwner (cs : List (MemoryRecord F)) : Prop :=
  ∃ tenant, ∀ c ∈ cs, owner c.requiredScopes = tenant
    ∧ ∀ other, tenantScope other ∈ c.requiredScopes → tenantScope tenant ≤ tenantScope other

structure Apart (store : MemoryStore σ F) (s : σ) (ns : String) (cs : List (MemoryRecord F)) : Prop where
  plain : ∀ c ∈ cs, c.sensitive = false
  owner : OneOwner cs
  named : ∀ r ∈ store.records s, r.id ∈ cs.map (·.id) → r ∈ cs
  fresh : store.nextId s ns ∉ cs.map (·.id)

def Archive.Careful (store : MemoryStore σ F) (s : Archive σ F) (call : Call F) : Prop :=
  ∀ cs x mid, call.engine.consolidate store call.ns call.policy s.store = (.ok (some (cs, x)), mid) →
    Apart store s.store call.ns cs

namespace Discreet

variable {m r r' : MemoryRecord F}

theorem trans (h : Discreet m r') (h' : Discreet r' r) : Discreet m r := by
  constructor
  . exact fun access hm => h'.granted access (h.granted access hm)
  . exact fun tenant hm => h'.visible tenant (h.visible tenant hm)
  . exact fun hr => h.sensitive (h'.sensitive hr)

end Discreet

theorem discreet_of_derived {passes : List (Pass F)}
    (h : ∀ p ∈ passes, ∀ m, p.summary = some m → ∀ r ∈ p.sources, Discreet m r) {m r : MemoryRecord F}
    (hderived : Derived passes m r) : Discreet m r := by
  induction hderived with
  | direct hp hm hr => exact h _ hp _ hm _ hr
  | through hp hm hr _ ih => exact (h _ hp _ hm _ hr).trans ih

theorem owner_of_findSome {scopes : List String} {tenant : String}
    (h : scopes.findSome? (Text.stripPrefix tenantScopePrefix) = some tenant)
    : owner scopes = tenant ∧ tenantScope tenant ∈ scopes := by
  unfold owner
  rw [h]
  obtain ⟨scope, hmem, hscope⟩ := List.exists_of_findSome?_eq_some h
  rw [Text.stripPrefix_eq_some] at hscope
  rw [hscope] at hmem
  exact ⟨rfl, hmem⟩

theorem owner_of_untagged {scopes : List String} (h : ∀ tenant, tenantScope tenant ∉ scopes)
    : owner scopes = defaultTenant := by
  have hnone : scopes.findSome? (Text.stripPrefix tenantScopePrefix) = none := by
    apply List.findSome?_eq_none_iff.mpr
    intro scope hscope
    apply Option.eq_none_iff_forall_ne_some.mpr
    intro tenant htenant
    rw [Text.stripPrefix_eq_some] at htenant
    exact h tenant (by rw [tenantScope, ← htenant]; exact hscope)
  unfold owner
  rw [hnone]
  rfl

theorem owner_mem {scopes : List String} {tenant : String} (h : tenantScope tenant ∈ scopes)
    : tenantScope (owner scopes) ∈ scopes := by
  cases hfind : scopes.findSome? (Text.stripPrefix tenantScopePrefix) with
  | some first =>
    obtain ⟨heq, hmem⟩ := owner_of_findSome hfind
    rw [heq]
    exact hmem
  | none =>
    have hnone := List.findSome?_eq_none_iff.mp hfind _ h
    rw [(Text.stripPrefix_eq_some).mpr (show tenantScope tenant = _ from rfl)] at hnone
    cases hnone

theorem owner_le {scopes : List String} {tenant : String} (hsorted : scopes.Pairwise (· ≤ ·))
    (h : tenantScope tenant ∈ scopes) : tenantScope (owner scopes) ≤ tenantScope tenant := by
  induction scopes with
  | nil => cases h
  | cons scope scopes ih =>
    obtain ⟨hle, hrest⟩ := List.pairwise_cons.mp hsorted
    cases hscope : Text.stripPrefix tenantScopePrefix scope with
    | some first =>
      have howner : owner (scope :: scopes) = first := by
        simp [owner, hscope]
      have hfirst : scope = tenantScope first := (Text.stripPrefix_eq_some).mp hscope
      rw [howner, ← hfirst]
      rcases List.mem_cons.mp h with heq | hmem
      . rw [heq]
      . exact hle _ hmem
    | none =>
      have howner : owner (scope :: scopes) = owner scopes := by
        simp [owner, hscope]
      rw [howner]
      rcases List.mem_cons.mp h with heq | hmem
      . rw [← heq, (Text.stripPrefix_eq_some).mpr (show tenantScope tenant = _ from rfl)] at hscope
        cases hscope
      . exact ih hrest hmem

theorem tenantScope_inj {t t' : String} (h : tenantScope t = tenantScope t') : t = t' := by
  unfold tenantScope at h
  simpa only [String.append_right_inj] using h

theorem owner_union {cs : List (MemoryRecord F)} (h : OneOwner cs) {c : MemoryRecord F} (hc : c ∈ cs)
    : owner (btreeSet (cs.flatMap (·.requiredScopes))) = owner c.requiredScopes := by
  obtain ⟨tenant, hone⟩ := h
  rw [(hone c hc).1]
  have hunion (scope : String) : scope ∈ btreeSet (cs.flatMap (·.requiredScopes))
      ↔ ∃ d ∈ cs, scope ∈ d.requiredScopes := by
    rw [mem_btreeSet, List.mem_flatMap]
  by_cases htagged : ∃ other, tenantScope other ∈ btreeSet (cs.flatMap (·.requiredScopes))
  . obtain ⟨other, hother⟩ := htagged
    have hfirst := owner_mem hother
    obtain ⟨d, hd, hmem⟩ := (hunion _).mp hfirst
    have hle := (hone d hd).2 _ hmem
    have howner := owner_mem hmem
    rw [(hone d hd).1] at howner
    have hge := owner_le (pairwise_btreeSet _) ((hunion _).mpr ⟨d, hd, howner⟩)
    exact tenantScope_inj (le_antisymm hge hle)
  . rw [not_exists] at htagged
    rw [owner_of_untagged htagged, ← (hone c hc).1, owner_of_untagged]
    intro other hother
    exact htagged other ((hunion _).mpr ⟨c, hc, hother⟩)

section

variable {store : MemoryStore σ F} {s : Archive σ F} {call : Call F}

theorem discreet_summary {r x c : MemoryRecord F} {cs : List (MemoryRecord F)}
    (hsummary : call.engine.Summarizes store call.ns call.policy s.store cs r) (hstored : r.Stored x)
    (hplain : ∀ c ∈ cs, c.sensitive = false) (howner : OneOwner cs) (hc : c ∈ cs) : Discreet x c := by
  have hscopes : x.requiredScopes = btreeSet (cs.flatMap (·.requiredScopes)) := by
    rw [hstored.eq, hsummary.requiredScopes]
  have hmem : ∀ scope ∈ c.requiredScopes, scope ∈ x.requiredScopes := by
    intro scope hscope
    rw [hscopes, mem_btreeSet]
    exact List.mem_flatMap.mpr ⟨c, hc, hscope⟩
  constructor
  . intro access hm
    rw [abacAllows_iff] at hm ⊢
    rcases hm with hempty | ⟨ctx, haccess, hgrants⟩
    . left
      rw [hempty] at hmem
      exact List.eq_nil_iff_forall_not_mem.mpr fun scope hscope => List.not_mem_nil (hmem scope hscope)
    . exact Or.inr ⟨ctx, haccess, fun scope hscope => hgrants scope (hmem scope hscope)⟩
  . intro tenant hm
    rw [visibleTo_iff] at hm ⊢
    rw [← hm, hscopes, owner_union howner hc]
  . intro hsensitive
    rw [hplain c hc] at hsensitive
    cases hsensitive

theorem step_passes (store : MemoryStore σ F) (s : Archive σ F) (call : Call F)
    : (∃ cs r x mid, call.engine.Summarizes store call.ns call.policy s.store cs r
        ∧ store.put r s.store = (.ok x, mid)
        ∧ call.engine.consolidate store call.ns call.policy s.store = (.ok (some (cs, x)), mid)
        ∧ (s.step store call).passes = s.passes ++
          [{ sources := cs
             summary := some x
             before := store.records s.store
             between := store.records mid
             after := store.records (store.delete (cs.map (·.id)) mid).2 }])
      ∨ (s.step store call).passes = s.passes ++
          [{ sources := []
             summary := none
             before := store.records s.store
             between := store.records s.store
             after := store.records s.store }] := by
  unfold Archive.step
  rcases call.engine.consolidate_cases store call.ns call.policy s.store with
    ⟨cs, r, x, mid, hsummary, hput, hsome⟩ | ⟨o, hnone, ho⟩
  . left
    refine ⟨cs, r, x, mid, hsummary, hput, hsome, ?_⟩
    rw [call.engine.compress_of_some store hsome, hsome]
    rfl
  . right
    rw [call.engine.compress_of_not_some store hnone ho, hnone]
    cases o with
    | ok consolidated =>
      cases consolidated with
      | none => rfl
      | some p => exact absurd rfl (ho p)
    | err e => rfl
    | halted => rfl

structure Pass.Sound (p : Pass F) : Prop where
  discreet : ∀ m, p.summary = some m → ∀ r ∈ p.sources, Discreet m r
  orderly : p.Orderly

theorem sound_of_consolidate {cs : List (MemoryRecord F)} {r x : MemoryRecord F} {mid : σ}
    (hsummary : call.engine.Summarizes store call.ns call.policy s.store cs r)
    (hput : store.put r s.store = (.ok x, mid)) (hapart : Apart store s.store call.ns cs)
    : Pass.Sound
        { sources := cs
          summary := some x
          before := store.records s.store
          between := store.records mid
          after := store.records (store.delete (cs.map (·.id)) mid).2 } := by
  obtain ⟨hstored, hid, hperm⟩ := store.put_ok r s.store x mid hput
  have hx : x ∈ store.records mid := hperm.mem_iff.mpr List.mem_cons_self
  constructor
  . rintro m ⟨⟩ c hc
    exact discreet_summary hsummary hstored hapart.plain hapart.owner hc
  . constructor
    . intro y hy
      exact hperm.mem_iff.mpr (List.mem_cons_of_mem _ hy)
    . intro y hy hgone
      refine ⟨?_, x, rfl, hx⟩
      have hids : y.id ∈ cs.map (·.id) := by
        by_contra hnot
        exact hgone (store.delete_keeps _ _ y hy hnot)
      rcases List.mem_cons.mp (hperm.mem_iff.mp hy) with rfl | hold
      . rw [hid, hsummary.ns] at hids
        exact absurd hids hapart.fresh
      . exact hapart.named y hold hids

theorem sound_step (hs : ∀ p ∈ s.passes, p.Sound) (hcareful : s.Careful store call)
    : ∀ p ∈ (s.step store call).passes, p.Sound := by
  rcases step_passes store s call with ⟨cs, r, x, mid, hsummary, hput, hsome, heq⟩ | heq
  . rw [heq]
    apply forall_mem_snoc hs
    exact sound_of_consolidate hsummary hput (hcareful cs x mid hsome)
  . rw [heq]
    apply forall_mem_snoc hs
    constructor
    . exact fun m hm => absurd hm (by simp)
    . constructor
      . exact fun y hy => hy
      . exact fun y hy hgone => absurd hy hgone

end

-- Passes that only ever consolidate what is not sensitive, has one owner and can be told by its id leave
-- summaries that nobody may see who may not see all that they were made of.
theorem sealed_of_run (store : MemoryStore σ F) {s₀ : σ} {calls : List (Call F)} {s : Archive σ F}
    (h : Run (Guarded (Archive.Careful store) (Archive.step store)) { store := s₀ } calls s) : s.Sealed := by
  have hsound : ∀ p ∈ s.passes, p.Sound := by
    apply h.invariant (P := fun s => ∀ p ∈ s.passes, p.Sound)
    . rintro s call t hs ⟨hcareful, rfl⟩
      exact sound_step hs hcareful
    . exact fun p hp => absurd hp List.not_mem_nil
  constructor
  . exact fun m r hderived => discreet_of_derived (fun p hp => (hsound p hp).discreet) hderived
  . exact fun p hp => (hsound p hp).orderly

def note (seq : Nat) (tenant : String) (sensitive : Bool) : MemoryRecord Rat :=
  MemoryRecord.stamp
    { ns := "notes", content := "x", importance := 0, requiredScopes := [tenantScope tenant], sensitive } seq

def consolidateAll : Call Rat where
  engine := .noteTaker
  ns := "notes"
  policy := { maxImportance := 1, keepRecent := 0, minCandidates := 1 }

def noteOf (tenants : List String) : MemoryRecord Rat :=
  MemoryRecord.stamp
    { ns := "notes", content := "A note.", embedding := [1], embeddingModel := "mock-embed", importance := 0
      requiredScopes := tenants.map tenantScope, createdMs := 1 } 3

def merged (cs : List (MemoryRecord Rat)) (m : MemoryRecord Rat) : Pass Rat :=
  { sources := cs, summary := some m, before := cs, between := cs ++ [m], after := [m] }

def firstPass : Archive (InMemoryStore Rat) Rat :=
  { store := { inner := [note 1 "acme" false, note 2 "acme" false] } }

def secondPass : Archive (InMemoryStore Rat) Rat :=
  firstPass.step InMemoryStore.store consolidateAll

theorem careful_acme {s : Archive (InMemoryStore Rat) Rat} {cs : List (MemoryRecord Rat)} {x : MemoryRecord Rat}
    (hresult : (consolidateAll.engine.consolidate InMemoryStore.store "notes" consolidateAll.policy s.store).1
      = .ok (some (cs, x)))
    (hcs : ∀ c ∈ cs, c.sensitive = false ∧ c.requiredScopes = [tenantScope "acme"])
    (hnamed : ∀ r ∈ InMemoryStore.store.records s.store, r.id ∈ cs.map (·.id) → r ∈ cs)
    (hfresh : InMemoryStore.store.nextId s.store "notes" ∉ cs.map (·.id))
    : s.Careful InMemoryStore.store consolidateAll := by
  intro cs' x' mid h
  cases hresult.symm.trans (congrArg Prod.fst h)
  refine ⟨fun c hc => (hcs c hc).1, ⟨"acme", fun c hc => ?_⟩, hnamed, hfresh⟩
  rw [(hcs c hc).2]
  refine ⟨by decide, ?_⟩
  intro other hother
  rw [List.mem_singleton.mp hother]

-- The second pass makes a summary of the first one's.
theorem sealed_of_run_twice
    : Derived (secondPass.step InMemoryStore.store consolidateAll).passes ((noteOf ["acme"]).stamp 2)
          (note 1 "acme" false)
        ∧ (secondPass.step InMemoryStore.store consolidateAll).Sealed := by
  have hfirst : firstPass.Careful InMemoryStore.store consolidateAll :=
    @careful_acme _ [note 1 "acme" false, note 2 "acme" false] (noteOf ["acme"]) (by decide) (by decide) (by decide)
      (by decide)
  have hsecond : secondPass.Careful InMemoryStore.store consolidateAll :=
    @careful_acme _ [noteOf ["acme"]] ((noteOf ["acme"]).stamp 2) (by decide) (by decide) (by decide) (by decide)
  refine ⟨?_, sealed_of_run InMemoryStore.store (.cons ⟨hfirst, rfl⟩ (.cons ⟨hsecond, rfl⟩ (.nil _)))⟩
  apply Derived.through (p := merged [noteOf ["acme"]] ((noteOf ["acme"]).stamp 2)) (by decide) rfl
    (List.mem_singleton.mpr rfl)
  exact Derived.direct (p := merged [note 1 "acme" false, note 2 "acme" false] (noteOf ["acme"])) (by decide) rfl
    (by decide)

-- The summary of a sensitive note of one tenant and a note of another can be read by the first.
theorem not_sealed_mixed
    : ¬(Archive.step InMemoryStore.store { store := { inner := [note 1 "acme" true, note 2 "beta" false] } }
        consolidateAll).Sealed := by
  intro h
  have hderived : Derived (Archive.step InMemoryStore.store
      { store := { inner := [note 1 "acme" true, note 2 "beta" false] } } consolidateAll).passes
        (noteOf ["acme", "beta"]) (note 2 "beta" false) := by
    exact Derived.direct (p := merged [note 1 "acme" true, note 2 "beta" false] (noteOf ["acme", "beta"]))
      (by decide) rfl (by decide)
  have hvisible := (h.discreet _ _ hderived).visible "acme" (by decide)
  exact absurd hvisible (by decide)

end Wovyr.Server.Memory
