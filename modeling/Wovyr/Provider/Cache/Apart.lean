import Wovyr.Lib.Run
import Wovyr.Provider.Cache.View

/-!
This module contains what is known of the calls of a gateway and of its caches as long as the requests
of different tenants do not collide.
-/

namespace Wovyr.Provider.Traffic

variable {V S : Type} (traffic : Traffic V S)

-- A response stored for `other` can be served to `call`.
def Collides (call other : Nat) : Prop :=
  cacheKey traffic.fmt (traffic.requestOf call) = cacheKey traffic.fmt (traffic.requestOf other)
    ∨ traffic.cfg.mode = .semantic
      ∧ paramKey traffic.fmt (traffic.requestOf other) = paramKey traffic.fmt (traffic.requestOf call)
      ∧ ∃ v w, traffic.embeddingOf call = some v ∧ traffic.embeddingOf other = some w
        ∧ traffic.floats.clears (traffic.floats.cosineSimilarity v w) = true

namespace Progress

def vec : Progress V → Option V
  | .searching vec | .dispatching vec | .storing vec _ | .indexing vec _ => vec
  | _ => none

end Progress

namespace State

variable (s : State V)

def Started (call : Nat) : Prop :=
  s.calls call ≠ .idle

def Alone (call : Nat) : Prop :=
  ∀ other, s.Started other → traffic.tenantOf other = traffic.tenantOf call

-- No call starts whose request collides with that of an earlier call of another tenant, and a
-- response for which there is no room is stored only while there are no calls of other tenants.
def Apart : Move → Prop
  | .lookup call => s.calls call = .idle → ∀ other, s.Started other →
    traffic.tenantOf other ≠ traffic.tenantOf call →
      ¬traffic.Collides call other ∧ ¬traffic.Collides other call
  | .store call => ∀ vec response, s.calls call = .storing vec response → traffic.cfg.mode ≠ .off →
    s.cache.Fits (cacheKey traffic.fmt (traffic.requestOf call)) s.nowMs traffic.cfg.ttlMs
      ∨ s.Alone traffic call
  | .index call => ∀ v response, s.calls call = .indexing (some v) response →
    s.semanticCache.Fits ∨ s.Alone traffic call
  | _ => True

structure Puts (call : Nat) (p : Progress V) (c : ExactCache) (sc : InMemorySemanticCache V)
    (answers : List Answer) (t : State V) : Prop where
  nowMs : t.nowMs = s.nowMs
  cache : t.cache = c
  semanticCache : t.semanticCache = sc
  calls : t.calls = Function.update s.calls call p
  answers : t.answers = s.answers ++ answers

variable {s} {call : Nat} {p : Progress V} {c : ExactCache} {sc : InMemorySemanticCache V}

theorem puts_setCall
    : s.Puts call p c sc [] ({ s with cache := c, semanticCache := sc }.setCall call p) :=
  ⟨rfl, rfl, rfl, rfl, (List.append_nil _).symm⟩

theorem puts_finish {result : Except Error ChatResponse} {source : Option Nat}
    : s.Puts call .done c sc [{ call, result, source }]
        ({ s with cache := c, semanticCache := sc }.finish call result source) :=
  ⟨rfl, rfl, rfl, rfl, rfl⟩

theorem Puts.started {t : State V} {answers : List Answer} (h : s.Puts call p c sc answers t)
    (hp : p ≠ .idle) (other : Nat) : t.Started other ↔ s.Started other ∨ other = call := by
  unfold Started
  rw [h.calls]
  by_cases heq : other = call
  . subst heq
    simp only [Function.update_self, ne_eq, or_true, iff_true]
    exact hp
  . simp only [Function.update_of_ne heq, heq, or_false]

section

variable (s)

theorem lookup_off (h : traffic.cfg.mode = .off) : s.lookup traffic call = s.setCall call .missed := by
  unfold State.lookup
  rw [if_pos h]

theorem lookup_none (hmode : traffic.cfg.mode ≠ .off)
    (h : s.cache.view s.nowMs traffic.cfg.ttlMs (cacheKey traffic.fmt (traffic.requestOf call)) = none)
    : ∃ c, c = (s.cache.get (cacheKey traffic.fmt (traffic.requestOf call)) s.nowMs traffic.cfg.ttlMs).2
        ∧ s.lookup traffic call = { s with cache := c }.setCall call .missed := by
  refine ⟨_, rfl, ?_⟩
  unfold State.lookup
  rw [if_neg hmode]
  rw [← ExactCache.get_fst, Option.map_eq_none_iff] at h
  simp only [h]

theorem lookup_some (hmode : traffic.cfg.mode ≠ .off) {i : Item}
    (h : s.cache.view s.nowMs traffic.cfg.ttlMs (cacheKey traffic.fmt (traffic.requestOf call)) = some i)
    : ∃ c, c = (s.cache.get (cacheKey traffic.fmt (traffic.requestOf call)) s.nowMs traffic.cfg.ttlMs).2
        ∧ s.lookup traffic call
            =
          { s with cache := c }.finish call (.ok (zeroCost i.response)) (some i.producer) := by
  refine ⟨_, rfl, ?_⟩
  unfold State.lookup
  rw [if_neg hmode]
  rw [← ExactCache.get_fst] at h
  obtain ⟨e, he, rfl⟩ := Option.map_eq_some_iff.mp h
  simp only [he]
  rfl

end

variable (s) in
structure Sound : Prop where
  apart : ∀ a b, s.Started a → s.Started b → traffic.tenantOf a ≠ traffic.tenantOf b →
    ¬traffic.Collides a b
  vecs : ∀ call v, (s.calls call).vec = some v →
    traffic.embeddingOf call = some v ∧ traffic.cfg.mode = .semantic
  exact : ∀ key i, s.cache.view s.nowMs traffic.cfg.ttlMs key = some i →
    s.Started i.producer ∧ key = cacheKey traffic.fmt (traffic.requestOf i.producer)
  semantic : ∀ e ∈ s.semanticCache.entries, s.Started e.producer
    ∧ e.paramKey = paramKey traffic.fmt (traffic.requestOf e.producer)
    ∧ traffic.embeddingOf e.producer = some e.embedding
  sources : ∀ a ∈ s.answers, ∀ producer, a.source = some producer →
    traffic.tenantOf producer = traffic.tenantOf a.call

variable {traffic}

namespace Sound

variable (hs : s.Sound traffic)

include hs

theorem puts {t : State V} {answers : List Answer} (h : s.Puts call p c sc answers t) (hp : p ≠ .idle)
    (hapart : ∀ other, s.Started other → traffic.tenantOf other ≠ traffic.tenantOf call →
      ¬traffic.Collides call other ∧ ¬traffic.Collides other call)
    (hvec : ∀ v, p.vec = some v → traffic.embeddingOf call = some v ∧ traffic.cfg.mode = .semantic)
    (hexact : ∀ key i, c.view s.nowMs traffic.cfg.ttlMs key = some i →
      s.cache.view s.nowMs traffic.cfg.ttlMs key = some i
        ∨ i.producer = call ∧ key = cacheKey traffic.fmt (traffic.requestOf call))
    (hsemantic : ∀ e ∈ sc.entries, e ∈ s.semanticCache.entries
      ∨ e.producer = call ∧ e.paramKey = paramKey traffic.fmt (traffic.requestOf call)
        ∧ traffic.embeddingOf call = some e.embedding)
    (hanswers : ∀ a ∈ answers, ∀ producer, a.source = some producer →
      traffic.tenantOf producer = traffic.tenantOf a.call)
    : t.Sound traffic := by
  have hstarted := h.started hp
  constructor
  . intro a b ha hb hne
    rcases (hstarted a).mp ha with ha | rfl
    . rcases (hstarted b).mp hb with hb | rfl
      . exact hs.apart a b ha hb hne
      . exact (hapart a ha hne).2
    . rcases (hstarted b).mp hb with hb | rfl
      . exact (hapart b hb (Ne.symm hne)).1
      . exact absurd rfl hne
  . intro other v hv
    rw [h.calls] at hv
    by_cases heq : other = call
    . subst heq
      rw [Function.update_self] at hv
      exact hvec v hv
    . rw [Function.update_of_ne heq] at hv
      exact hs.vecs other v hv
  . intro key i hi
    rw [h.cache, h.nowMs] at hi
    rcases hexact key i hi with hold | ⟨rfl, rfl⟩
    . have hknown := hs.exact key i hold
      exact ⟨(hstarted _).mpr (Or.inl hknown.1), hknown.2⟩
    . exact ⟨(hstarted _).mpr (Or.inr rfl), rfl⟩
  . intro e he
    rw [h.semanticCache] at he
    rcases hsemantic e he with hold | ⟨rfl, hkey, hvec⟩
    . have hknown := hs.semantic e hold
      exact ⟨(hstarted _).mpr (Or.inl hknown.1), hknown.2⟩
    . exact ⟨(hstarted _).mpr (Or.inr rfl), hkey, hvec⟩
  . rw [h.answers]
    intro a ha
    rcases List.mem_append.mp ha with hold | hnew
    . exact hs.sources a hold
    . exact hanswers a hnew

theorem apart_of_started (h : s.Started call) (other : Nat) (hother : s.Started other)
    (hne : traffic.tenantOf other ≠ traffic.tenantOf call)
    : ¬traffic.Collides call other ∧ ¬traffic.Collides other call :=
  ⟨hs.apart call other h hother (Ne.symm hne), hs.apart other call hother h hne⟩

theorem tenant_of_view {i : Item}
    (hapart : ∀ other, s.Started other → traffic.tenantOf other ≠ traffic.tenantOf call →
      ¬traffic.Collides call other ∧ ¬traffic.Collides other call)
    (h : s.cache.view s.nowMs traffic.cfg.ttlMs (cacheKey traffic.fmt (traffic.requestOf call)) = some i)
    : traffic.tenantOf i.producer = traffic.tenantOf call := by
  obtain ⟨hstarted, hkey⟩ := hs.exact _ i h
  by_contra hne
  exact (hapart i.producer hstarted hne).1 (Or.inl hkey)

theorem tenant_of_serves {e : SemanticEntry V} {v : V} (hstarted : s.Started call)
    (hvec : (s.calls call).vec = some v) (he : e ∈ s.semanticCache.entries)
    (hserves : InMemorySemanticCache.Serves traffic.floats
      (paramKey traffic.fmt (traffic.requestOf call)) v e)
    : traffic.tenantOf e.producer = traffic.tenantOf call := by
  obtain ⟨hproducer, hkey, hembedding⟩ := hs.semantic e he
  obtain ⟨hv, hmode⟩ := hs.vecs call v hvec
  by_contra hne
  refine (hs.apart_of_started hstarted e.producer hproducer hne).1 (Or.inr ⟨hmode, ?_, ?_⟩)
  . rw [← hkey, hserves.1]
  . exact ⟨v, e.embedding, hv, hembedding, hserves.2⟩

theorem tick {nowMs : Nat} (h : s.nowMs ≤ nowMs) : Sound traffic { s with nowMs } := by
  refine { hs with exact := ?_ }
  intro key i hi
  rw [ExactCache.view_later _ _ h] at hi
  exact hs.exact key i (Option.filter_eq_some_iff.mp hi).1

theorem lookup (hapart : ∀ other, s.Started other → traffic.tenantOf other ≠ traffic.tenantOf call →
      ¬traffic.Collides call other ∧ ¬traffic.Collides other call)
    : (s.lookup traffic call).Sound traffic := by
  by_cases hmode : traffic.cfg.mode = .off
  . rw [lookup_off traffic s hmode]
    apply hs.puts puts_setCall
    . nofun
    . exact hapart
    . nofun
    . exact fun _ _ h => Or.inl h
    . exact fun _ h => Or.inl h
    . exact List.forall_mem_nil _
  . have hsame : ∀ key i, (s.cache.get (cacheKey traffic.fmt (traffic.requestOf call)) s.nowMs
          traffic.cfg.ttlMs).2.view s.nowMs traffic.cfg.ttlMs key = some i →
        s.cache.view s.nowMs traffic.cfg.ttlMs key = some i
          ∨ i.producer = call ∧ key = cacheKey traffic.fmt (traffic.requestOf call) := by
      intro key i hi
      rw [ExactCache.view_get] at hi
      exact Or.inl hi
    cases hview : s.cache.view s.nowMs traffic.cfg.ttlMs
        (cacheKey traffic.fmt (traffic.requestOf call)) with
    | none =>
      obtain ⟨c, rfl, hlookup⟩ := lookup_none traffic s hmode hview
      rw [hlookup]
      apply hs.puts puts_setCall
      . nofun
      . exact hapart
      . nofun
      . exact hsame
      . exact fun _ h => Or.inl h
      . exact List.forall_mem_nil _
    | some i =>
      obtain ⟨c, rfl, hlookup⟩ := lookup_some traffic s hmode hview
      rw [hlookup]
      apply hs.puts puts_finish
      . nofun
      . exact hapart
      . nofun
      . exact hsame
      . exact fun _ h => Or.inl h
      . intro a ha producer hsource
        cases List.mem_singleton.mp ha
        cases hsource
        exact hs.tenant_of_view hapart hview

theorem moved {t : State V} {answers : List Answer} (hstarted : s.Started call)
    (h : s.Puts call p s.cache s.semanticCache answers t) (hp : p ≠ .idle)
    (hvec : ∀ v, p.vec = some v → traffic.embeddingOf call = some v ∧ traffic.cfg.mode = .semantic)
    (hanswers : ∀ a ∈ answers, ∀ producer, a.source = some producer →
      traffic.tenantOf producer = traffic.tenantOf a.call)
    : t.Sound traffic :=
  hs.puts h hp (hs.apart_of_started hstarted) hvec (fun _ _ h => Or.inl h) (fun _ h => Or.inl h) hanswers

theorem embed (hstarted : s.Started call) : (s.embed traffic call).Sound traffic := by
  unfold State.embed
  apply hs.moved hstarted puts_setCall
  . nofun
  . intro v hv
    change (if traffic.cfg.mode = .semantic ∧ _ then _ else none) = some v at hv
    split at hv
    . rename_i hmode
      exact ⟨hv, hmode.1⟩
    . cases hv
  . exact List.forall_mem_nil _

theorem search {vec : Option V} (h : s.calls call = .searching vec)
    : (s.search traffic call vec).Sound traffic := by
  have hstarted : s.Started call := by
    unfold Started
    rw [h]
    nofun
  have hvec : ∀ v, vec = some v → (s.calls call).vec = some v := by
    intro v hv
    rw [h]
    exact hv
  unfold State.search
  cases vec with
  | none =>
    apply hs.moved hstarted puts_setCall
    . nofun
    . nofun
    . exact List.forall_mem_nil _
  | some v =>
    dsimp only
    split
    . rename_i e he
      apply hs.moved hstarted puts_finish
      . nofun
      . nofun
      . intro a ha producer hsource
        cases List.mem_singleton.mp ha
        cases hsource
        have hfound := InMemorySemanticCache.of_lookup he
        exact hs.tenant_of_serves hstarted (hvec v rfl) hfound.1 hfound.2
    . apply hs.moved hstarted puts_setCall
      . nofun
      . intro w hw
        exact hs.vecs call w (hvec w hw)
      . exact List.forall_mem_nil _

theorem respond {vec : Option V} {result : Except Error ChatResponse}
    (h : s.calls call = .dispatching vec) : (s.respond call vec result).Sound traffic := by
  have hstarted : s.Started call := by
    unfold Started
    rw [h]
    nofun
  unfold State.respond
  cases result with
  | error e =>
    apply hs.moved hstarted puts_finish
    . nofun
    . nofun
    . intro a ha producer hsource
      cases List.mem_singleton.mp ha
      cases hsource
  | ok response =>
    apply hs.moved hstarted puts_setCall
    . nofun
    . intro v hv
      apply hs.vecs call v
      rw [h]
      exact hv
    . exact List.forall_mem_nil _

theorem store {vec : Option V} {response : ChatResponse} (h : s.calls call = .storing vec response)
    : (s.store traffic call vec response).Sound traffic := by
  have hstarted : s.Started call := by
    unfold Started
    rw [h]
    nofun
  unfold State.store
  apply hs.puts puts_setCall
  . nofun
  . exact hs.apart_of_started hstarted
  . intro v hv
    apply hs.vecs call v
    rw [h]
    exact hv
  . intro key i hi
    split at hi
    . exact Or.inl hi
    . rcases ExactCache.of_view_insert _ hi with hold | ⟨rfl, rfl⟩
      . exact Or.inl hold
      . exact Or.inr ⟨rfl, rfl⟩
  . exact fun _ h => Or.inl h
  . exact List.forall_mem_nil _

theorem index {vec : Option V} {response : ChatResponse} (h : s.calls call = .indexing vec response)
    : (s.index traffic call vec response).Sound traffic := by
  have hstarted : s.Started call := by
    unfold Started
    rw [h]
    nofun
  unfold State.index
  apply hs.puts puts_finish
  . nofun
  . exact hs.apart_of_started hstarted
  . nofun
  . exact fun _ _ h => Or.inl h
  . intro e he
    cases vec with
    | none => exact Or.inl he
    | some v =>
      rcases InMemorySemanticCache.of_mem_store he with hold | rfl
      . exact Or.inl hold
      . right
        refine ⟨rfl, rfl, ?_⟩
        have hv := hs.vecs call v (by
          rw [h]
          rfl)
        exact hv.1
  . intro a ha producer hsource
    cases List.mem_singleton.mp ha
    cases hsource

end State.Sound

open State

variable {traffic}

theorem sound_step {s : State V} (hs : s.Sound traffic) {move : Move} (h : s.Apart traffic move)
    : (traffic.step s move).Sound traffic := by
  cases move with
  | tick nowMs =>
    show (if s.nowMs ≤ nowMs then { s with nowMs } else s).Sound traffic
    split
    . rename_i hle
      exact hs.tick hle
    . exact hs
  | lookup call =>
    cases hcall : s.calls call with
    | idle =>
      simp only [step, hcall]
      exact hs.lookup (h hcall)
    | _ =>
      simp only [step, hcall]
      exact hs
  | embed call =>
    cases hcall : s.calls call with
    | missed =>
      simp only [step, hcall]
      apply hs.embed
      unfold Started
      rw [hcall]
      nofun
    | _ =>
      simp only [step, hcall]
      exact hs
  | search call =>
    cases hcall : s.calls call with
    | searching vec =>
      simp only [step, hcall]
      exact hs.search hcall
    | _ =>
      simp only [step, hcall]
      exact hs
  | respond call result =>
    cases hcall : s.calls call with
    | dispatching vec =>
      simp only [step, hcall]
      exact hs.respond hcall
    | _ =>
      simp only [step, hcall]
      exact hs
  | store call =>
    cases hcall : s.calls call with
    | storing vec response =>
      simp only [step, hcall]
      exact hs.store hcall
    | _ =>
      simp only [step, hcall]
      exact hs
  | index call =>
    cases hcall : s.calls call with
    | indexing vec response =>
      simp only [step, hcall]
      exact hs.index hcall
    | _ =>
      simp only [step, hcall]
      exact hs
  | drop call =>
    cases hcall : s.calls call with
    | idle =>
      simp only [step, hcall]
      exact hs
    | _ =>
      simp only [step, hcall]
      apply hs.moved ?_ puts_setCall
      . nofun
      . nofun
      . exact List.forall_mem_nil _
      . unfold Started
        rw [hcall]
        nofun

theorem sound_init (semanticMaxEntries : Nat)
    : (traffic.init semanticMaxEntries : State V).Sound traffic := by
  constructor
  . intro a _ ha
    exact absurd rfl ha
  . nofun
  . intro key i hi
    cases hi
  . exact List.forall_mem_nil _
  . exact List.forall_mem_nil _

end Wovyr.Provider.Traffic
