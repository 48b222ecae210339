import Wovyr.Provider.Cache.Apart

/-!
This module contains what the calls of one tenant can see of those of another through the response
cache, whose keys do not contain the tenant.
-/

namespace Wovyr.Provider.Traffic

open InMemorySemanticCache List

variable {V S : Type} (traffic : Traffic V S)

def Move.call? : Move → Option Nat
  | .tick _ => none
  | .lookup call | .embed call | .search call | .respond call _ | .store call | .index call
  | .drop call => some call

def restrict (tenant : String) (moves : List Move) : List Move :=
  moves.filter fun move => move.call?.all fun call => traffic.tenantOf call == tenant

def answersFor (tenant : String) (answers : List Answer) : List Answer :=
  answers.filter fun a => traffic.tenantOf a.call == tenant

structure Isolated (semanticMaxEntries : Nat) (moves : List Move) : Prop where
  sources : ∀ a ∈ (traffic.run (traffic.init semanticMaxEntries) moves).answers,
    ∀ producer, a.source = some producer → traffic.tenantOf producer = traffic.tenantOf a.call
  same : ∀ tenant,
    traffic.answersFor tenant (traffic.run (traffic.init semanticMaxEntries) moves).answers
      =
    (traffic.run (traffic.init semanticMaxEntries) (traffic.restrict tenant moves)).answers

open State

variable {traffic}

-- What `t`, which has only had the calls of one tenant, has in common with `s`.

def Mine (traffic : Traffic V S) (tenant : String) (producer : Nat) : Bool :=
  traffic.tenantOf producer == tenant

theorem mine_iff {tenant : String} {producer : Nat}
    : traffic.Mine tenant producer = true ↔ traffic.tenantOf producer = tenant := beq_iff_eq

theorem not_mine {tenant : String} {producer : Nat} (h : traffic.tenantOf producer ≠ tenant)
    : traffic.Mine tenant producer = false := beq_eq_false_iff_ne.mpr h

structure SameExact (traffic : Traffic V S) (tenant : String) (nowMs : Nat) (c d : ExactCache) : Prop where
  maxEntries : c.maxEntries = d.maxEntries
  view : ∀ key, d.view nowMs traffic.cfg.ttlMs key
    = (c.view nowMs traffic.cfg.ttlMs key).filter fun i => traffic.Mine tenant i.producer

structure SameSemantic (traffic : Traffic V S) (tenant : String) (c d : InMemorySemanticCache V) : Prop where
  maxEntries : c.maxEntries = d.maxEntries
  entries : d.entries = c.entries.filter fun e => traffic.Mine tenant e.producer

namespace SameExact

variable {tenant : String} {nowMs : Nat} {c d : ExactCache} {key : String} {response : ChatResponse}
  {call : Nat}

theorem get (h : SameExact traffic tenant nowMs c d)
    : SameExact traffic tenant nowMs (c.get key nowMs traffic.cfg.ttlMs).2
        (d.get key nowMs traffic.cfg.ttlMs).2 := by
  constructor
  . rw [ExactCache.maxEntries_get, ExactCache.maxEntries_get, h.maxEntries]
  . rw [ExactCache.view_get, ExactCache.view_get]
    exact h.view

theorem get_left (h : SameExact traffic tenant nowMs c d)
    : SameExact traffic tenant nowMs (c.get key nowMs traffic.cfg.ttlMs).2 d := by
  constructor
  . rw [ExactCache.maxEntries_get, h.maxEntries]
  . rw [ExactCache.view_get]
    exact h.view

theorem later {nowMs' : Nat} (h : SameExact traffic tenant nowMs c d) (hle : nowMs ≤ nowMs')
    : SameExact traffic tenant nowMs' c d := by
  refine ⟨h.maxEntries, ?_⟩
  intro k
  rw [ExactCache.view_later _ _ hle, ExactCache.view_later c _ hle, h.view, Option.filter_filter,
    Option.filter_filter]
  congr 1
  funext i
  exact Bool.and_comm _ _

theorem fits (h : SameExact traffic tenant nowMs c d) (hfits : c.Fits key nowMs traffic.cfg.ttlMs)
    : d.Fits key nowMs traffic.cfg.ttlMs := by
  apply hfits.of_view _ _ h.maxEntries
  intro k hk
  rw [h.view] at hk
  obtain ⟨i, hi⟩ := Option.isSome_iff_exists.mp hk
  rw [(Option.filter_eq_some_iff.mp hi).1]
  rfl

theorem insert (h : SameExact traffic tenant nowMs c d) (hcall : traffic.tenantOf call = tenant)
    (hfits : c.Fits key nowMs traffic.cfg.ttlMs)
    : SameExact traffic tenant nowMs (c.insert key nowMs traffic.cfg.ttlMs response call)
        (d.insert key nowMs traffic.cfg.ttlMs response call) := by
  by_cases hmax : c.maxEntries = 0
  . rw [ExactCache.insert_of_eq_zero c hmax, ExactCache.insert_of_eq_zero d (h.maxEntries ▸ hmax)]
    exact h
  . constructor
    . rw [ExactCache.maxEntries_insert, ExactCache.maxEntries_insert, h.maxEntries]
    . intro k
      rw [ExactCache.view_insert c hmax hfits,
        ExactCache.view_insert d (h.maxEntries ▸ hmax) (h.fits hfits)]
      by_cases hk : k = key
      . subst hk
        have hmine : traffic.Mine tenant (ExactCache.stored nowMs response call).producer = true :=
          (mine_iff).mpr hcall
        rw [Function.update_self, Function.update_self, Option.filter_some, if_pos hmine]
      . rw [Function.update_of_ne hk, Function.update_of_ne hk, h.view]

theorem insert_left (h : SameExact traffic tenant nowMs c d) (hcall : traffic.tenantOf call ≠ tenant)
    (hkey : ∀ i, c.view nowMs traffic.cfg.ttlMs key = some i → traffic.tenantOf i.producer ≠ tenant)
    (hfits : c.Fits key nowMs traffic.cfg.ttlMs)
    : SameExact traffic tenant nowMs (c.insert key nowMs traffic.cfg.ttlMs response call) d := by
  by_cases hmax : c.maxEntries = 0
  . rw [ExactCache.insert_of_eq_zero c hmax]
    exact h
  . constructor
    . rw [ExactCache.maxEntries_insert, h.maxEntries]
    . intro k
      rw [ExactCache.view_insert c hmax hfits]
      by_cases hk : k = key
      . subst hk
        have hnot : traffic.Mine tenant (ExactCache.stored nowMs response call).producer = false :=
          not_mine hcall
        rw [Function.update_self, h.view, Option.filter_some, hnot, if_neg Bool.false_ne_true]
        apply Option.filter_eq_none_iff.mpr
        intro i hi hmine
        exact hkey i hi ((mine_iff).mp hmine)
      . rw [Function.update_of_ne hk, h.view]

-- Where all there is belongs to the tenant, and where none of it does.

theorem refl_of_mine (h : ∀ k i, c.view nowMs traffic.cfg.ttlMs k = some i →
      traffic.tenantOf i.producer = tenant)
    : SameExact traffic tenant nowMs c c := by
  refine ⟨rfl, ?_⟩
  intro k
  cases hview : c.view nowMs traffic.cfg.ttlMs k with
  | none => rfl
  | some i => rw [Option.filter_some, if_pos ((mine_iff).mpr (h k i hview))]

theorem of_not_mine (hmax : c.maxEntries = d.maxEntries)
    (h : ∀ k i, c.view nowMs traffic.cfg.ttlMs k = some i → traffic.tenantOf i.producer ≠ tenant)
    (hd : ∀ k, d.view nowMs traffic.cfg.ttlMs k = none) : SameExact traffic tenant nowMs c d := by
  refine ⟨hmax, ?_⟩
  intro k
  rw [hd k]
  symm
  apply Option.filter_eq_none_iff.mpr
  intro i hi hmine
  exact h k i hi ((mine_iff).mp hmine)

theorem view_eq_none (h : SameExact traffic tenant nowMs c d)
    (hc : ∀ k i, c.view nowMs traffic.cfg.ttlMs k = some i → traffic.tenantOf i.producer ≠ tenant)
    (k : String) : d.view nowMs traffic.cfg.ttlMs k = none := by
  rw [h.view]
  apply Option.filter_eq_none_iff.mpr
  intro i hi hmine
  exact hc k i hi ((mine_iff).mp hmine)

end SameExact

namespace SameSemantic

variable {tenant : String} {c d : InMemorySemanticCache V} {key model : String} {v : V} {nowMs : Nat}
  {response : ChatResponse} {call : Nat}

theorem fits (h : SameSemantic traffic tenant c d) (hfits : c.Fits) : d.Fits := by
  unfold Fits
  rw [← h.maxEntries, h.entries]
  rcases hfits with hzero | hroom
  . exact Or.inl hzero
  . exact Or.inr (Nat.lt_of_le_of_lt (length_filter_le _ _) hroom)

theorem store (h : SameSemantic traffic tenant c d) (hcall : traffic.tenantOf call = tenant)
    (hfits : c.Fits)
    : SameSemantic traffic tenant (c.store key model v nowMs response call)
        (d.store key model v nowMs response call) := by
  by_cases hmax : c.maxEntries = 0
  . rw [store_of_eq_zero hmax,
      store_of_eq_zero (h.maxEntries ▸ hmax)]
    exact h
  . constructor
    . rw [maxEntries_store, maxEntries_store, h.maxEntries]
    . rw [entries_store hmax hfits,
        entries_store (h.maxEntries ▸ hmax) (h.fits hfits), filter_append,
        h.entries]
      have hmine : traffic.Mine tenant
          (stored key model v nowMs response call).producer = true :=
        (mine_iff).mpr hcall
      rw [filter_cons, if_pos hmine, filter_nil]

theorem store_left (h : SameSemantic traffic tenant c d) (hcall : traffic.tenantOf call ≠ tenant)
    (hfits : c.Fits)
    : SameSemantic traffic tenant (c.store key model v nowMs response call) d := by
  by_cases hmax : c.maxEntries = 0
  . rw [store_of_eq_zero hmax]
    exact h
  . constructor
    . rw [maxEntries_store, h.maxEntries]
    . rw [entries_store hmax hfits, filter_append, h.entries]
      have hnot : ¬traffic.Mine tenant
          (stored key model v nowMs response call).producer = true :=
        fun hmine => hcall ((mine_iff).mp hmine)
      rw [filter_cons, if_neg hnot, filter_nil, append_nil]

theorem refl_of_mine (h : ∀ e ∈ c.entries, traffic.tenantOf e.producer = tenant)
    : SameSemantic traffic tenant c c := by
  refine ⟨rfl, (filter_eq_self.mpr ?_).symm⟩
  intro e he
  exact (mine_iff).mpr (h e he)

theorem of_not_mine (hmax : c.maxEntries = d.maxEntries)
    (h : ∀ e ∈ c.entries, traffic.tenantOf e.producer ≠ tenant) (hd : d.entries = [])
    : SameSemantic traffic tenant c d := by
  refine ⟨hmax, ?_⟩
  rw [hd]
  symm
  apply filter_eq_nil_iff.mpr
  intro e he hmine
  exact h e he ((mine_iff).mp hmine)

theorem entries_eq_nil (h : SameSemantic traffic tenant c d)
    (hc : ∀ e ∈ c.entries, traffic.tenantOf e.producer ≠ tenant) : d.entries = [] := by
  rw [h.entries]
  apply filter_eq_nil_iff.mpr
  intro e he hmine
  exact hc e he ((mine_iff).mp hmine)

end SameSemantic

-- `t` is `s` as if the other tenants had not been there.
structure Mirrors (traffic : Traffic V S) (tenant : String) (s t : State V) : Prop where
  nowMs : s.nowMs = t.nowMs
  calls : ∀ call, traffic.tenantOf call = tenant → s.calls call = t.calls call
  answers : t.answers = traffic.answersFor tenant s.answers
  exact : SameExact traffic tenant s.nowMs s.cache t.cache
  semantic : SameSemantic traffic tenant s.semanticCache t.semanticCache
  -- As long as no other tenant has been there, there is no difference.
  alone : (∀ call, s.Started call → traffic.tenantOf call = tenant) →
    s.cache = t.cache ∧ s.semanticCache = t.semanticCache

namespace Mirrors

variable {tenant : String} {s t : State V} {call : Nat}

section

variable (h : Mirrors traffic tenant s t)

include h

theorem puts {s' t' : State V} {p : Progress V} {c d : ExactCache} {sc sd : InMemorySemanticCache V}
    {answers : List Answer} (hcall : traffic.tenantOf call = tenant) (hp : p ≠ .idle)
    (hs' : s.Puts call p c sc answers s') (ht' : t.Puts call p d sd answers t')
    (hanswers : ∀ a ∈ answers, a.call = call)
    (hexact : SameExact traffic tenant s.nowMs c d) (hsemantic : SameSemantic traffic tenant sc sd)
    (halone : (∀ call, s.Started call → traffic.tenantOf call = tenant) → c = d ∧ sc = sd)
    : Mirrors traffic tenant s' t' := by
  constructor
  . rw [hs'.nowMs, ht'.nowMs, h.nowMs]
  . intro other hother
    rw [hs'.calls, ht'.calls]
    by_cases heq : other = call
    . subst heq
      rw [Function.update_self, Function.update_self]
    . rw [Function.update_of_ne heq, Function.update_of_ne heq, h.calls other hother]
  . rw [hs'.answers, ht'.answers, h.answers]
    unfold answersFor
    rw [filter_append]
    congr 1
    symm
    apply filter_eq_self.mpr
    intro a ha
    rw [hanswers a ha]
    exact (mine_iff).mpr hcall
  . rw [hs'.nowMs, hs'.cache, ht'.cache]
    exact hexact
  . rw [hs'.semanticCache, ht'.semanticCache]
    exact hsemantic
  . intro hall
    rw [hs'.cache, ht'.cache, hs'.semanticCache, ht'.semanticCache]
    apply halone
    intro other hother
    exact hall other ((hs'.started hp other).mpr (Or.inl hother))

theorem puts_left {s' : State V} {p : Progress V} {c : ExactCache} {sc : InMemorySemanticCache V}
    {answers : List Answer} (hcall : traffic.tenantOf call ≠ tenant) (hp : p ≠ .idle)
    (hs' : s.Puts call p c sc answers s') (hanswers : ∀ a ∈ answers, a.call = call)
    (hexact : SameExact traffic tenant s.nowMs c t.cache)
    (hsemantic : SameSemantic traffic tenant sc t.semanticCache)
    : Mirrors traffic tenant s' t := by
  constructor
  . rw [hs'.nowMs, h.nowMs]
  . intro other hother
    have hne : other ≠ call := by
      rintro rfl
      exact hcall hother
    rw [hs'.calls, Function.update_of_ne hne, h.calls other hother]
  . rw [hs'.answers, h.answers]
    unfold answersFor
    rw [filter_append]
    have hnone : answers.filter (fun a => traffic.tenantOf a.call == tenant) = [] := by
      apply filter_eq_nil_iff.mpr
      intro a ha hmine
      rw [hanswers a ha] at hmine
      exact hcall ((mine_iff).mp hmine)
    rw [hnone, append_nil]
  . rw [hs'.nowMs, hs'.cache]
    exact hexact
  . rw [hs'.semanticCache]
    exact hsemantic
  . intro hall
    exact absurd (hall call ((hs'.started hp call).mpr (Or.inr rfl))) hcall

-- With the caches left as they are.

theorem moved {s' t' : State V} {p : Progress V} {answers : List Answer}
    (hcall : traffic.tenantOf call = tenant) (hp : p ≠ .idle)
    (hs' : s.Puts call p s.cache s.semanticCache answers s')
    (ht' : t.Puts call p t.cache t.semanticCache answers t') (hanswers : ∀ a ∈ answers, a.call = call)
    : Mirrors traffic tenant s' t' :=
  h.puts hcall hp hs' ht' hanswers h.exact h.semantic h.alone

theorem moved_left {s' : State V} {p : Progress V} {answers : List Answer}
    (hcall : traffic.tenantOf call ≠ tenant) (hp : p ≠ .idle)
    (hs' : s.Puts call p s.cache s.semanticCache answers s') (hanswers : ∀ a ∈ answers, a.call = call)
    : Mirrors traffic tenant s' t :=
  h.puts_left hcall hp hs' hanswers h.exact h.semantic

theorem tick {nowMs : Nat} (hle : s.nowMs ≤ nowMs)
    : Mirrors traffic tenant { s with nowMs } { t with nowMs } := by
  constructor
  . rfl
  . exact h.calls
  . exact h.answers
  . exact h.exact.later hle
  . exact h.semantic
  . exact h.alone

theorem lookup (hs : s.Sound traffic) (hcall : traffic.tenantOf call = tenant)
    (hapart : ∀ other, s.Started other → traffic.tenantOf other ≠ traffic.tenantOf call →
      ¬traffic.Collides call other ∧ ¬traffic.Collides other call)
    : Mirrors traffic tenant (s.lookup traffic call) (t.lookup traffic call) := by
  by_cases hmode : traffic.cfg.mode = .off
  . rw [lookup_off traffic s hmode, lookup_off traffic t hmode]
    apply h.moved hcall ?_ puts_setCall puts_setCall
    . exact forall_mem_nil _
    . nofun
  . have halone : (∀ call, s.Started call → traffic.tenantOf call = tenant) →
        (s.cache.get (cacheKey traffic.fmt (traffic.requestOf call)) s.nowMs traffic.cfg.ttlMs).2
            = (t.cache.get (cacheKey traffic.fmt (traffic.requestOf call)) t.nowMs traffic.cfg.ttlMs).2
          ∧ s.semanticCache = t.semanticCache := by
      intro hall
      rw [(h.alone hall).1, h.nowMs]
      exact ⟨rfl, (h.alone hall).2⟩
    have hget : SameExact traffic tenant s.nowMs
        (s.cache.get (cacheKey traffic.fmt (traffic.requestOf call)) s.nowMs traffic.cfg.ttlMs).2
        (t.cache.get (cacheKey traffic.fmt (traffic.requestOf call)) s.nowMs traffic.cfg.ttlMs).2 :=
      h.exact.get
    have hview := h.exact.view (cacheKey traffic.fmt (traffic.requestOf call))
    cases hhit : s.cache.view s.nowMs traffic.cfg.ttlMs
        (cacheKey traffic.fmt (traffic.requestOf call)) with
    | none =>
      rw [hhit, Option.filter_none, h.nowMs] at hview
      obtain ⟨c, rfl, hs'⟩ := lookup_none traffic s hmode hhit
      obtain ⟨d, rfl, ht'⟩ := lookup_none traffic t hmode hview
      rw [hs', ht']
      apply h.puts hcall ?_ puts_setCall puts_setCall ?_ ?_ h.semantic halone
      . nofun
      . exact forall_mem_nil _
      . rw [← h.nowMs]
        exact hget
    | some i =>
      have hmine : traffic.Mine tenant i.producer = true := by
        rw [mine_iff, hs.tenant_of_view hapart hhit, hcall]
      rw [hhit, Option.filter_some, if_pos hmine, h.nowMs] at hview
      obtain ⟨c, rfl, hs'⟩ := lookup_some traffic s hmode hhit
      obtain ⟨d, rfl, ht'⟩ := lookup_some traffic t hmode hview
      rw [hs', ht']
      apply h.puts hcall ?_ puts_finish puts_finish ?_ ?_ h.semantic halone
      . nofun
      . intro a ha
        cases mem_singleton.mp ha
        rfl
      . rw [← h.nowMs]
        exact hget

theorem lookup_left (hcall : traffic.tenantOf call ≠ tenant)
    : Mirrors traffic tenant (s.lookup traffic call) t := by
  by_cases hmode : traffic.cfg.mode = .off
  . rw [lookup_off traffic s hmode]
    apply h.moved_left hcall ?_ puts_setCall
    . exact forall_mem_nil _
    . nofun
  . cases hhit : s.cache.view s.nowMs traffic.cfg.ttlMs
        (cacheKey traffic.fmt (traffic.requestOf call)) with
    | none =>
      obtain ⟨c, rfl, hs'⟩ := lookup_none traffic s hmode hhit
      rw [hs']
      apply h.puts_left hcall ?_ puts_setCall ?_ h.exact.get_left h.semantic
      . nofun
      . exact forall_mem_nil _
    | some i =>
      obtain ⟨c, rfl, hs'⟩ := lookup_some traffic s hmode hhit
      rw [hs']
      apply h.puts_left hcall ?_ puts_finish ?_ h.exact.get_left h.semantic
      . nofun
      . intro a ha
        cases mem_singleton.mp ha
        rfl

theorem search (hs : s.Sound traffic) (hcall : traffic.tenantOf call = tenant) {vec : Option V}
    (hsearching : s.calls call = .searching vec)
    : Mirrors traffic tenant (s.search traffic call vec) (t.search traffic call vec) := by
  unfold State.search
  cases vec with
  | none =>
    apply h.moved hcall ?_ puts_setCall puts_setCall
    . exact forall_mem_nil _
    . nofun
  | some v =>
    have hstarted : s.Started call := by
      unfold Started
      rw [hsearching]
      nofun
    have hvec : (s.calls call).vec = some v := by
      rw [hsearching]
      rfl
    -- What other tenants have stored is not served.
    have hfold := @foldl_better_filter _ _ traffic.floats
      (paramKey traffic.fmt (traffic.requestOf call)) traffic.embeddingModel v s.nowMs traffic.cfg.ttlMs
      (fun e => traffic.Mine tenant e.producer) s.semanticCache.entries
      (fun e he hserves => (mine_iff).mpr ((hs.tenant_of_serves hstarted hvec he hserves).trans hcall))
      none
    have hlookup : t.semanticCache.lookup traffic.floats (paramKey traffic.fmt (traffic.requestOf call))
          traffic.embeddingModel v t.nowMs traffic.cfg.ttlMs
        = s.semanticCache.lookup traffic.floats (paramKey traffic.fmt (traffic.requestOf call))
          traffic.embeddingModel v s.nowMs traffic.cfg.ttlMs := by
      unfold InMemorySemanticCache.lookup
      rw [h.semantic.entries, ← h.nowMs, hfold]
    dsimp only
    rw [hlookup]
    split
    . apply h.moved hcall ?_ puts_finish puts_finish
      . intro a ha
        cases mem_singleton.mp ha
        rfl
      . nofun
    . apply h.moved hcall ?_ puts_setCall puts_setCall
      . exact forall_mem_nil _
      . nofun

theorem search_left (hcall : traffic.tenantOf call ≠ tenant) (vec : Option V)
    : Mirrors traffic tenant (s.search traffic call vec) t := by
  unfold State.search
  cases vec with
  | none =>
    apply h.moved_left hcall ?_ puts_setCall
    . exact forall_mem_nil _
    . nofun
  | some v =>
    dsimp only
    split
    . apply h.moved_left hcall ?_ puts_finish
      . intro a ha
        cases mem_singleton.mp ha
        rfl
      . nofun
    . apply h.moved_left hcall ?_ puts_setCall
      . exact forall_mem_nil _
      . nofun

theorem respond (hcall : traffic.tenantOf call = tenant) (vec : Option V)
    (result : Except Error ChatResponse)
    : Mirrors traffic tenant (s.respond call vec result) (t.respond call vec result) := by
  unfold State.respond
  cases result with
  | error e =>
    apply h.moved hcall ?_ puts_finish puts_finish
    . intro a ha
      cases mem_singleton.mp ha
      rfl
    . nofun
  | ok response =>
    apply h.moved hcall ?_ puts_setCall puts_setCall
    . exact forall_mem_nil _
    . nofun

theorem respond_left (hcall : traffic.tenantOf call ≠ tenant) (vec : Option V)
    (result : Except Error ChatResponse) : Mirrors traffic tenant (s.respond call vec result) t := by
  unfold State.respond
  cases result with
  | error e =>
    apply h.moved_left hcall ?_ puts_finish
    . intro a ha
      cases mem_singleton.mp ha
      rfl
    . nofun
  | ok response =>
    apply h.moved_left hcall ?_ puts_setCall
    . exact forall_mem_nil _
    . nofun

theorem store (hs : s.Sound traffic) (hcall : traffic.tenantOf call = tenant) {vec : Option V}
    {response : ChatResponse}
    (hapart : traffic.cfg.mode ≠ .off →
      s.cache.Fits (cacheKey traffic.fmt (traffic.requestOf call)) s.nowMs traffic.cfg.ttlMs
        ∨ s.Alone traffic call)
    : Mirrors traffic tenant (s.store traffic call vec response) (t.store traffic call vec response) := by
  unfold State.store
  by_cases hmode : traffic.cfg.mode = .off
  . simp only [if_pos hmode]
    apply h.moved hcall ?_ puts_setCall puts_setCall
    . exact forall_mem_nil _
    . nofun
  . simp only [if_neg hmode]
    apply h.puts hcall ?_ puts_setCall puts_setCall ?_ ?_ h.semantic
    . intro hall
      rw [(h.alone hall).1, h.nowMs]
      exact ⟨rfl, (h.alone hall).2⟩
    . nofun
    . exact forall_mem_nil _
    . rw [← h.nowMs]
      rcases hapart hmode with hfits | halone
      . exact h.exact.insert hcall hfits
      . have hall : ∀ other, s.Started other → traffic.tenantOf other = tenant :=
          fun other hother => (halone other hother).trans hcall
        rw [← (h.alone hall).1]
        apply SameExact.refl_of_mine
        intro k i hi
        rcases ExactCache.of_view_insert _ hi with hold | ⟨_, rfl⟩
        . exact hall i.producer (hs.exact k i hold).1
        . exact hcall

theorem store_left (hs : s.Sound traffic) (hcall : traffic.tenantOf call ≠ tenant) {vec : Option V}
    {response : ChatResponse} (hstarted : s.Started call)
    (hapart : traffic.cfg.mode ≠ .off →
      s.cache.Fits (cacheKey traffic.fmt (traffic.requestOf call)) s.nowMs traffic.cfg.ttlMs
        ∨ s.Alone traffic call)
    : Mirrors traffic tenant (s.store traffic call vec response) t := by
  unfold State.store
  by_cases hmode : traffic.cfg.mode = .off
  . simp only [if_pos hmode]
    apply h.moved_left hcall ?_ puts_setCall
    . exact forall_mem_nil _
    . nofun
  . simp only [if_neg hmode]
    apply h.puts_left hcall ?_ puts_setCall ?_ ?_ h.semantic
    . nofun
    . exact forall_mem_nil _
    . rcases hapart hmode with hfits | halone
      . apply h.exact.insert_left hcall ?_ hfits
        intro i hi
        rw [hs.tenant_of_view (hs.apart_of_started hstarted) hi]
        exact hcall
      . have hold : ∀ k i, s.cache.view s.nowMs traffic.cfg.ttlMs k = some i →
            traffic.tenantOf i.producer ≠ tenant := by
          intro k i hi
          rw [halone i.producer (hs.exact k i hi).1]
          exact hcall
        apply SameExact.of_not_mine
        . rw [ExactCache.maxEntries_insert, h.exact.maxEntries]
        . intro k i hi
          rcases ExactCache.of_view_insert _ hi with hin | ⟨_, rfl⟩
          . exact hold k i hin
          . exact hcall
        . exact h.exact.view_eq_none hold

theorem index (hs : s.Sound traffic) (hcall : traffic.tenantOf call = tenant) {vec : Option V}
    {response : ChatResponse}
    (hapart : ∀ v, vec = some v → s.semanticCache.Fits ∨ s.Alone traffic call)
    : Mirrors traffic tenant (s.index traffic call vec response) (t.index traffic call vec response) := by
  have hanswers : ∀ a ∈ [{ call, result := .ok response, source := none : Answer }], a.call = call := by
    intro a ha
    cases mem_singleton.mp ha
    rfl
  unfold State.index
  cases vec with
  | none =>
    apply h.moved hcall ?_ puts_finish puts_finish hanswers
    nofun
  | some v =>
    apply h.puts hcall ?_ puts_finish puts_finish hanswers h.exact ?_ ?_
    . nofun
    . dsimp only
      rw [← h.nowMs]
      rcases hapart v rfl with hfits | halone
      . exact h.semantic.store hcall hfits
      . have hall : ∀ other, s.Started other → traffic.tenantOf other = tenant :=
          fun other hother => (halone other hother).trans hcall
        rw [← (h.alone hall).2]
        apply SameSemantic.refl_of_mine
        intro e he
        rcases of_mem_store he with hold | rfl
        . exact hall e.producer (hs.semantic e hold).1
        . exact hcall
    . intro hall
      dsimp only
      rw [(h.alone hall).2, h.nowMs]
      exact ⟨(h.alone hall).1, rfl⟩

theorem index_left (hs : s.Sound traffic) (hcall : traffic.tenantOf call ≠ tenant) {vec : Option V}
    {response : ChatResponse}
    (hapart : ∀ v, vec = some v → s.semanticCache.Fits ∨ s.Alone traffic call)
    : Mirrors traffic tenant (s.index traffic call vec response) t := by
  have hanswers : ∀ a ∈ [{ call, result := .ok response, source := none : Answer }], a.call = call := by
    intro a ha
    cases mem_singleton.mp ha
    rfl
  unfold State.index
  cases vec with
  | none =>
    apply h.moved_left hcall ?_ puts_finish hanswers
    nofun
  | some v =>
    apply h.puts_left hcall ?_ puts_finish hanswers h.exact ?_
    . nofun
    . dsimp only
      rcases hapart v rfl with hfits | halone
      . exact h.semantic.store_left hcall hfits
      . have hold : ∀ e ∈ s.semanticCache.entries, traffic.tenantOf e.producer ≠ tenant := by
          intro e he
          rw [halone e.producer (hs.semantic e he).1]
          exact hcall
        apply SameSemantic.of_not_mine
        . rw [maxEntries_store, h.semantic.maxEntries]
        . intro e he
          rcases of_mem_store he with hin | rfl
          . exact hold e hin
          . exact hcall
        . exact h.semantic.entries_eq_nil hold

theorem drop (hcall : traffic.tenantOf call = tenant)
    : Mirrors traffic tenant (s.setCall call .done) (t.setCall call .done) := by
  apply h.moved hcall ?_ puts_setCall puts_setCall
  . exact forall_mem_nil _
  . nofun

theorem drop_left (hcall : traffic.tenantOf call ≠ tenant)
    : Mirrors traffic tenant (s.setCall call .done) t := by
  apply h.moved_left hcall ?_ puts_setCall
  . exact forall_mem_nil _
  . nofun

theorem step (hs : s.Sound traffic) {move : Move} (hapart : s.Apart traffic move)
    (hown : ∀ call, move.call? = some call → traffic.tenantOf call = tenant)
    : Mirrors traffic tenant (traffic.step s move) (traffic.step t move) := by
  have hsame : ∀ call, move.call? = some call → t.calls call = s.calls call :=
    fun call hcall => (h.calls call (hown call hcall)).symm
  cases move with
  | tick nowMs =>
    simp only [Traffic.step, ← h.nowMs]
    split
    . rename_i hle
      exact h.tick hle
    . exact h
  | lookup call =>
    cases hcall : s.calls call with
    | idle =>
      simp only [Traffic.step, hsame call rfl, hcall]
      exact h.lookup hs (hown call rfl) (hapart hcall)
    | _ =>
      simp only [Traffic.step, hsame call rfl, hcall]
      exact h
  | embed call =>
    cases hcall : s.calls call with
    | missed =>
      simp only [Traffic.step, hsame call rfl, hcall]
      apply h.moved (hown call rfl) ?_ puts_setCall puts_setCall
      . exact forall_mem_nil _
      . simp
    | _ =>
      simp only [Traffic.step, hsame call rfl, hcall]
      exact h
  | search call =>
    cases hcall : s.calls call with
    | searching vec =>
      simp only [Traffic.step, hsame call rfl, hcall]
      exact h.search hs (hown call rfl) hcall
    | _ =>
      simp only [Traffic.step, hsame call rfl, hcall]
      exact h
  | respond call result =>
    cases hcall : s.calls call with
    | dispatching vec =>
      simp only [Traffic.step, hsame call rfl, hcall]
      exact h.respond (hown call rfl) vec result
    | _ =>
      simp only [Traffic.step, hsame call rfl, hcall]
      exact h
  | store call =>
    cases hcall : s.calls call with
    | storing vec response =>
      simp only [Traffic.step, hsame call rfl, hcall]
      exact h.store hs (hown call rfl) (hapart vec response hcall)
    | _ =>
      simp only [Traffic.step, hsame call rfl, hcall]
      exact h
  | index call =>
    cases hcall : s.calls call with
    | indexing vec response =>
      simp only [Traffic.step, hsame call rfl, hcall]
      apply h.index hs (hown call rfl)
      rintro v rfl
      exact hapart v response hcall
    | _ =>
      simp only [Traffic.step, hsame call rfl, hcall]
      exact h
  | drop call =>
    cases hcall : s.calls call with
    | idle =>
      simp only [Traffic.step, hsame call rfl, hcall]
      exact h
    | _ =>
      simp only [Traffic.step, hsame call rfl, hcall]
      exact h.drop (hown call rfl)

theorem step_left (hs : s.Sound traffic) {move : Move} (hapart : s.Apart traffic move)
    (hmove : move.call? = some call) (hcall : traffic.tenantOf call ≠ tenant)
    : Mirrors traffic tenant (traffic.step s move) t := by
  cases move with
  | tick nowMs => cases hmove
  | lookup other =>
    cases hmove
    cases hprogress : s.calls call with
    | idle =>
      simp only [Traffic.step, hprogress]
      exact h.lookup_left hcall
    | _ =>
      simp only [Traffic.step, hprogress]
      exact h
  | embed other =>
    cases hmove
    cases hprogress : s.calls call with
    | missed =>
      simp only [Traffic.step, hprogress]
      apply h.moved_left hcall ?_ puts_setCall
      . exact forall_mem_nil _
      . simp
    | _ =>
      simp only [Traffic.step, hprogress]
      exact h
  | search other =>
    cases hmove
    cases hprogress : s.calls call with
    | searching vec =>
      simp only [Traffic.step, hprogress]
      exact h.search_left hcall vec
    | _ =>
      simp only [Traffic.step, hprogress]
      exact h
  | respond other result =>
    cases hmove
    cases hprogress : s.calls call with
    | dispatching vec =>
      simp only [Traffic.step, hprogress]
      exact h.respond_left hcall vec result
    | _ =>
      simp only [Traffic.step, hprogress]
      exact h
  | store other =>
    cases hmove
    cases hprogress : s.calls call with
    | storing vec response =>
      simp only [Traffic.step, hprogress]
      apply h.store_left hs hcall ?_ (hapart vec response hprogress)
      unfold Started
      rw [hprogress]
      simp
    | _ =>
      simp only [Traffic.step, hprogress]
      exact h
  | index other =>
    cases hmove
    cases hprogress : s.calls call with
    | indexing vec response =>
      simp only [Traffic.step, hprogress]
      apply h.index_left hs hcall
      rintro v rfl
      exact hapart v response hprogress
    | _ =>
      simp only [Traffic.step, hprogress]
      exact h
  | drop other =>
    cases hmove
    cases hprogress : s.calls call with
    | idle =>
      simp only [Traffic.step, hprogress]
      exact h
    | _ =>
      simp only [Traffic.step, hprogress]
      exact h.drop_left hcall

end

end Mirrors

variable {s t : State V} {moves : List Move} {semanticMaxEntries : Nat}

theorem mirrors_of_run (h : Run (Guarded (State.Apart traffic) traffic.step) s moves t) (tenant : String)
    {s' : State V} (hs : s.Sound traffic) (hm : Mirrors traffic tenant s s')
    : Mirrors traffic tenant t (traffic.run s' (traffic.restrict tenant moves)) := by
  induction h generalizing s' with
  | nil => exact hm
  | @cons s _ _ move moves hstep _ ih =>
    obtain ⟨hapart, rfl⟩ := hstep
    have hsound := sound_step hs hapart
    unfold restrict
    rw [filter_cons]
    split
    . rename_i hown
      apply ih hsound
      apply hm.step hs hapart
      intro call hcall
      rw [hcall] at hown
      exact (mine_iff).mp hown
    . rename_i hother
      cases hcall : move.call? with
      | none =>
        rw [hcall] at hother
        exact absurd rfl hother
      | some call =>
        rw [hcall] at hother
        apply ih hsound
        apply hm.step_left hs hapart hcall
        exact fun hmine => hother ((mine_iff).mpr hmine)

theorem mirrors_init (tenant : String)
    : Mirrors traffic tenant (traffic.init semanticMaxEntries) (traffic.init semanticMaxEntries) := by
  constructor
  . rfl
  . exact fun _ _ => rfl
  . rfl
  . apply SameExact.refl_of_mine
    intro k i hi
    cases hi
  . apply SameSemantic.refl_of_mine
    exact forall_mem_nil _
  . exact fun _ => ⟨rfl, rfl⟩

-- The calls of a tenant get what they would have got without those of the others, as long as requests
-- of different tenants do not collide and no tenant's entries give way to another's.
theorem isolated_calls_of_run
    (h : Run (Guarded (State.Apart traffic) traffic.step) (traffic.init semanticMaxEntries) moves s)
    : traffic.Isolated semanticMaxEntries moves := by
  have hrun : s = traffic.run (traffic.init semanticMaxEntries) moves := h.foldl
  constructor
  . rw [← hrun]
    have hsound : s.Sound traffic := by
      apply Run.invariant (P := State.Sound traffic) ?_ h (sound_init semanticMaxEntries)
      rintro s move t hs ⟨hapart, rfl⟩
      exact sound_step hs hapart
    exact hsound.sources
  . intro tenant
    rw [← hrun]
    exact (mirrors_of_run h tenant (sound_init semanticMaxEntries) (mirrors_init tenant)).answers.symm

def twoTenants (mode : CacheMode) (first rest : String) : Traffic Unit Unit where
  cfg := { mode }
  fmt := { float := fun _ => "", str := id, value := fun _ => "", json := fun _ => [] }
  floats := { cosineSimilarity := fun _ _ => (), clears := fun _ => true, gt := fun _ _ => false }
  embeddingModel := "embed"
  tenantOf := fun call => if call = 0 then "acme" else "globex"
  requestOf := fun call =>
    { model := "gpt-4o", messages := [.user (if call = 0 then first else rest)] }
  embeddingOf := fun _ => some ()

def summary : ChatResponse :=
  { message := .assistant "Revenue fell by a fifth.", model := "gpt-4o", usage := {}, finishReason := "stop" }

def answered (call : Nat) : List Move :=
  [.lookup call, .embed call, .search call, .respond call (.ok summary), .store call, .index call]

theorem not_collides_twoTenants {call other : Nat}
    (h : (twoTenants .exactOnly "Summarize." "Translate.").tenantOf other
      ≠ (twoTenants .exactOnly "Summarize." "Translate.").tenantOf call)
    : ¬(twoTenants .exactOnly "Summarize." "Translate.").Collides call other := by
  rintro (hkey | ⟨hmode, _⟩)
  . by_cases hcall : call = 0
    . by_cases hother : other = 0
      . subst hcall hother
        exact h rfl
      . subst hcall
        simp only [twoTenants, hother, if_true, if_false] at hkey
        revert hkey
        decide
    . by_cases hother : other = 0
      . subst hother
        simp only [twoTenants, hcall, if_true, if_false] at hkey
        revert hkey
        decide
      . simp only [twoTenants, hcall, hother, if_false, ne_eq, not_true_eq_false] at h
  . cases hmode

-- The last call of globex is answered from the cache.
theorem isolated_calls_translations
    : (twoTenants .exactOnly "Summarize." "Translate.").Isolated 10000
        (answered 0 ++ answered 1 ++ [.lookup 2]) := by
  have hapart : ∀ (s : State Unit) (call : Nat),
      s.Apart (twoTenants .exactOnly "Summarize." "Translate.") (.lookup call) :=
    fun _ _ _ _ _ hne =>
      ⟨not_collides_twoTenants hne, not_collides_twoTenants (Ne.symm hne)⟩
  apply isolated_calls_of_run
  refine .cons ⟨hapart _ 0, rfl⟩ (.cons ⟨trivial, rfl⟩ (.cons ⟨trivial, rfl⟩ (.cons ⟨trivial, rfl⟩
    (.cons ⟨?_, rfl⟩ (.cons ⟨?_, rfl⟩ (.cons ⟨hapart _ 1, rfl⟩ (.cons ⟨trivial, rfl⟩
    (.cons ⟨trivial, rfl⟩ (.cons ⟨trivial, rfl⟩ (.cons ⟨?_, rfl⟩ (.cons ⟨?_, rfl⟩
    (.cons ⟨hapart _ 2, rfl⟩ (.nil _)))))))))))))
  . intro _ _ _ _
    left
    apply ExactCache.Fits.of_lt
    decide
  . nofun
  . intro _ _ _ _
    left
    apply ExactCache.Fits.of_lt
    decide +kernel
  . nofun

-- Both tenants ask the same, and globex gets what acme's call has stored.
theorem not_isolated_calls_summaries
    : ¬(twoTenants .exactOnly "Summarize." "Summarize.").Isolated 10000 (answered 0 ++ [.lookup 1]) := by
  intro h
  have hserved : (((twoTenants .exactOnly "Summarize." "Summarize.").run
      ((twoTenants .exactOnly "Summarize." "Summarize.").init 10000)
      (answered 0 ++ [.lookup 1])).answers.map fun a => (a.call, a.source)) = [(0, none), (1, some 0)] := by
    decide
  have hmem : (1, some 0) ∈ ((twoTenants .exactOnly "Summarize." "Summarize.").run
      ((twoTenants .exactOnly "Summarize." "Summarize.").init 10000)
      (answered 0 ++ [.lookup 1])).answers.map fun a => (a.call, a.source) := by
    rw [hserved]
    exact mem_cons_of_mem _ mem_cons_self
  obtain ⟨a, ha, hsource⟩ := mem_map.mp hmem
  have hsame := h.sources a ha 0 (congrArg Prod.snd hsource)
  rw [show a.call = 1 from congrArg Prod.fst hsource] at hsame
  revert hsame
  decide

end Wovyr.Provider.Traffic
