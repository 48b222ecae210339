import Wovyr.Lib.Run
import Wovyr.Server.Hardening
import Wovyr.Server.Tenancy.Confinement

/-!
This module contains what an idempotency key promises: a handler succeeds at most once for it, and the
requests that come after that get what it answered.
-/

namespace Wovyr.Server.Hardening

open List

def SameUse (r q : Request) : Prop :=
  r.method = q.method ∧ r.path = q.path
    ∧ Tenancy.requestTenant r.headers = Tenancy.requestTenant q.headers
    ∧ ∃ key, idempotencyKey r.headers = some key ∧ idempotencyKey q.headers = some key

inductive Replayable : Body → Prop where
  | empty : Replayable .empty
  | json {value : Value} (h : value ≠ .null) : Replayable (.json value)

theorem scopedKey_eq_of_sameUse {r q : Request} (h : SameUse r q) : r.scopedKey = q.scopedKey := by
  obtain ⟨hmethod, hpath, htenant, key, hr, hq⟩ := h
  unfold Request.scopedKey
  rw [hmethod, hpath, htenant, hr, hq]

theorem replayCached_cachedJson {response : Response} (hsuccess : response.isSuccess = true)
    {value : Value} (hvalue : AppState.cacheable response.body = some value)
    (hreplayable : Replayable response.body)
    : replayCached (cachedJson response.status value) = response := by
  obtain ⟨status, body⟩ := response
  unfold Response.isSuccess at hsuccess
  rw [Bool.and_eq_true, decide_eq_true_eq, decide_eq_true_eq] at hsuccess
  dsimp only at hsuccess hvalue hreplayable ⊢
  have hstatus : ((Workflow.field? "status" (cachedJson status value)).bind Workflow.asU64).filter
      (fun s => 100 ≤ s && s < 1000) = some status := by
    have hfield : Workflow.field? "status" (cachedJson status value) = some (.int status) := by
      simp [Workflow.field?, cachedJson]
    rw [hfield, Option.bind_some]
    simp only [Workflow.asU64, Option.filter_some]
    rw [if_pos]
    simp only [Bool.and_eq_true, decide_eq_true_eq]
    omega
  have hbody : Workflow.field? "body" (cachedJson status value) = some value := by
    simp [Workflow.field?, cachedJson]
  unfold replayCached
  rw [hstatus, hbody]
  cases hreplayable with
  | empty =>
    cases hvalue
    rfl
  | json hne =>
    cases hvalue
    cases value with
    | null => exact absurd rfl hne
    | bool | int | float | string | array | object => rfl

namespace AppState

variable {σ : Type} {app : App σ} {s : AppState σ}

structure AtMostOnce (bounds : Aging.Bounds) (s : AppState σ) : Prop where
  once : s.successes.Pairwise fun a b => SameUse a.request b.request → bounds.ttl < b.time - a.time
  same : ∀ a ∈ s.answers, ∀ success ∈ s.successes.take a.seen, SameUse a.request success.request →
    a.arrivedAt - success.time ≤ bounds.ttl → a.response = success.response

-- Requests with one key come one after the other, to routes whose responses can be replayed.
def InTurn (app : App σ) (s : AppState σ) : Move σ → Prop
  | .arrive r => (idempotencyKey r.headers).isSome = true →
    isReplayEligible r.method r.path = true ∧ ∀ f ∈ s.inflight, f.scopedKey ≠ r.scopedKey
  | .respond i response => ∀ f, s.inflight[i]? = some f → f.scopedKey.isSome = true →
    response.isSuccess = true →
      Replayable response.body ∧ s.store.entries.size < app.bounds.maxEntries
  | .setClock clock => s.clock ≤ clock
  | .setTenancy _ | .setStored _ => True

def Stored (bounds : Aging.Bounds) (clock : Nat) (store : Aging IdempotencyEntry)
    (successes : List Success) : Prop :=
  ∀ success ∈ successes, ∀ key, success.request.scopedKey = some key →
    clock - success.time ≤ bounds.ttl → ∃ cached, store.entries[key]? = some (cached, success.time)
      ∧ replayCached cached.body = success.response

structure Sound (bounds : Aging.Bounds) (s : AppState σ) : Prop where
  times : ∀ success ∈ s.successes, success.time ≤ s.clock
  keyed : ∀ success ∈ s.successes, (idempotencyKey success.request.headers).isSome = true →
    success.request.scopedKey.isSome = true
  stored : Stored bounds s.clock s.store s.successes
  flights : ∀ f ∈ s.inflight, f.scopedKey = f.request.scopedKey ∧ f.arrivedAt ≤ s.clock
    ∧ f.seen ≤ s.successes.length
    ∧ ((idempotencyKey f.request.headers).isSome = true → f.scopedKey.isSome = true)
  fresh : ∀ f ∈ s.inflight, ∀ key, f.scopedKey = some key → ∀ success ∈ s.successes,
    success.request.scopedKey = some key → bounds.ttl < f.arrivedAt - success.time
  distinct : (s.inflight.filterMap (·.scopedKey)).Nodup
  seen : ∀ a ∈ s.answers, a.seen ≤ s.successes.length
  holds : s.AtMostOnce bounds

theorem sound_init (bounds : Aging.Bounds) (tenancy : TenancyState) (stored : σ) (clock : Nat)
    (store : Aging IdempotencyEntry) : Sound bounds { tenancy, stored, clock, store } where
  times _ h := absurd h not_mem_nil
  keyed _ h := absurd h not_mem_nil
  stored _ h := absurd h not_mem_nil
  flights _ h := absurd h not_mem_nil
  fresh _ h := absurd h not_mem_nil
  distinct := nodup_nil
  seen _ h := absurd h not_mem_nil
  holds := ⟨List.Pairwise.nil, fun _ h => absurd h not_mem_nil⟩

theorem scopedKey_isSome {r : Request} (hkey : (idempotencyKey r.headers).isSome = true)
    (heligible : isReplayEligible r.method r.path = true) : r.scopedKey.isSome = true := by
  unfold Request.scopedKey
  rw [if_pos heligible, Option.isSome_map]
  exact hkey

theorem SameUse.keyed {r q : Request} (h : SameUse r q) : (idempotencyKey q.headers).isSome = true := by
  obtain ⟨-, -, -, key, -, hq⟩ := h
  rw [hq]
  rfl

theorem Sound.push (hs : s.Sound app.bounds) {a : Answer} (hseen : a.seen ≤ s.successes.length)
    (hsame : ∀ success ∈ s.successes.take a.seen, SameUse a.request success.request →
      a.arrivedAt - success.time ≤ app.bounds.ttl → a.response = success.response)
    : Sound app.bounds { s with answers := s.answers ++ [a] } := by
  refine { hs with seen := ?_, holds := ⟨hs.holds.once, ?_⟩ }
  . apply forall_mem_snoc hs.seen
    exact hseen
  . apply forall_mem_snoc hs.holds.same
    exact hsame

theorem Sound.evict (hs : s.Sound app.bounds)
    : Sound app.bounds { s with store := s.store.evict app.bounds s.clock false } := by
  refine { hs with stored := ?_, holds := ⟨hs.holds.once, hs.holds.same⟩ }
  intro success hsuccess key hkey hfresh
  obtain ⟨cached, hentry, hreplay⟩ := hs.stored success hsuccess key hkey hfresh
  exact ⟨cached, Aging.evictFrom_keeps hentry hfresh nofun, hreplay⟩

theorem Sound.missed (hs : s.Sound app.bounds) {key : String} (hmiss : s.store.get? key = none)
    {success : Success} (hsuccess : success ∈ s.successes) (hkey : success.request.scopedKey = some key)
    : app.bounds.ttl < s.clock - success.time := by
  apply Nat.lt_of_not_le
  intro hfresh
  obtain ⟨cached, hentry, -⟩ := hs.stored success hsuccess key hkey hfresh
  unfold Aging.get? at hmiss
  rw [hentry] at hmiss
  cases hmiss

theorem Sound.enter (hs : s.Sound app.bounds) {r : Request}
    (hkeyed : (idempotencyKey r.headers).isSome = true → r.scopedKey.isSome = true)
    (hfresh : ∀ key, r.scopedKey = some key → ∀ success ∈ s.successes,
      success.request.scopedKey = some key → app.bounds.ttl < s.clock - success.time)
    (hapart : r.scopedKey.isSome = true → ∀ f ∈ s.inflight, f.scopedKey ≠ r.scopedKey)
    : (s.enter app r).Sound app.bounds := by
  unfold AppState.enter
  split
  . refine { hs with
      flights := ?_, fresh := ?_, distinct := ?_, holds := ⟨hs.holds.once, hs.holds.same⟩ }
    . apply forall_mem_snoc hs.flights
      exact ⟨rfl, Nat.le_refl _, Nat.le_refl _, hkeyed⟩
    . apply forall_mem_snoc hs.fresh
      exact hfresh
    . rw [filterMap_append, nodup_append]
      refine ⟨hs.distinct, ?_, ?_⟩
      . cases r.scopedKey <;> simp
      . intro key hmem key' hmem'
        obtain ⟨f, hf, hfkey⟩ := mem_filterMap.mp hmem
        obtain ⟨g, hg, hgkey⟩ := mem_filterMap.mp hmem'
        cases mem_singleton.mp hg
        have hgkey : r.scopedKey = some key' := hgkey
        rintro rfl
        exact hapart (by rw [hgkey]; rfl) f hf (hfkey.trans hgkey.symm)
  . apply hs.push (Nat.le_refl _)
    intro success hsuccess hsame hle
    have hsuccess := mem_of_mem_take hsuccess
    have hsome := hs.keyed success hsuccess (SameUse.keyed hsame)
    obtain ⟨key, hkey⟩ := Option.isSome_iff_exists.mp hsome
    have hlt := hfresh key ((scopedKey_eq_of_sameUse hsame).trans hkey) success hsuccess hkey
    exact absurd hle (Nat.not_le.mpr hlt)

theorem Sound.arrive (hs : s.Sound app.bounds) {r : Request} (hturn : s.InTurn app (.arrive r))
    : (s.arrive app r).Sound app.bounds := by
  have hkeyed (hkey : (idempotencyKey r.headers).isSome = true) : r.scopedKey.isSome = true :=
    scopedKey_isSome hkey (hturn hkey).1
  unfold AppState.arrive
  cases hscoped : r.scopedKey with
  | none =>
    apply hs.enter hkeyed
    . intro key hkey
      rw [hscoped] at hkey
      cases hkey
    . intro hsome
      rw [hscoped] at hsome
      cases hsome
  | some key =>
    have hsomekey : (idempotencyKey r.headers).isSome = true := by
      unfold Request.scopedKey at hscoped
      split at hscoped
      . obtain ⟨k, hk, -⟩ := Option.map_eq_some_iff.mp hscoped
        rw [hk]
        rfl
      . cases hscoped
    have hevicted := hs.evict
    dsimp only
    cases hget : (s.store.evict app.bounds s.clock false).get? key with
    | none =>
      apply hevicted.enter hkeyed
      . intro key' hkey' success hsuccess hskey
        rw [hscoped] at hkey'
        cases hkey'
        exact hevicted.missed hget hsuccess hskey
      . intro _
        exact (hturn hsomekey).2
    | some cached =>
      apply hevicted.push (Nat.le_refl _)
      intro success hsuccess hsame hle
      have hsuccess := mem_of_mem_take hsuccess
      have hskey : success.request.scopedKey = some key :=
        (scopedKey_eq_of_sameUse hsame).symm.trans hscoped
      obtain ⟨cached', hentry, hreplay⟩ := hevicted.stored success hsuccess key hskey hle
      have hcached : cached' = cached := by
        unfold Aging.get? at hget
        have hentry' : (s.store.evict app.bounds s.clock false).entries[key]?
          = some (cached', success.time) := hentry
        rw [hentry'] at hget
        exact Option.some.inj hget
      rw [← hreplay, hcached]

theorem Sound.erase (hs : s.Sound app.bounds) (i : Nat)
    : Sound app.bounds { s with inflight := s.inflight.eraseIdx i } := by
  have hmem {f : InFlight} (hf : f ∈ s.inflight.eraseIdx i) : f ∈ s.inflight :=
    mem_of_mem_eraseIdx hf
  refine { hs with
    flights := fun f hf => hs.flights f (hmem hf)
    fresh := fun f hf => hs.fresh f (hmem hf)
    distinct := ?_
    holds := ⟨hs.holds.once, hs.holds.same⟩ }
  exact hs.distinct.sublist ((eraseIdx_sublist _ _).filterMap _)

structure Lone (bounds : Aging.Bounds) (s : AppState σ) (f : InFlight) : Prop where
  key_eq : f.scopedKey = f.request.scopedKey
  arrived : f.arrivedAt ≤ s.clock
  seen : f.seen ≤ s.successes.length
  keyed : (idempotencyKey f.request.headers).isSome = true → f.scopedKey.isSome = true
  fresh : ∀ key, f.scopedKey = some key → ∀ success ∈ s.successes,
    success.request.scopedKey = some key → bounds.ttl < f.arrivedAt - success.time
  others : ∀ g ∈ s.inflight, ∀ key, f.scopedKey = some key → g.scopedKey ≠ some key

theorem Sound.lone (hs : s.Sound app.bounds) {i : Nat} {f : InFlight} (hf : s.inflight[i]? = some f)
    : Lone app.bounds { s with inflight := s.inflight.eraseIdx i } f := by
  have hmem := mem_of_getElem? hf
  obtain ⟨hscoped, harrived, hseen, hkeyed⟩ := hs.flights f hmem
  refine ⟨hscoped, harrived, hseen, hkeyed, hs.fresh f hmem, ?_⟩
  intro g hg key hkey hgkey
  obtain ⟨hlt, rfl⟩ := List.getElem?_eq_some_iff.mp hf
  have hnodup := hs.distinct
  have hperm := (getElem_cons_eraseIdx_perm hlt).filterMap (·.scopedKey)
  rw [← hperm.nodup_iff, filterMap_cons, hkey] at hnodup
  exact (nodup_cons.mp hnodup).1 (mem_filterMap.mpr ⟨g, hg, hgkey⟩)

theorem Lone.expired {f : InFlight} (hf : Lone app.bounds s f) {success : Success}
    (hsuccess : success ∈ s.successes) {key : String} (hkey : f.scopedKey = some key)
    (hskey : success.request.scopedKey = some key) : app.bounds.ttl < s.clock - success.time := by
  have hlt := hf.fresh key hkey success hsuccess hskey
  have hle := hf.arrived
  omega

theorem Lone.keyed_of_sameUse {f : InFlight} (hf : Lone app.bounds s f) {r : Request}
    (hsame : SameUse r f.request) : ∃ key, f.scopedKey = some key ∧ r.scopedKey = some key := by
  obtain ⟨key, hkey⟩ := Option.isSome_iff_exists.mp (hf.keyed (SameUse.keyed hsame))
  exact ⟨key, hkey, (scopedKey_eq_of_sameUse hsame).trans (hf.key_eq.symm.trans hkey)⟩

theorem Sound.succeed (hs : s.Sound app.bounds) {f : InFlight} (hf : Lone app.bounds s f)
    (success : Success) (hrequest : success.request = f.request) (htime : success.time = s.clock)
    {store : Aging IdempotencyEntry}
    (hstored : Stored app.bounds s.clock store (s.successes ++ [success]))
    : Sound app.bounds { s with successes := s.successes ++ [success], store } := by
  have hlength (n : Nat) (hn : n ≤ s.successes.length) : n ≤ (s.successes ++ [success]).length := by
    rw [length_append]
    exact Nat.le_add_right_of_le hn
  refine ⟨?_, ?_, hstored, ?_, ?_, hs.distinct, fun a ha => hlength _ (hs.seen a ha), ?_, ?_⟩
  . apply forall_mem_snoc hs.times
    exact Nat.le_of_eq htime
  . apply forall_mem_snoc hs.keyed
    rw [hrequest, ← hf.key_eq]
    exact hf.keyed
  . intro g hg
    obtain ⟨hscoped, harrived, hseen, hkeyed⟩ := hs.flights g hg
    exact ⟨hscoped, harrived, hlength _ hseen, hkeyed⟩
  . intro g hg key hkey other hother hskey
    rcases mem_append.mp hother with hold | hnew
    . exact hs.fresh g hg key hkey other hold hskey
    . cases mem_singleton.mp hnew
      rw [hrequest, ← hf.key_eq] at hskey
      exact absurd hkey (hf.others g hg key hskey)
  . rw [pairwise_append]
    refine ⟨hs.holds.once, pairwise_singleton _ _, ?_⟩
    intro a ha b hb hsame
    cases mem_singleton.mp hb
    rw [hrequest] at hsame
    obtain ⟨key, hkey, hakey⟩ := hf.keyed_of_sameUse hsame
    rw [htime]
    exact hf.expired ha hkey hakey
  . intro a ha other hother
    rw [take_append_of_le_length (hs.seen a ha)] at hother
    exact hs.holds.same a ha other hother

theorem Sound.remember (hs : s.Sound app.bounds) {f : InFlight} (hf : Lone app.bounds s f)
    {response : Response} (hsuccess : response.isSuccess = true)
    (hreplayable : f.scopedKey.isSome = true →
      Replayable response.body ∧ s.store.entries.size < app.bounds.maxEntries)
    : Sound app.bounds (AppState.remember app
        { s with successes := s.successes ++ [⟨f.request, response, s.clock⟩] } f response) := by
  unfold AppState.remember
  cases hkey : f.scopedKey with
  | none =>
    apply hs.succeed hf _ rfl rfl
    intro other hother key hskey hle
    rcases mem_append.mp hother with hold | hnew
    . exact hs.stored other hold key hskey hle
    . cases mem_singleton.mp hnew
      cases (hf.key_eq.symm.trans hkey).symm.trans hskey
  | some key =>
    obtain ⟨hbody, hroom⟩ := hreplayable (by rw [hkey]; rfl)
    obtain ⟨value, hvalue⟩ : ∃ value, cacheable response.body = some value := by
      generalize response.body = body at hbody
      cases hbody with
      | empty => exact ⟨_, rfl⟩
      | json _ => exact ⟨_, rfl⟩
    rw [hvalue]
    apply hs.succeed hf _ rfl rfl
    intro other hother key' hskey hle
    rcases mem_append.mp hother with hold | hnew
    . have hne : key ≠ key' := by
        rintro rfl
        exact absurd hle (Nat.not_le.mpr (hf.expired hold hkey hskey))
      obtain ⟨cached, hentry, hreplay⟩ := hs.stored other hold key' hskey hle
      exact ⟨cached, Aging.getElem?_put_of_ne hne hentry hle hroom, hreplay⟩
    . cases mem_singleton.mp hnew
      cases (hf.key_eq.symm.trans hkey).symm.trans hskey
      refine ⟨_, Std.ExtTreeMap.getElem?_insert_self, ?_⟩
      exact replayCached_cachedJson hsuccess hvalue hbody

theorem Sound.complete (hs : s.Sound app.bounds) {f : InFlight} (hseen : f.seen ≤ s.successes.length)
    (hfresh : ∀ success ∈ s.successes.take f.seen, SameUse f.request success.request →
      app.bounds.ttl < f.arrivedAt - success.time) (response : Response)
    : (s.complete f response).Sound app.bounds := by
  apply hs.push hseen
  intro success hsuccess hsame hle
  exact absurd hle (Nat.not_le.mpr (hfresh success hsuccess hsame))

theorem Lone.fresh_of_sameUse (hs : s.Sound app.bounds) {f : InFlight} (hf : Lone app.bounds s f)
    {success : Success} (hsuccess : success ∈ s.successes) (hsame : SameUse f.request success.request)
    : app.bounds.ttl < f.arrivedAt - success.time := by
  obtain ⟨key, hkey⟩ := Option.isSome_iff_exists.mp (hs.keyed success hsuccess (SameUse.keyed hsame))
  have hfkey : f.scopedKey = some key :=
    hf.key_eq.trans ((scopedKey_eq_of_sameUse hsame).trans hkey)
  exact hf.fresh key hfkey success hsuccess hkey

theorem remember_successes (s : AppState σ) (f : InFlight) (response : Response)
    : (s.remember app f response).successes = s.successes := by
  unfold AppState.remember
  split <;> rfl

theorem Sound.respond (hs : s.Sound app.bounds) {i : Nat} {response : Response}
    (hturn : s.InTurn app (.respond i response)) : (s.respond app i response).Sound app.bounds := by
  unfold AppState.respond
  cases hget : s.inflight[i]? with
  | none => exact hs
  | some f =>
    have hlone := hs.lone hget
    have herased := hs.erase i
    dsimp only
    split
    . next hsuccess =>
      have hremembered := herased.remember hlone hsuccess
        (fun hsome => hturn f hget hsome hsuccess)
      apply hremembered.complete
      . rw [remember_successes]
        dsimp only
        rw [length_append]
        exact Nat.le_add_right_of_le hlone.seen
      . intro success hmem hsame
        rw [remember_successes] at hmem
        dsimp only at hmem
        rw [take_append_of_le_length hlone.seen] at hmem
        exact hlone.fresh_of_sameUse herased (mem_of_mem_take hmem) hsame
    . apply herased.complete hlone.seen
      intro success hmem hsame
      exact hlone.fresh_of_sameUse herased (mem_of_mem_take hmem) hsame

theorem Sound.setClock (hs : s.Sound app.bounds) {clock : Nat} (hle : s.clock ≤ clock)
    : Sound app.bounds { s with clock } := by
  refine { hs with
    times := fun success hsuccess => Nat.le_trans (hs.times success hsuccess) hle
    stored := ?_
    flights := ?_
    holds := ⟨hs.holds.once, hs.holds.same⟩ }
  . intro success hsuccess key hkey hfresh
    exact hs.stored success hsuccess key hkey (Nat.le_trans (Nat.sub_le_sub_right hle _) hfresh)
  . intro f hf
    obtain ⟨hscoped, harrived, hseen, hkeyed⟩ := hs.flights f hf
    exact ⟨hscoped, Nat.le_trans harrived hle, hseen, hkeyed⟩

def inAcme (moves : List (Move (List (String × String)))) : AppState (List (String × String)) :=
  afterMoves Tenancy.twoTenants.state moves

def overlapping : AppState (List (String × String)) :=
  inAcme [.arrive malloryPost, .arrive malloryPost, .respond 0 created, .respond 0 created]

end Wovyr.Server.Hardening.AppState
