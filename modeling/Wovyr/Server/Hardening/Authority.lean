import Wovyr.Lib.Run
import Wovyr.Server.Hardening
import Wovyr.Server.Tenancy.Confinement

/-!
This module contains when a replayed response goes only to requests that the handler of the route
would have let pass.
-/

namespace Wovyr.Server.Hardening

open Tenancy

theorem Method.display_inj {m n : Method} (h : m.display = n.display) : m = n := by
  revert h
  cases m <;> cases n <;> decide

theorem Method.display_visible (m : Method) : ' ' ∉ m.display.toList ∧ '\x1f' ∉ m.display.toList := by
  cases m <;> decide

theorem requestTenant_visible (r : Request) : '\x1f' ∉ (requestTenant r.headers).toList := by
  unfold requestTenant header
  cases htenant : r.headers["x-wovyr-tenant"]? with
  | none => decide
  | some tenant => exact r.header_visible _ _ htenant

theorem scopedKey_eq_some {r : Request} {key : String} (h : r.scopedKey = some key)
    : ∃ k, key = requestTenant r.headers ++ "\x1f"
        ++ (r.method.display ++ " " ++ r.path ++ "\x1f" ++ k) := by
  unfold Request.scopedKey at h
  split at h
  . obtain ⟨k, -, rfl⟩ := Option.map_eq_some_iff.mp h
    exact ⟨k, rfl⟩
  . cases h

theorem scopedKey_inj {r q : Request} {key : String} (hr : r.scopedKey = some key)
    (hq : q.scopedKey = some key)
    : requestTenant r.headers = requestTenant q.headers ∧ r.method = q.method
        ∧ r.path = q.path := by
  obtain ⟨k, hkey⟩ := scopedKey_eq_some hr
  obtain ⟨l, hkey'⟩ := scopedKey_eq_some hq
  have hroute (x : Request) : '\x1f' ∉ (x.method.display ++ " " ++ x.path).toList := by
    simp only [String.toList_append, List.mem_append, not_or]
    exact ⟨⟨x.method.display_visible.2, by decide⟩, x.path_visible⟩
  obtain ⟨htenant, hrest⟩ := Text.joined_inj (by rfl) (requestTenant_visible r)
    (requestTenant_visible q) (hkey.symm.trans hkey')
  obtain ⟨hname, -⟩ := Text.joined_inj (by rfl) (hroute r) (hroute q) hrest
  obtain ⟨hmethod, hpath⟩ := Text.joined_inj (by rfl) r.method.display_visible.1
    q.method.display_visible.1 hname
  exact ⟨htenant, Method.display_inj hmethod, hpath⟩

theorem check_congr (admins : PlatformAdmins) (tenancy : TenancyState) {r q : Headers}
    (htenant : requestTenant r = requestTenant q)
    (hprincipal : requestPrincipal r = requestPrincipal q) (n : Need)
    : n.check admins tenancy r = n.check admins tenancy q := by
  unfold Need.check tenantContext context
  rw [htenant, hprincipal]

section

variable {σ : Type} {app : App σ}

theorem authorize_eq_ok {tenancy : TenancyState} {stored : σ} {r : Request}
    : authorize app tenancy stored r = .ok ()
        ↔ ∀ n ∈ app.needs stored r, n.check app.admins tenancy r.headers = .ok () := by
  unfold authorize
  induction app.needs stored r with
  | nil => simp [pure, Except.pure]
  | cons n needs ih =>
    rw [List.forM_cons, List.forall_mem_cons, ← ih]
    cases hn : n.check app.admins tenancy r.headers with
    | ok => simp [bind, Except.bind]
    | error e => simp [bind, Except.bind]

theorem authorize_of_needs {tenancy : TenancyState} {stored : σ} {r q : Request}
    (htenant : requestTenant r.headers = requestTenant q.headers)
    (hprincipal : requestPrincipal r.headers = requestPrincipal q.headers)
    (hneeds : ∀ n ∈ app.needs stored q, n ∈ app.needs stored r)
    (h : authorize app tenancy stored r = .ok ()) : authorize app tenancy stored q = .ok () := by
  apply authorize_eq_ok.mpr
  intro n hn
  rw [← check_congr app.admins tenancy htenant hprincipal n]
  exact authorize_eq_ok.mp h n (hneeds n hn)

end

namespace AppState

variable {σ : Type} {app : App σ} {s : AppState σ}

structure Respects (s : AppState σ) : Prop where
  replayed : ∀ a ∈ s.answers, a.replayed = true → a.authorized = .ok ()
  refused : ∀ a ∈ s.answers, ∀ e, a.authorized = .error e →
    a.response = intoResponse (ApiError.ofError e)

-- The requests of stored responses and those that are running still pass.
def Keeps (app : App σ) (s : AppState σ) (tenancy : TenancyState) (stored : σ) : Prop :=
  (∀ p ∈ s.store.entries.toList, authorize app s.tenancy s.stored p.2.1.owner = .ok () →
      authorize app tenancy stored p.2.1.owner = .ok ())
    ∧ ∀ f ∈ s.inflight, authorize app s.tenancy s.stored f.request = .ok () →
      authorize app tenancy stored f.request = .ok ()

-- A key is used again only by the principal who used it first and for a request that needs no other
-- scopes, and nobody loses what a response was stored with.
def OwnKeys (app : App σ) (s : AppState σ) : Move σ → Prop
  | .arrive r => ∀ key ∈ r.scopedKey, ∀ cached ∈ s.store.get? key,
    requestPrincipal cached.owner.headers = requestPrincipal r.headers
      ∧ ∀ n ∈ app.needs s.stored r, n ∈ app.needs s.stored cached.owner
  | .setTenancy tenancy => s.Keeps app tenancy s.stored
  | .setStored stored => s.Keeps app s.tenancy stored
  | .respond _ _ | .setClock _ => True

instance (app : App σ) (s : AppState σ) (tenancy : TenancyState) (stored : σ)
    : Decidable (s.Keeps app tenancy stored) :=
  inferInstanceAs (Decidable (_ ∧ _))

instance (app : App σ) (s : AppState σ) : DecidablePred (s.OwnKeys app)
  | .arrive r => inferInstanceAs (Decidable (∀ key ∈ r.scopedKey, ∀ cached ∈ s.store.get? key,
      requestPrincipal cached.owner.headers = requestPrincipal r.headers
        ∧ ∀ n ∈ app.needs s.stored r, n ∈ app.needs s.stored cached.owner))
  | .setTenancy tenancy => inferInstanceAs (Decidable (s.Keeps app tenancy s.stored))
  | .setStored stored => inferInstanceAs (Decidable (s.Keeps app s.tenancy stored))
  | .respond _ _ | .setClock _ => inferInstanceAs (Decidable True)

def Owned (app : App σ) (tenancy : TenancyState) (stored : σ) (store : Aging IdempotencyEntry) : Prop :=
  ∀ key cached, store.get? key = some cached →
    cached.owner.scopedKey = some key ∧ authorize app tenancy stored cached.owner = .ok ()

structure Authorized (app : App σ) (s : AppState σ) : Prop where
  store : Owned app s.tenancy s.stored s.store
  inflight : ∀ f ∈ s.inflight, f.scopedKey = f.request.scopedKey
    ∧ authorize app s.tenancy s.stored f.request = .ok ()
  answers : s.Respects

theorem Authorized.push (hs : s.Authorized app) {a : Answer}
    (hreplayed : a.replayed = true → a.authorized = .ok ())
    (hrefused : ∀ e, a.authorized = .error e → a.response = intoResponse (ApiError.ofError e))
    : Authorized app { s with answers := s.answers ++ [a] } := by
  refine ⟨hs.store, hs.inflight, ?_, ?_⟩
  . apply forall_mem_snoc hs.answers.replayed
    exact hreplayed
  . apply forall_mem_snoc hs.answers.refused
    exact hrefused

theorem Authorized.enter (hs : s.Authorized app) (r : Request) : (s.enter app r).Authorized app := by
  unfold AppState.enter
  cases hauth : authorize app s.tenancy s.stored r with
  | ok u =>
    refine ⟨hs.store, ?_, ⟨hs.answers.replayed, hs.answers.refused⟩⟩
    apply forall_mem_snoc hs.inflight
    exact ⟨rfl, hauth⟩
  | error e =>
    apply hs.push
    . nofun
    . intro e' he'
      cases hauth.symm.trans he'
      rfl

theorem get?_evict {key : String} {cached : IdempotencyEntry} {now : Nat} {makeRoom : Bool}
    {store : Aging IdempotencyEntry}
    (h : (store.evict app.bounds now makeRoom).get? key = some cached) : store.get? key = some cached := by
  unfold Aging.get? at h ⊢
  obtain ⟨e, he, rfl⟩ := Option.map_eq_some_iff.mp h
  rw [Aging.evictFrom_le he, Option.map_some]

theorem Authorized.arrive (hs : s.Authorized app) {r : Request} (hown : s.OwnKeys app (.arrive r))
    : (s.arrive app r).Authorized app := by
  unfold AppState.arrive
  cases hscoped : r.scopedKey with
  | none => exact hs.enter r
  | some key =>
    have hevicted : Authorized app { s with store := s.store.evict app.bounds s.clock false } := by
      refine ⟨?_, hs.inflight, ⟨hs.answers.replayed, hs.answers.refused⟩⟩
      intro key' cached hget
      exact hs.store key' cached (get?_evict hget)
    dsimp only
    cases hget : (s.store.evict app.bounds s.clock false).get? key with
    | none => exact hevicted.enter r
    | some cached =>
      have hbefore := get?_evict hget
      obtain ⟨hkey, hauth⟩ := hs.store key cached hbefore
      obtain ⟨htenant, -⟩ := scopedKey_inj hkey hscoped
      obtain ⟨hprincipal, hneeds⟩ := hown key hscoped cached hbefore
      have hsame : authorize app s.tenancy s.stored r = .ok () :=
        authorize_of_needs htenant hprincipal hneeds hauth
      apply hevicted.push
      . intro _
        exact hsame
      . intro e he
        cases hsame.symm.trans he

theorem Authorized.remember (hs : s.Authorized app) {f : InFlight} (hscoped : f.scopedKey = f.request.scopedKey)
    (hauth : authorize app s.tenancy s.stored f.request = .ok ()) (response : Response)
    : (s.remember app f response).Authorized app := by
  unfold AppState.remember
  split
  . next key value hkey _ =>
    refine ⟨?_, hs.inflight, ⟨hs.answers.replayed, hs.answers.refused⟩⟩
    intro key' cached hget
    rcases Aging.get?_put_eq_some hget with ⟨rfl, rfl⟩ | hbefore
    . exact ⟨hscoped.symm.trans hkey, hauth⟩
    . exact hs.store key' cached hbefore
  . exact hs

theorem Authorized.respond (hs : s.Authorized app) (i : Nat) (response : Response)
    : (s.respond app i response).Authorized app := by
  unfold AppState.respond
  cases hget : s.inflight[i]? with
  | none => exact hs
  | some f =>
    obtain ⟨hscoped, hauth⟩ := hs.inflight f (List.mem_of_getElem? hget)
    have herased : Authorized app { s with inflight := s.inflight.eraseIdx i } :=
      ⟨hs.store, fun g hg => hs.inflight g (List.mem_of_mem_eraseIdx hg),
        ⟨hs.answers.replayed, hs.answers.refused⟩⟩
    dsimp only
    split
    . have hsucceeded : Authorized app
          { s with
            inflight := s.inflight.eraseIdx i
            successes := s.successes ++ [⟨f.request, response, s.clock⟩] } :=
        ⟨herased.store, herased.inflight, ⟨hs.answers.replayed, hs.answers.refused⟩⟩
      exact (hsucceeded.remember hscoped hauth response).push nofun nofun
    . exact herased.push nofun nofun

theorem Authorized.set (hs : s.Authorized app) {tenancy : TenancyState} {stored : σ}
    (h : s.Keeps app tenancy stored) : Authorized app { s with tenancy, stored } := by
  refine ⟨?_, ?_, ⟨hs.answers.replayed, hs.answers.refused⟩⟩
  . intro key cached hget
    obtain ⟨hkey, hauth⟩ := hs.store key cached hget
    obtain ⟨entry, hentry, rfl⟩ := Option.map_eq_some_iff.mp hget
    exact ⟨hkey, h.1 _ (Std.ExtTreeMap.mem_toList_iff_getElem?_eq_some.mpr hentry) hauth⟩
  . intro f hf
    obtain ⟨hscoped, hauth⟩ := hs.inflight f hf
    exact ⟨hscoped, h.2 f hf hauth⟩

/--
In every history of requests and of changes to the catalog and the other stores: a response is replayed only
to a request that its handler would have let pass when it arrived, and a request that the handler refuses gets
that refusal, whatever others have done before, if a key that is stored is sent again only by the
principal who got the response, for a request that needs no other scopes, and no change takes a scope
from a principal, or asks one more of it, while a response it obtained is stored or its request is running.
-/
theorem respects_of_run (app : App σ) (tenancy : TenancyState) (stored : σ) (clock : Nat) (moves : List (Move σ))
    (s : AppState σ) (hrun : Run (Guarded (OwnKeys app) (move app)) { tenancy, stored, clock } moves s)
    : s.Respects := by
  have hauthorized : s.Authorized app := by
    apply Run.invariant _ hrun
    . refine ⟨?_, fun _ h => absurd h List.not_mem_nil,
        fun _ h => absurd h List.not_mem_nil, fun _ h => absurd h List.not_mem_nil⟩
      intro key cached hget
      simp [Aging.get?] at hget
    . rintro s m _ hs ⟨hown, rfl⟩
      cases m with
      | arrive r => exact hs.arrive hown
      | respond i response => exact hs.respond i response
      | setClock clock => exact ⟨hs.store, hs.inflight, ⟨hs.answers.replayed, hs.answers.refused⟩⟩
      | setTenancy tenancy | setStored stored => exact hs.set hown
  exact hauthorized.answers

def ownRetries : List (Move (List (String × String))) :=
  [.arrive malloryPost, .respond 0 created, .arrive connectLocal, .respond 0 created,
    .setStored [("acme", "local")], .arrive malloryPost, .arrive connectLocal]

theorem respects_own_retries
    : (afterMoves twoTenants.state ownRetries).answers.map (·.replayed) = [false, false, true, true]
        ∧ (afterMoves twoTenants.state ownRetries).Respects := by
  refine ⟨by decide, ?_⟩
  apply respects_of_run agentsApp twoTenants.state [] 0 ownRetries
  apply Run.of_take
  decide

def strangerReplay : AppState (List (String × String)) :=
  afterMoves twoTenants.state [.arrive malloryPost, .respond 0 created, .arrive evePost]

theorem not_respects_stranger : ¬strangerReplay.Respects := by
  intro h
  have hstranger : (strangerReplay.answers.any fun a =>
      a.replayed && (a.authorized matches .error _)) = true := by
    decide
  obtain ⟨a, ha, hview⟩ := List.any_eq_true.mp hstranger
  rw [Bool.and_eq_true] at hview
  rw [h.replayed a ha hview.1] at hview
  cases hview.2

end Wovyr.Server.Hardening.AppState
