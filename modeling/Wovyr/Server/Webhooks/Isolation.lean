import Wovyr.Lib.Run
import Wovyr.Server.Tenancy.Confinement
import Wovyr.Server.Webhooks

/-!
This module contains when the subscriptions of one tenant are out of reach for the others, and what
two registrations with one id have in common.
-/

namespace Wovyr.Server.Webhooks

open Tenancy

structure Registry where
  tenancy : TenancyState
  webhooks : WebhookState := {}
  -- All that was ever registered.
  registered : List WebhookSubscription := []

namespace Registry

inductive Move where
  | register (headers : Headers) (req : RegisterWebhookRequest)
  | delete (headers : Headers) (id : String)
  | setTenancy (tenancy : TenancyState)

def move (digest : List UInt8 → List UInt8) (admins : PlatformAdmins) (s : Registry)
    : Move → Registry
  | .register headers req =>
    match registerWebhook digest admins s.tenancy s.webhooks headers req with
    | .ok (sub, webhooks) => { s with webhooks, registered := s.registered ++ [sub] }
    | .error _ => s
  | .delete headers id =>
    match deleteWebhook admins s.tenancy s.webhooks headers id with
    | .ok webhooks => { s with webhooks }
    | .error _ => s
  | .setTenancy tenancy => { s with tenancy }

variable {digest : List UInt8 → List UInt8} {admins : PlatformAdmins} {s : Registry}

def headersOf : Move → Option Headers
  | .register headers _ => some headers
  | .delete headers _ => some headers
  | .setTenancy _ => none

def mayManage (admins : PlatformAdmins) (s : Registry) (headers : Headers) : Bool :=
  (context admins s.tenancy headers none).can "org.admin"

-- Only a request that is authorized in the tenant of a subscription changes it.
def Isolates (digest : List UInt8 → List UInt8) (admins : PlatformAdmins) (s : Registry) (m : Move)
    : Prop :=
  ∀ headers, headersOf m = some headers → ∀ id sub, s.webhooks.get id = some sub →
    (s.move digest admins m).webhooks.get id = some sub
      ∨ (s.mayManage admins headers = true ∧ sub.tenant = requestTenant headers)

def DistinctIds (s : Registry) : Prop :=
  ∀ x ∈ s.registered, ∀ y ∈ s.registered,
    x.id = y.id ↔ x.tenant = y.tenant ∧ x.url = y.url ∧ x.events.Perm y.events

def Separate (admins : PlatformAdmins) (s : Registry) : Move → Prop
  | .register headers req =>
    s.mayManage admins headers = true → Plain (requestTenant headers) req.url req.events
  | .delete headers id =>
    s.mayManage admins headers = true → ∀ sub, s.webhooks.get id = some sub →
      sub.tenant = requestTenant headers
  | .setTenancy _ => True

structure Sound (digest : List UInt8 → List UInt8) (s : Registry) : Prop where
  stored : ∀ id sub, s.webhooks.get id = some sub → sub.id = id ∧ sub ∈ s.registered
  derived : ∀ sub ∈ s.registered, sub.id = deriveId digest sub.tenant sub.url sub.events
    ∧ Plain sub.tenant sub.url sub.events

theorem registerWebhook_eq_ok {webhooks webhooks' : WebhookState} {headers : Headers}
    {req : RegisterWebhookRequest} {sub : WebhookSubscription}
    (h : registerWebhook digest admins s.tenancy webhooks headers req = .ok (sub, webhooks'))
    : s.mayManage admins headers = true
        ∧ sub = WebhookSubscription.new digest (requestTenant headers) req.url req.events req.secret
        ∧ webhooks' = webhooks.register sub := by
  unfold registerWebhook at h
  simp only [bind_eq_ok, liftM_eq_ok, TenantContext.authorize_eq_ok] at h
  obtain ⟨_, hcan, hret⟩ := h
  cases hret
  exact ⟨hcan, rfl, rfl⟩

theorem deleteWebhook_eq_ok {webhooks webhooks' : WebhookState} {headers : Headers} {id : String}
    (h : deleteWebhook admins s.tenancy webhooks headers id = .ok webhooks')
    : s.mayManage admins headers = true
        ∧ webhooks' = { webhooks with subscriptions := webhooks.subscriptions.erase id } := by
  unfold deleteWebhook at h
  simp only [bind_eq_ok, liftM_eq_ok, TenantContext.authorize_eq_ok] at h
  obtain ⟨_, hcan, hdelete⟩ := h
  unfold WebhookState.delete at hdelete
  split at hdelete
  . cases hdelete
  . cases hdelete
    exact ⟨hcan, rfl⟩

theorem Sound.move (hs : s.Sound digest) {m : Move} (hseparate : s.Separate admins m)
    : (s.move digest admins m).Sound digest := by
  cases m with
  | register headers req =>
    unfold Registry.move
    dsimp only
    split
    . next sub webhooks hok =>
      obtain ⟨hcan, hsub, rfl⟩ := registerWebhook_eq_ok hok
      constructor
      . intro id other hget
        unfold WebhookState.get WebhookState.register at hget
        dsimp only at hget
        rcases Map.of_insert hget with ⟨heq, rfl⟩ | hget
        . exact ⟨heq, List.mem_append_right _ (List.mem_singleton.mpr rfl)⟩
        . obtain ⟨hid, hmem⟩ := hs.stored id other hget
          exact ⟨hid, List.mem_append_left _ hmem⟩
      . apply forall_mem_snoc hs.derived
        rw [hsub]
        exact ⟨rfl, hseparate hcan⟩
    . exact hs
  | delete headers id =>
    unfold Registry.move
    dsimp only
    split
    . next webhooks hok =>
      obtain ⟨-, rfl⟩ := deleteWebhook_eq_ok hok
      refine ⟨?_, hs.derived⟩
      intro id' other hget
      unfold WebhookState.get at hget
      dsimp only at hget
      exact hs.stored id' other (Map.of_erase hget)
    . exact hs
  | setTenancy tenancy => exact ⟨hs.stored, hs.derived⟩

theorem Sound.distinctIds (hs : s.Sound digest) (hdigest : Function.Injective digest) : s.DistinctIds := by
  intro x hx y hy
  obtain ⟨hxid, hxplain⟩ := hs.derived x hx
  obtain ⟨hyid, hyplain⟩ := hs.derived y hy
  rw [hxid, hyid]
  exact deriveId_eq_iff_of_plain hdigest hxplain hyplain

theorem Sound.isolates (hs : s.Sound digest) (hdigest : Function.Injective digest) {m : Move}
    (hseparate : s.Separate admins m) : s.Isolates digest admins m := by
  intro headers hheaders id sub hget
  cases m with
  | register h req =>
    cases hheaders
    unfold Registry.move
    dsimp only
    split
    . next new webhooks hok =>
      obtain ⟨hcan, hnew, rfl⟩ := registerWebhook_eq_ok hok
      unfold WebhookState.get WebhookState.register
      dsimp only
      rw [Map.getElem?_insert]
      split
      . next heq =>
        right
        obtain ⟨hid, hmem⟩ := hs.stored id sub hget
        obtain ⟨hderived, hplain⟩ := hs.derived sub hmem
        have hids : deriveId digest sub.tenant sub.url sub.events
            = deriveId digest (requestTenant headers) req.url req.events := by
          rw [← hderived, hid, ← heq, hnew]
          rfl
        exact ⟨hcan, ((deriveId_eq_iff_of_plain hdigest hplain (hseparate hcan)).mp hids).1⟩
      . exact Or.inl hget
    . exact Or.inl hget
  | delete h id' =>
    cases hheaders
    unfold Registry.move
    dsimp only
    split
    . next webhooks hok =>
      obtain ⟨hcan, rfl⟩ := deleteWebhook_eq_ok hok
      unfold WebhookState.get
      dsimp only
      rw [Map.getElem?_erase]
      split
      . next heq =>
        right
        subst heq
        exact ⟨hcan, hseparate hcan sub hget⟩
      . exact Or.inl hget
    . exact Or.inl hget
  | setTenancy tenancy => cases hheaders

/--
In every sequence of registrations and deletions, with the truncated hash taken as injective: only a
request that is authorized in the tenant of a subscription removes or replaces it, and two registrations
get one id exactly if they agree in the tenant, the url and the topics up to order. That is, if a
request deletes only subscriptions of the tenant of its headers, and registers nothing with a `|` in the
tenant or the url, with a comma in a topic or with an empty topic.
-/
theorem isolated_webhooks_of_run (digest : List UInt8 → List UInt8) (hdigest : Function.Injective digest)
    (admins : PlatformAdmins) (tenancy : TenancyState) (moves : List Move) (s : Registry)
    (hrun : Run (Guarded (Separate admins) (move digest admins)) { tenancy } moves s)
    : s.DistinctIds ∧ ∀ m, s.Separate admins m → s.Isolates digest admins m := by
  have hsound : s.Sound digest := by
    apply Run.invariant _ hrun
    . constructor
      . intro id sub hget
        simp [WebhookState.get] at hget
      . intro sub hsub
        cases hsub
    . rintro s m _ hs ⟨hseparate, rfl⟩
      exact hs.move hseparate
  exact ⟨hsound.distinctIds hdigest, fun m hm => hsound.isolates hdigest hm⟩

def rootHeaders : Headers :=
  ((∅ : Headers).insert "x-wovyr-tenant" "globex").insert "x-wovyr-principal" "root"

def hook (events : List String) : RegisterWebhookRequest := ⟨"https://h", events, "s3cret"⟩

def fromTwoTenants (moves : List Move) : Registry :=
  moves.foldl (move id (some "root")) { tenancy := twoTenants.state }

def runHook : String :=
  deriveId id "acme" "https://h" ["r", "s"]

-- One tenant registers a hook twice and deletes it, another one keeps the same hook of its own.
def managed : List Move :=
  [.register malloryHeaders (hook ["r", "s"]), .register rootHeaders (hook ["r", "s"]),
    .register malloryHeaders (hook ["s", "r"]), .delete malloryHeaders runHook]

theorem isolated_webhooks_plain
    : (fromTwoTenants managed).registered.map (fun sub => (sub.tenant, sub.id == runHook))
          = [("acme", true), ("globex", false), ("acme", true)]
        ∧ (fromTwoTenants managed).DistinctIds
        ∧ ∀ m, (fromTwoTenants managed).Separate (some "root") m →
          (fromTwoTenants managed).Isolates id (some "root") m := by
  refine ⟨by decide, ?_⟩
  apply isolated_webhooks_of_run id Function.injective_id (some "root") twoTenants.state managed
  apply Run.of_take
  intro k hk
  match k with
  | 0 | 1 | 2 => exact fun _ => ⟨by decide, by decide, by decide⟩
  | 3 =>
    intro _ sub hsub
    have hown : ((fromTwoTenants (managed.take 3)).webhooks.get runHook).all (·.tenant == "acme") = true := by
      decide
    exact eq_of_beq ((Option.all_eq_true _ _).mp hown sub hsub)

def globexHook : Registry :=
  fromTwoTenants [.register rootHeaders (hook ["run.*"])]

def globexId : String :=
  deriveId id "globex" "https://h" ["run.*"]

def commaTopics : Registry :=
  fromTwoTenants [
    .register malloryHeaders (hook ["run.started", "run.failed"]),
    .register malloryHeaders (hook ["run.failed,run.started"])]

theorem not_isolated_webhooks
    : ¬globexHook.Isolates id (some "root") (.delete malloryHeaders globexId)
        ∧ ¬commaTopics.DistinctIds := by
  constructor
  . intro h
    have hget : (globexHook.webhooks.get globexId).isSome = true := by
      decide
    obtain ⟨sub, hsub⟩ := Option.isSome_iff_exists.mp hget
    rcases h malloryHeaders rfl globexId sub hsub with hkept | ⟨-, htenant⟩
    . have hgone : (globexHook.move id (some "root")
          (.delete malloryHeaders globexId)).webhooks.get globexId = none := by
        decide
      rw [hgone] at hkept
      cases hkept
    . have hglobex : (globexHook.webhooks.get globexId).map (·.tenant) = some "globex" := by
        decide
      rw [hsub, Option.map_some, Option.some.injEq, htenant] at hglobex
      revert hglobex
      decide
  . intro h
    have hx : WebhookSubscription.new id "acme" "https://h" ["run.started", "run.failed"] "s3cret"
        ∈ commaTopics.registered := by
      decide
    have hy : WebhookSubscription.new id "acme" "https://h" ["run.failed,run.started"] "s3cret"
        ∈ commaTopics.registered := by
      decide
    obtain ⟨-, -, hperm⟩ := (h _ hx _ hy).mp (by decide)
    have := hperm.length_eq
    revert this
    decide

end Wovyr.Server.Webhooks.Registry
