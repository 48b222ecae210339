import Wovyr.Marketplace.Change
import Wovyr.Plugin.Dependencies
import Wovyr.Plugin.Keyless.Soundness

/-!
This module contains a ledger of what was published and when badges were set, and what a registry
serves that requires the badge.
-/

namespace Wovyr.Marketplace

open Plugin (Crates Package PluginManifest Signed TrustStore bytesOf bytesOf_injective)

/-- The text in which a signed manifest is distributed. -/
structure Packed where
  text : String
  signed : Signed

def Packed.envelope (p : Packed) : WovyrPkg where
  manifest := p.signed.text
  signature := Bytes.hexLower p.signed.signature

def Registry.knowing (packages : List Packed) (trust : TrustStore) (policy : RegistryPolicy) : Registry where
  parsePkg bytes :=
    match packages.find? fun p => bytesOf p.text == bytes with
    | some p => .ok p.envelope
    | none => .error "expected value at line 1 column 1"
  unicode := .asciiOnly
  trust
  policy

section

variable {packages : List Packed} {releases : List Signed} {hashes : List (List UInt8 × List UInt8)}
  {trust : TrustStore} {policy : RegistryPolicy} {p : Packed}

theorem find_packed (htexts : (packages.map (·.text)).Nodup) (hmem : p ∈ packages)
    : packages.find? (fun q => bytesOf q.text == bytesOf p.text) = some p := by
  induction packages with
  | nil => cases hmem
  | cons first packages ih =>
    rw [List.map_cons, List.nodup_cons] at htexts
    cases List.mem_cons.mp hmem with
    | inl heq =>
      subst heq
      exact List.find?_cons_of_pos (beq_self_eq_true _)
    | inr hrest =>
      rw [List.find?_cons_of_neg, ih htexts.2 hrest]
      rw [beq_iff_eq]
      intro heq
      exact htexts.1 (bytesOf_injective heq ▸ List.mem_map_of_mem hrest)

theorem fromWovyrpkg_packed (htexts : (packages.map (·.text)).Nodup) (hmem : p ∈ packages)
    (hplain : p.signed.artifacts = ∅)
    : (Registry.knowing packages trust policy).fromWovyrpkg (bytesOf p.text) = .ok p.signed.package := by
  unfold Registry.fromWovyrpkg Registry.knowing Signed.package
  simp only [find_packed htexts hmem, Packed.envelope, decodeHex_hexLower, decodeArtifacts, hplain]

theorem verify_packed (hyaml : PluginManifest.fromYaml (.knowing releases hashes) p.signed.package.manifestYaml
      = .ok p.signed.manifest)
    (hmem : p.signed ∈ releases) (htrust : trust[p.signed.manifest.metadata.publisher]? = some p.signed.key)
    : (Registry.knowing packages trust policy).verify (.knowing releases hashes) p.signed.package
        = .ok p.signed.manifest := by
  have hsigned : (Crates.knowing releases hashes).ed25519 p.signed.key (bytesOf p.signed.text) p.signed.signature
      = true := by
    apply List.any_eq_true.mpr
    exact ⟨p.signed, hmem, by simp only [beq_self_eq_true, Bool.and_self]⟩
  unfold Registry.verify Registry.knowing TrustStore.verify
  rw [hyaml]
  unfold Signed.package
  simp only [htrust, hsigned, if_true]

def Packed.version (p : Packed) (releases : List Signed) (hashes : List (List UInt8 × List UInt8))
    (packages : List Packed) (trust : TrustStore) (policy : RegistryPolicy) : PublishedVersion :=
  (Registry.knowing packages trust policy).versionOf (.knowing releases hashes) p.signed.package p.signed.manifest
    (bytesOf p.text) p.text

theorem admitPackage_packed {settings : Plugin.Settings} (htrusted : Signed.Trusted releases hashes settings)
    (htexts : (packages.map (·.text)).Nodup) (hmem : p ∈ packages) (hsigned : p.signed ∈ releases)
    (hplain : p.signed.artifacts = ∅)
    (hpolicy : policy.checkPublish p.signed.manifest.metadata.publisher p.signed.manifest.qualifiedId
      (.classify p.signed.manifest.permissions) = .ok ())
    (hscan : policy.blockScanSeverity = none)
    : (Registry.knowing packages settings.trust policy).admitPackage (.knowing releases hashes) (bytesOf p.text)
        = .ok (p.signed.manifest, p.version releases hashes packages settings.trust policy) := by
  unfold Registry.admitPackage
  rw [fromWovyrpkg_packed htexts hmem hplain]
  dsimp only
  rw [verify_packed (htrusted.fromYaml hsigned) hsigned (htrusted.key _ hsigned)]
  dsimp only
  have hpublish : (Registry.knowing packages settings.trust policy).policy.checkPublish
      p.signed.manifest.metadata.publisher p.signed.manifest.qualifiedId
      (.classify p.signed.manifest.permissions) = .ok () := hpolicy
  rw [hpublish]
  unfold RegistryPolicy.checkScan
  have hceiling : (Registry.knowing packages settings.trust policy).policy.blockScanSeverity = none := hscan
  rw [hceiling]
  dsimp only
  rw [fromUtf8_bytesOf]
  rfl

end

/-- When the badge of a listing was set, and the packages of its versions at that time. -/
structure Badge where
  time : Nat
  contents : String → Option (List UInt8)

/-- The last package that was published for a version of a listing, with the time, and the badges that are set. -/
structure Ledger where
  time : Nat := 0
  contents : String → String → Option (List UInt8 × Nat) := fun _ _ => none
  badges : String → Option Badge := fun _ => none

namespace Ledger

variable (ledger : Ledger)

def publish (id version : String) (bytes : List UInt8) : Ledger :=
  { ledger with
    contents := Function.update ledger.contents id
      (Function.update (ledger.contents id) version (some (bytes, ledger.time))) }

def setBadge (id : String) (verified : Bool) : Ledger :=
  { ledger with
    badges := Function.update ledger.badges id
      (if verified then
        some { time := ledger.time, contents := fun version => (ledger.contents id version).map Prod.fst }
      else
        none) }

def tick : Ledger :=
  { ledger with time := ledger.time + 1 }

def noted (crates : Crates) (r : Registry) : Registry.Call → Ledger
  | .publish wovyrpkg _ _ =>
    match r.admitPackage crates wovyrpkg with
    | .error _ => ledger
    | .ok (manifest, version) => ledger.publish manifest.qualifiedId version.version wovyrpkg
  | .setVerified id verified => ledger.setBadge id verified
  | .approveReview id _ => ledger.setBadge id true
  | .rejectReview id _ _ => ledger.setBadge id false
  | .requestReview _ => ledger
  | .reportAbuse _ _ _ => ledger
  | .resolveAbuseReport _ _ _ _ => ledger
  | .dismissAbuseReport _ _ _ _ => ledger

def note (crates : Crates) (r : Registry) (state : RegistryState) (c : Registry.Call) : Ledger :=
  match r.call crates state c with
  | .error _ => ledger.tick
  | .ok _ => (ledger.noted crates r c).tick

/--
The package is the one that was published last for the version of the listing, and the listing has the badge. If
the badge was set after that, the package is the one that the version had when it was set.
-/
def Vouches (id version : String) (bytes : List UInt8) : Prop :=
  ∃ n badge, ledger.contents id version = some (bytes, n) ∧ ledger.badges id = some badge
    ∧ (n < badge.time → badge.contents version = some bytes)

end Ledger

def observe (crates : Crates) (r : Registry) (s : RegistryState × Ledger) (c : Registry.Call)
    : RegistryState × Ledger :=
  (r.step crates s.1 c, s.2.note crates r s.1 c)

/-- The catalog holds what the ledger says. -/
structure Recorded (state : RegistryState) (ledger : Ledger) : Prop where
  keyed : ∀ (id : String) (rec : ListingRecord), state.listings[id]? = some rec → rec.id = id
  contents : ∀ (id : String) (rec : ListingRecord), state.listings[id]? = some rec → ∀ v ∈ rec.versions,
    ∃ n, ledger.contents id v.version = some (bytesOf v.package, n)
  badges : ∀ (id : String) (rec : ListingRecord), state.listings[id]? = some rec → rec.verified = true →
    ∃ badge, ledger.badges id = some badge
  -- What was published before a badge was set was there when it was set.
  snapshot : ∀ id badge, ledger.badges id = some badge → ∀ version bytes n,
    ledger.contents id version = some (bytes, n) → n < badge.time → badge.contents version = some bytes
  past : ∀ id badge, ledger.badges id = some badge → badge.time < ledger.time
  published : ∀ id version bytes n, ledger.contents id version = some (bytes, n) → n < ledger.time

section

variable {crates : Crates} {r : Registry} {state : RegistryState} {ledger : Ledger}

theorem Recorded.tick (h : Recorded state ledger) : Recorded state ledger.tick := by
  refine ⟨h.keyed, h.contents, h.badges, h.snapshot, ?_, ?_⟩
  . intro id badge hbadge
    exact Nat.lt_succ_of_lt (h.past id badge hbadge)
  . intro id version bytes n hcontents
    exact Nat.lt_succ_of_lt (h.published id version bytes n hcontents)

theorem getElem?_upsertVersion (publisher name : String) (version : PublishedVersion) (categories : List String)
    (channel k : String)
    : (state.upsertVersion publisher name version categories channel).listings[k]?
        = if publisher ++ "/" ++ name = k then
            some (((state.listings[publisher ++ "/" ++ name]?).getD
              { id := publisher ++ "/" ++ name, publisher, name }).addVersion version categories channel)
          else
            state.listings[k]? :=
  Map.getElem?_insert _ _ _ _

theorem contents_publish (id version : String) (bytes : List UInt8) (id' version' : String)
    : (ledger.publish id version bytes).contents id' version'
        = if id' = id ∧ version' = version then some (bytes, ledger.time) else ledger.contents id' version' := by
  unfold Ledger.publish
  by_cases hid : id' = id
  . subst hid
    by_cases hversion : version' = version
    . subst hversion
      simp
    . simp [hversion]
  . simp [hid]

theorem Recorded.publish (h : Recorded state ledger) {publisher name : String} {version : PublishedVersion}
    {categories : List String} {channel : String} {wovyrpkg : List UInt8} (hbytes : bytesOf version.package = wovyrpkg)
    : Recorded (state.upsertVersion publisher name version categories channel)
        (ledger.publish (publisher ++ "/" ++ name) version.version wovyrpkg).tick := by
  have hversions {rec : ListingRecord}
      (hold : ∀ v ∈ rec.versions, ∃ n, ledger.contents (publisher ++ "/" ++ name) v.version
        = some (bytesOf v.package, n))
      : ∀ v ∈ (rec.addVersion version categories channel).versions, ∃ n,
          (ledger.publish (publisher ++ "/" ++ name) version.version wovyrpkg).contents (publisher ++ "/" ++ name)
            v.version = some (bytesOf v.package, n) := by
    intro v hv
    rw [contents_publish]
    cases (ListingRecord.mem_addVersion).mp hv with
    | inl hother =>
      rw [if_neg fun heq => hother.2 heq.2]
      exact hold v hother.1
    | inr hnew =>
      rw [hnew, if_pos ⟨rfl, rfl⟩, hbytes]
      exact ⟨_, rfl⟩
  have hrecord {k : String} {rec : ListingRecord}
      (hrec : (state.upsertVersion publisher name version categories channel).listings[k]? = some rec)
      : rec.id = k ∧ (∀ v ∈ rec.versions, ∃ n,
            (ledger.publish (publisher ++ "/" ++ name) version.version wovyrpkg).contents k v.version
              = some (bytesOf v.package, n))
          ∧ (rec.verified = true → ∃ badge, ledger.badges k = some badge) := by
    rw [getElem?_upsertVersion] at hrec
    split at hrec
    next heq =>
      subst heq
      cases hold : state.listings[publisher ++ "/" ++ name]? with
      | none =>
        rw [hold, Option.getD_none, Option.some_inj] at hrec
        subst hrec
        exact ⟨rfl, hversions nofun, nofun⟩
      | some rec₀ =>
        rw [hold, Option.getD_some, Option.some_inj] at hrec
        subst hrec
        exact ⟨h.keyed _ rec₀ hold, hversions (h.contents _ rec₀ hold), h.badges _ rec₀ hold⟩
    next hne =>
      refine ⟨h.keyed k rec hrec, ?_, h.badges k rec hrec⟩
      intro v hv
      rw [contents_publish, if_neg fun heq => hne heq.1.symm]
      exact h.contents k rec hrec v hv
  refine ⟨fun k rec hrec => (hrecord hrec).1, fun k rec hrec => (hrecord hrec).2.1,
    fun k rec hrec => (hrecord hrec).2.2, ?_, ?_, ?_⟩
  . intro id badge hbadge v bytes n hcontents hbefore
    have hpast := h.past id badge hbadge
    change (ledger.publish _ _ _).contents id v = _ at hcontents
    rw [contents_publish] at hcontents
    split at hcontents
    next =>
      cases hcontents
      omega
    next => exact h.snapshot id badge hbadge v bytes n hcontents hbefore
  . intro id badge hbadge
    exact Nat.lt_succ_of_lt (h.past id badge hbadge)
  . intro id v bytes n hcontents
    change (ledger.publish _ _ _).contents id v = _ at hcontents
    rw [contents_publish] at hcontents
    split at hcontents
    next =>
      cases hcontents
      exact Nat.lt_succ_self _
    next => exact Nat.lt_succ_of_lt (h.published id v bytes n hcontents)

theorem badges_setBadge (id : String) (verified : Bool) (id' : String)
    : (ledger.setBadge id verified).badges id'
        = if id' = id then
            if verified then
              some { time := ledger.time, contents := fun version => (ledger.contents id version).map Prod.fst }
            else
              none
          else
            ledger.badges id' := by
  unfold Ledger.setBadge
  by_cases hid : id' = id
  . simp [hid]
  . simp [hid]

theorem Recorded.setBadge (h : Recorded state ledger) {c : Registry.Call} {id : String} {rec rec' : ListingRecord}
    {state' : RegistryState} {verified : Bool} (hrec : state.listings[id]? = some rec)
    (hjudged : Registry.Judged c rec rec') (hlistings : state'.listings = state.listings.insert id rec')
    (hbadge : c.badge = some verified) : Recorded state' (ledger.setBadge id verified).tick := by
  have hget (k : String) : state'.listings[k]? = if id = k then some rec' else state.listings[k]? := by
    rw [hlistings]
    exact Map.getElem?_insert _ _ _ _
  refine ⟨?_, ?_, ?_, ?_, ?_, ?_⟩
  . intro k rec₁ hrec₁
    rw [hget] at hrec₁
    split at hrec₁
    next heq =>
      cases hrec₁
      rw [hjudged.id, h.keyed id rec hrec, heq]
    next => exact h.keyed k rec₁ hrec₁
  . intro k rec₁ hrec₁ v hv
    rw [hget] at hrec₁
    split at hrec₁
    next heq =>
      cases hrec₁
      rw [hjudged.versions] at hv
      exact heq ▸ h.contents id rec hrec v hv
    next => exact h.contents k rec₁ hrec₁ v hv
  . intro k rec₁ hrec₁ hverified
    change ∃ badge, (ledger.setBadge id verified).badges k = some badge
    rw [hget] at hrec₁
    rw [badges_setBadge]
    split at hrec₁
    next heq =>
      cases hrec₁
      rw [hjudged.verified, hbadge, Option.getD_some] at hverified
      rw [if_pos heq.symm, if_pos hverified]
      exact ⟨_, rfl⟩
    next hne =>
      rw [if_neg (Ne.symm hne)]
      exact h.badges k rec₁ hrec₁ hverified
  . intro k badge hset version bytes n hcontents hbefore
    change (ledger.setBadge id verified).badges k = some badge at hset
    rw [badges_setBadge] at hset
    split at hset
    next heq =>
      split at hset
      . cases hset
        show (ledger.contents id version).map Prod.fst = some bytes
        rw [← heq, show ledger.contents k version = some (bytes, n) from hcontents]
        rfl
      . cases hset
    next => exact h.snapshot k badge hset version bytes n hcontents hbefore
  . intro k badge hset
    change (ledger.setBadge id verified).badges k = some badge at hset
    rw [badges_setBadge] at hset
    split at hset
    . split at hset
      . cases hset
        exact Nat.lt_succ_self _
      . cases hset
    . exact Nat.lt_succ_of_lt (h.past k badge hset)
  . intro k version bytes n hcontents
    exact Nat.lt_succ_of_lt (h.published k version bytes n hcontents)

theorem Recorded.judge (h : Recorded state ledger) {c : Registry.Call} {id : String} {rec rec' : ListingRecord}
    {state' : RegistryState} (hrec : state.listings[id]? = some rec) (hjudged : Registry.Judged c rec rec')
    (hlistings : state'.listings = state.listings.insert id rec') (hbadge : c.badge = none)
    : Recorded state' ledger := by
  have hget (k : String) : state'.listings[k]? = if id = k then some rec' else state.listings[k]? := by
    rw [hlistings]
    exact Map.getElem?_insert _ _ _ _
  refine ⟨?_, ?_, ?_, h.snapshot, h.past, h.published⟩
  . intro k rec₁ hrec₁
    rw [hget] at hrec₁
    split at hrec₁
    next heq =>
      cases hrec₁
      rw [hjudged.id, h.keyed id rec hrec, heq]
    next => exact h.keyed k rec₁ hrec₁
  . intro k rec₁ hrec₁ v hv
    rw [hget] at hrec₁
    split at hrec₁
    next heq =>
      cases hrec₁
      rw [hjudged.versions] at hv
      exact heq ▸ h.contents id rec hrec v hv
    next => exact h.contents k rec₁ hrec₁ v hv
  . intro k rec₁ hrec₁ hverified
    rw [hget] at hrec₁
    split at hrec₁
    next heq =>
      cases hrec₁
      rw [hjudged.verified, hbadge, Option.getD_none] at hverified
      exact heq ▸ h.badges id rec hrec hverified
    next => exact h.badges k rec₁ hrec₁ hverified

theorem Recorded.observe (h : Recorded state ledger) (c : Registry.Call)
    : Recorded (observe crates r (state, ledger) c).1 (observe crates r (state, ledger) c).2 := by
  show Recorded (r.step crates state c) (ledger.note crates r state c)
  have hchange : r.Change crates state c (r.step crates state c) := r.change state c
  generalize r.step crates state c = state' at hchange
  unfold Ledger.note
  cases hchange with
  | failed hcall =>
    rw [hcall]
    exact h.tick
  | @publish wovyrpkg categories channel manifest version hadmitted =>
    rw [Registry.call_publish hadmitted]
    simp only [Ledger.noted, hadmitted]
    obtain ⟨package, text, -, -, htext, hversion⟩ := Registry.admitPackage_ok hadmitted
    apply h.publish
    rw [hversion]
    exact htext
  | @listing _ id rec rec' _ hcall htarget hrec hjudged hlistings =>
    rw [hcall]
    cases c with
    | publish => cases htarget
    | setVerified | approveReview | rejectReview =>
      cases htarget
      exact h.setBadge hrec hjudged hlistings rfl
    | requestReview | reportAbuse | resolveAbuseReport | dismissAbuseReport =>
      cases htarget
      exact (h.judge hrec hjudged hlistings rfl).tick

theorem recorded_start : Recorded {} {} := by
  refine ⟨?_, ?_, ?_, nofun, nofun, nofun⟩
  . intro id rec hrec
    simp at hrec
  . intro id rec hrec
    simp at hrec
  . intro id rec hrec
    simp at hrec

theorem recorded_run (calls : List Registry.Call)
    : Recorded (calls.foldl (observe crates r) ({}, {})).1 (calls.foldl (observe crates r) ({}, {})).2 := by
  have hrun (s : RegistryState × Ledger) (hs : Recorded s.1 s.2)
      : Recorded (calls.foldl (observe crates r) s).1 (calls.foldl (observe crates r) s).2 := by
    induction calls generalizing s with
    | nil => exact hs
    | cons c calls ih => exact ih _ (hs.observe c)
  exact hrun ({}, {}) recorded_start

theorem Recorded.vouches (h : Recorded state ledger) {id : String} {rec : ListingRecord} {v : PublishedVersion}
    (hrec : state.listings[id]? = some rec) (hverified : rec.verified = true) (hv : v ∈ rec.versions)
    : ledger.Vouches id v.version (bytesOf v.package) := by
  obtain ⟨n, hcontents⟩ := h.contents id rec hrec v hv
  obtain ⟨badge, hbadge⟩ := h.badges id rec hrec hverified
  exact ⟨n, badge, hcontents, hbadge, h.snapshot id badge hbadge v.version _ n hcontents⟩

theorem download_ok {id : String} {version : Option String} {bytes : List UInt8}
    (h : r.download state id version = .ok bytes)
    : ∃ rec v, state.listings[id]? = some rec ∧ (r.policy.requireVerified = true → rec.verified = true)
        ∧ v ∈ rec.versions ∧ (∀ w, version = some w → v.version = w) ∧ bytes = bytesOf v.package := by
  unfold Registry.download at h
  split at h
  . cases h
  . split at h
    . cases h
    next rec hrec =>
      split at h
      . cases h
      . split at h
        . cases h
        next hverified =>
          split at h
          . cases h
          next v hpick =>
            cases h
            refine ⟨rec, v, hrec, ?_, ?_, ?_, rfl⟩
            . intro hrequire
              simpa [hrequire] using hverified
            . unfold Registry.pick at hpick
              split at hpick
              . exact (rec.mem_of_findVersion hpick).1
              . cases Option.or_eq_some_iff.mp hpick with
                | inl hstable =>
                  obtain ⟨w, -, hw⟩ := Option.bind_eq_some_iff.mp hstable
                  exact (rec.mem_of_findVersion hw).1
                | inr hlatest => exact rec.mem_of_latest hlatest.2
            . rintro w rfl
              exact (rec.mem_of_findVersion hpick).2

theorem get_some {id : String} {listing : Listing} (h : r.get state id = some listing)
    : ∃ rec, state.listings[id]? = some rec ∧ (r.policy.requireVerified = true → rec.verified = true)
        ∧ listing = rec.toListing := by
  unfold Registry.get at h
  split at h
  . cases h
  . split at h
    . cases h
    next rec hrec =>
      split at h
      . cases h
      . split at h
        . cases h
        next hverified =>
          cases h
          refine ⟨rec, hrec, ?_, rfl⟩
          intro hrequire
          simpa [hrequire] using hverified

theorem mem_search {query : SearchQuery} {listing : Listing} (h : listing ∈ r.search state query)
    : ∃ (id : String) (rec : ListingRecord), state.listings[id]? = some rec
        ∧ (r.policy.requireVerified = true → rec.verified = true) ∧ listing = rec.toListing := by
  unfold Registry.search at h
  simp only [List.mem_map, List.mem_insertionSort, List.mem_filterMap] at h
  obtain ⟨_, ⟨rec, hvalue, hscored⟩, rfl⟩ := h
  obtain ⟨id, hrec⟩ := (Map.mem_values).mp hvalue
  split at hscored
  next hserved =>
    cases hscored
    refine ⟨id, rec, hrec, ?_, rfl⟩
    intro hrequire
    simp only [Registry.isServed, hrequire, Bool.not_true, Bool.false_or, Bool.and_eq_true] at hserved
    exact hserved.1.1.2
  next => cases hscored

/--
A registry that requires the badge serves only what is published for listings that have it; what a version had
when the badge was set is what it serves until the version is published again, and a version that is not
published again stays as it is.
-/
theorem verified_serves (hrequire : r.policy.requireVerified = true) (calls : List Registry.Call)
    : (∀ id version bytes, r.download (calls.foldl (observe crates r) ({}, {})).1 id version = .ok bytes →
          ∃ v, (∀ w, version = some w → v = w)
            ∧ (calls.foldl (observe crates r) ({}, {})).2.Vouches id v bytes)
        ∧ (∀ query, ∀ listing ∈ r.search (calls.foldl (observe crates r) ({}, {})).1 query,
          ∀ v ∈ listing.versions, ∃ bytes,
            (calls.foldl (observe crates r) ({}, {})).2.Vouches listing.id v bytes)
        ∧ (∀ id listing, r.get (calls.foldl (observe crates r) ({}, {})).1 id = some listing →
          ∀ v ∈ listing.versions, ∃ bytes, (calls.foldl (observe crates r) ({}, {})).2.Vouches id v bytes)
        ∧ ∀ more id v bytes bytes',
          ((calls ++ more).foldl (observe crates r) ({}, {})).2.contents id v
              = (calls.foldl (observe crates r) ({}, {})).2.contents id v →
            r.download (calls.foldl (observe crates r) ({}, {})).1 id (some v) = .ok bytes →
            r.download ((calls ++ more).foldl (observe crates r) ({}, {})).1 id (some v) = .ok bytes' →
              bytes' = bytes := by
  have hrecorded (calls : List Registry.Call)
      : Recorded (calls.foldl (observe crates r) ({}, {})).1 (calls.foldl (observe crates r) ({}, {})).2 :=
    recorded_run calls
  refine ⟨?_, ?_, ?_, ?_⟩
  . intro id version bytes hdownload
    obtain ⟨rec, v, hrec, hverified, hv, hpicked, rfl⟩ := download_ok hdownload
    exact ⟨v.version, hpicked, (hrecorded calls).vouches hrec (hverified hrequire) hv⟩
  . intro query listing hlisting v hv
    obtain ⟨id, rec, hrec, hverified, rfl⟩ := mem_search hlisting
    obtain ⟨version, hversion, rfl⟩ := List.mem_map.mp hv
    have hid : rec.toListing.id = id := (hrecorded calls).keyed id rec hrec
    rw [hid]
    exact ⟨_, (hrecorded calls).vouches hrec (hverified hrequire) hversion⟩
  . intro id listing hlisting v hv
    obtain ⟨rec, hrec, hverified, rfl⟩ := get_some hlisting
    obtain ⟨version, hversion, rfl⟩ := List.mem_map.mp hv
    exact ⟨_, (hrecorded calls).vouches hrec (hverified hrequire) hversion⟩
  . intro more id v bytes bytes' hsame hdownload hdownload'
    obtain ⟨rec, w, hrec, -, hw, hpicked, rfl⟩ := download_ok hdownload
    obtain ⟨rec', w', hrec', -, hw', hpicked', rfl⟩ := download_ok hdownload'
    obtain ⟨n, hcontents⟩ := (hrecorded calls).contents id rec hrec w hw
    obtain ⟨n', hcontents'⟩ := (hrecorded (calls ++ more)).contents id rec' hrec' w' hw'
    rw [hpicked v rfl] at hcontents
    rw [hpicked' v rfl, hsame, hcontents, Option.some_inj, Prod.mk.injEq] at hcontents'
    exact hcontents'.1.symm

end

namespace Acme

open Plugin.Acme (app next releases settings trusted)

def first : Packed where
  text := "\x7b\"manifest\":\"apiVersion: plugin.wovyr.io/v1\\nkind: Plugin\\nmetadata:\\n  name: app\\n"
    ++ "  version: 1.0.0\\n  publisher: acme\\n\",\"signature\":\"" ++ Bytes.hexLower app.signature ++ "\"\x7d"
  signed := app

def second : Packed where
  text := "\x7b\"manifest\":\"apiVersion: plugin.wovyr.io/v1\\nkind: Plugin\\nmetadata:\\n  name: app\\n"
    ++ "  version: 1.1.0\\n  publisher: acme\\ndependencies:\\n- name: base\\n  version: '*'\\n\",\"signature\":\""
    ++ Bytes.hexLower next.signature ++ "\"\x7d"
  signed := next

def again : Packed where
  text := first.text ++ "\n"
  signed := app

def packages : List Packed :=
  [first, second, again]

def policy : RegistryPolicy where
  requireVerified := true

abbrev registry : Registry :=
  .knowing packages settings.trust policy

abbrev crates : Crates :=
  .knowing releases []

theorem texts_nodup : (packages.map (·.text)).Nodup := by
  decide +kernel

theorem admitPackage {p : Packed} (hmem : p ∈ packages)
    : registry.admitPackage crates (bytesOf p.text)
        = .ok (p.signed.manifest, p.version releases [] packages settings.trust policy) := by
  have happ : app ∈ releases := List.mem_cons_of_mem _ List.mem_cons_self
  have hnext : next ∈ releases := List.mem_cons_of_mem _ (List.mem_cons_of_mem _ List.mem_cons_self)
  have hall : ∀ p ∈ packages, p.signed ∈ releases ∧ p.signed.artifacts = ∅
      ∧ policy.checkPublish p.signed.manifest.metadata.publisher p.signed.manifest.qualifiedId
        (.classify p.signed.manifest.permissions) = .ok () := by
    simp only [packages, List.forall_mem_cons, List.not_mem_nil]
    exact ⟨⟨happ, rfl, rfl⟩, ⟨hnext, rfl, rfl⟩, ⟨happ, rfl, rfl⟩, nofun⟩
  obtain ⟨hsigned, hplain, hpolicy⟩ := hall p hmem
  exact admitPackage_packed trusted texts_nodup hmem hsigned hplain hpolicy rfl

def calls : List Registry.Call :=
  [.publish (bytesOf first.text) [] none, .requestReview "acme/app", .approveReview "acme/app" "alice",
    .publish (bytesOf second.text) [] none]

theorem download_calls
    : registry.download (calls.foldl (registry.step crates) {}) "acme/app" none = .ok (bytesOf second.text) := by
  have hfirst := admitPackage (p := first) (by simp [packages])
  have hsecond := admitPackage (p := second) (by simp [packages])
  unfold calls
  rw [List.foldl_cons, Registry.step_publish hfirst, List.foldl_cons, List.foldl_cons, List.foldl_cons,
    Registry.step_publish hsecond, List.foldl_nil]
  rfl

theorem listing_reviewed {rec : ListingRecord}
    (h : ([Registry.Call.publish (bytesOf first.text) [] none, .requestReview "acme/app"].foldl
      (registry.step crates) {}).listings["acme/app"]? = some rec)
    : ∀ v ∈ rec.versions, v.package = first.text := by
  have hfirst := admitPackage (p := first) (by simp [packages])
  rw [List.foldl_cons, Registry.step_publish hfirst, List.foldl_cons, List.foldl_nil] at h
  cases h
  intro v hv
  cases List.mem_singleton.mp hv
  rfl

def replaced : List Registry.Call :=
  [.publish (bytesOf first.text) [] none, .setVerified "acme/app" true]

theorem download_replaced
    : registry.download (replaced.foldl (registry.step crates) {}) "acme/app" (some "1.0.0")
          = .ok (bytesOf first.text)
        ∧ registry.download ((replaced ++ [Registry.Call.publish (bytesOf again.text) [] none]).foldl (registry.step crates) {})
            "acme/app" (some "1.0.0") = .ok (bytesOf again.text) := by
  have hfirst := admitPackage (p := first) (by simp [packages])
  have hagain := admitPackage (p := again) (by simp [packages])
  unfold replaced
  refine ⟨?_, ?_⟩
  . rw [List.foldl_cons, Registry.step_publish hfirst, List.foldl_cons, List.foldl_nil]
    rfl
  . rw [List.cons_append, List.cons_append, List.nil_append, List.foldl_cons, Registry.step_publish hfirst,
      List.foldl_cons, List.foldl_cons, Registry.step_publish hagain, List.foldl_nil]
    rfl

end Acme

open Acme

-- What is downloaded is what some version of the listing was when its badge was set.
def ServesReviewed (crates : Crates) (r : Registry) (calls : List Registry.Call) : Prop :=
  ∀ id version bytes, r.download (calls.foldl (r.step crates) {}) id version = .ok bytes →
    ∃ before c after, calls = before ++ c :: after ∧ c.target = some id ∧ c.badge = some true
      ∧ ∃ (rec : ListingRecord) (v : PublishedVersion), (before.foldl (r.step crates) {}).listings[id]? = some rec
        ∧ v ∈ rec.versions ∧ bytesOf v.package = bytes

theorem verified_serves_app
    : ∃ v, (calls.foldl (observe crates registry) ({}, {})).2.Vouches "acme/app" v
        (bytesOf second.text) := by
  have hstate (calls : List Registry.Call) (s : RegistryState × Ledger)
      : (calls.foldl (observe crates registry) s).1
          = calls.foldl (registry.step crates) s.1 := by
    induction calls generalizing s with
    | nil => rfl
    | cons c calls ih => exact ih _
  have hdownload := download_calls
  rw [← hstate calls ({}, {})] at hdownload
  obtain ⟨v, -, hvouches⟩ := (verified_serves rfl calls).1 _ _ _ hdownload
  exact ⟨v, hvouches⟩

-- A version that nobody reviewed is served, and a version is served as something else than before.
theorem unreviewed_served
    : ¬ServesReviewed crates registry calls
        ∧ ∃ bytes bytes', bytes' ≠ bytes
          ∧ registry.download (replaced.foldl (registry.step crates) {}) "acme/app"
              (some "1.0.0") = .ok bytes
          ∧ registry.download ((replaced ++ [Registry.Call.publish (bytesOf again.text) [] none]).foldl
              (registry.step crates) {}) "acme/app" (some "1.0.0") = .ok bytes' := by
  have htexts : first.text ≠ second.text ∧ first.text ≠ again.text := by
    have hnodup := texts_nodup
    simp only [packages, List.map_cons, List.nodup_cons, List.mem_cons, not_or] at hnodup
    exact ⟨hnodup.1.1, hnodup.1.2.1⟩
  refine ⟨?_, _, _, ?_, download_replaced⟩
  . intro h
    obtain ⟨before, c, after, hcalls, -, hbadge, rec, v, hrec, hv, hbytes⟩ := h _ _ _ download_calls
    unfold calls at hcalls
    -- Only the third call sets the badge.
    rcases before with _ | ⟨b₁, _ | ⟨b₂, _ | ⟨b₃, _ | ⟨b₄, before⟩⟩⟩⟩
    . cases hcalls
      cases hbadge
    . cases hcalls
      cases hbadge
    . cases hcalls
      rw [listing_reviewed hrec v hv] at hbytes
      exact htexts.1 (Plugin.bytesOf_injective hbytes)
    . cases hcalls
      cases hbadge
    . simp at hcalls
  . intro heq
    exact htexts.2 (Plugin.bytesOf_injective heq).symm

end Wovyr.Marketplace
