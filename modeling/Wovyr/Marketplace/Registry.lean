import Mathlib.Data.List.Infix
import Wovyr.Marketplace.Store

/-!
This module contains the registry of the marketplace: publishing a package, what can be found, shown and
downloaded under the policy of the operator, and the calls that change the catalog.
-/

namespace Wovyr.Marketplace

open Plugin (CapabilityKind Crates IdentityPolicy KeylessBundle KeylessRoot Package PluginManifest TrustStore
  bytesOf verifyKeyless)

def defaultChannel : String :=
  "stable"

structure RegistryPolicy where
  -- Without a list, every publisher may publish.
  allowPublishers : Option (List String) := none
  maxPermissionRisk : PermissionRisk := .high
  blocklist : List String := []
  requireVerified : Bool := false
  denyComponents : List String := []
  blockScanSeverity : Option Severity := none
deriving Repr, DecidableEq, Inhabited

namespace RegistryPolicy

variable (policy : RegistryPolicy)

def allowsPublisher (publisher : String) : Bool :=
  policy.allowPublishers.all fun list => list.contains publisher

def isBlocked (id : String) : Bool :=
  policy.blocklist.contains id

def checkPublish (publisher id : String) (risk : PermissionRisk) : Except Error Unit :=
  if policy.isBlocked id then
    .error (.forbidden s!"listing `{id}` is blocklisted by marketplace policy")
  else if !policy.allowsPublisher publisher then
    .error (.forbidden s!"publisher `{publisher}` is not in the marketplace allow-list")
  else if policy.maxPermissionRisk.rank < risk.rank then
    .error (.forbidden (s!"version permission risk `{risk.debug}` exceeds policy maximum "
      ++ s!"`{policy.maxPermissionRisk.debug}`"))
  else
    .ok ()

def checkScan (report : ScanReport) : Except Error Unit :=
  match policy.blockScanSeverity with
  | none => .ok ()
  | some ceiling =>
    let blocking := (report.findings.filter fun f => ceiling.rank ≤ f.severity.rank).map fun f =>
      s!"{f.code} ({f.severity.debug}): {f.message}"
    if blocking.isEmpty then
      .ok ()
    else
      .error (.forbidden (s!"security scan blocks publish (policy blocks at `{ceiling.debug}` and above): "
        ++ Text.join "; " blocking))

end RegistryPolicy

structure WovyrPkg where
  manifest : String
  signature : String
  -- In the order of the paths.
  artifacts : List (String × String) := []
  keyless : Option KeylessBundle := none
deriving Repr, DecidableEq, Inhabited

structure Registry where
  -- The JSON decoder of a third-party crate, with the text of its error.
  parsePkg : List UInt8 → Except String WovyrPkg
  unicode : Unicode
  trust : TrustStore := ∅
  keyless : Option (KeylessRoot × IdentityPolicy) := none
  policy : RegistryPolicy := {}
  vulnFeed : VulnFeed := {}

structure PublishOutcome where
  listingId : String
  reference : String
  channel : String
  scan : ScanReport
deriving Repr, DecidableEq, Inhabited

structure SearchQuery where
  text : String := ""
  category : Option String := none
  capability : Option CapabilityKind := none
deriving Repr, DecidableEq, Inhabited

def fromUtf8 (bytes : List UInt8) : Option String :=
  String.fromUTF8? ⟨bytes.toArray⟩

theorem bytesOf_fromUtf8 {bytes : List UInt8} {text : String} (h : fromUtf8 bytes = some text)
    : bytesOf text = bytes := by
  unfold fromUtf8 String.fromUTF8? at h
  split at h
  next hvalid =>
    cases h
    have hback : (String.ofList (String.fromUTF8 ⟨bytes.toArray⟩ hvalid).toList).toByteArray = ⟨bytes.toArray⟩ := by
      rw [String.ofList_toList]
      rfl
    rw [String.toByteArray_ofList] at hback
    unfold List.utf8Encode at hback
    unfold bytesOf Bytes.utf8
    have hlist := congrArg (fun b : ByteArray => b.data.toList) hback
    simpa using hlist
  next => cases h

theorem fromUtf8_bytesOf (text : String) : fromUtf8 (bytesOf text) = some text := by
  have hbytes : (⟨(bytesOf text).toArray⟩ : ByteArray) = text.toByteArray := by
    rw [← String.ofList_toList (s := text), String.toByteArray_ofList]
    unfold bytesOf Bytes.utf8 List.utf8Encode
    apply ByteArray.ext
    simp
  unfold fromUtf8 String.fromUTF8?
  rw [hbytes, dif_pos text.isValidUTF8]
  rfl

-- A hexadecimal text beyond ASCII is taken for one with a wrong digit.
def decodeHex (s : String) : Except Error (List UInt8) :=
  if (bytesOf s).length % 2 ≠ 0 then
    .error (.invalid "hex string has odd length")
  else
    match Plugin.Hex.decode s with
    | some bytes => .ok bytes
    | none => .error (.invalid "invalid hex: invalid digit found in string")

theorem utf8Size_hexDigit {n : Nat} (h : n < 16) : (Bytes.hexDigit n).utf8Size = 1 := by
  interval_cases n <;> decide

theorem length_bytesOf_hexLower (bytes : List UInt8) : (bytesOf (Bytes.hexLower bytes)).length = 2 * bytes.length := by
  unfold bytesOf Bytes.hexLower
  rw [String.toList_ofList]
  induction bytes with
  | nil => rfl
  | cons b bytes ih =>
    have hb := b.toNat_lt
    have hhigh := utf8Size_hexDigit (n := b.toNat / 16) (by omega)
    have hlow := utf8Size_hexDigit (n := b.toNat % 16) (by omega)
    rw [List.flatMap_cons, List.cons_append, List.cons_append, Bytes.utf8_cons_ascii hhigh,
      Bytes.utf8_cons_ascii hlow, List.nil_append, List.length_cons, List.length_cons, ih, List.length_cons]
    omega

theorem decodeHex_hexLower (bytes : List UInt8) : decodeHex (Bytes.hexLower bytes) = .ok bytes := by
  have heven : ¬(bytesOf (Bytes.hexLower bytes)).length % 2 ≠ 0 := by
    rw [length_bytesOf_hexLower]
    omega
  unfold decodeHex
  rw [if_neg heven, Plugin.Hex.decode_hexLower]

def decodeArtifacts : List (String × String) → Std.ExtTreeMap String (List UInt8) →
    Except Error (Std.ExtTreeMap String (List UInt8))
  | [], artifacts => .ok artifacts
  | (path, hex) :: rest, artifacts =>
    match decodeHex hex with
    | .error e => .error e
    | .ok bytes => decodeArtifacts rest (artifacts.insert path bytes)

namespace Registry

variable (crates : Crates) (r : Registry)

def fromWovyrpkg (wovyrpkg : List UInt8) : Except Error Package :=
  match r.parsePkg wovyrpkg with
  | .error e => .error (.invalid s!"invalid .wovyrpkg: {e}")
  | .ok envelope =>
    match decodeHex envelope.signature with
    | .error e => .error e
    | .ok signature =>
      match decodeArtifacts envelope.artifacts ∅ with
      | .error e => .error e
      | .ok artifacts =>
        .ok { manifestYaml := envelope.manifest, signature, artifacts, keyless := envelope.keyless }

-- By the bundle, where the registry takes one and the package has one, or else by the key of the publisher.
def verify (package : Package) : Except Error PluginManifest :=
  match PluginManifest.fromYaml crates package.manifestYaml with
  | .error e => .error e
  | .ok manifest =>
    let verified :=
      match package.keyless, r.keyless with
      | some bundle, some (root, policy) =>
        (verifyKeyless crates (bytesOf package.manifestYaml) bundle root policy
          manifest.metadata.publisher).map fun _ => ()
      | _, _ =>
        TrustStore.verify r.trust crates manifest.metadata.publisher (bytesOf package.manifestYaml)
          package.signature
    match verified with
    | .error e => .error e
    | .ok () => .ok manifest

def scanOf (package : Package) (manifest : PluginManifest) : ScanReport :=
  scan crates.sha256 package manifest r.policy.denyComponents r.vulnFeed

def versionOf (package : Package) (manifest : PluginManifest) (wovyrpkg : List UInt8) (text : String)
    : PublishedVersion where
  version := manifest.metadata.version
  description := manifest.metadata.description
  license := manifest.metadata.license
  permissions := manifest.permissions
  capabilities := manifest.capabilities.map (·.kind)
  risk := .classify manifest.permissions
  scan := r.scanOf crates package manifest
  packageDigest := "sha256:" ++ Bytes.hexLower (crates.sha256 wovyrpkg)
  package := text

-- What is to be published, when nothing speaks against it.
def admitPackage (wovyrpkg : List UInt8) : Except Error (PluginManifest × PublishedVersion) :=
  match r.fromWovyrpkg wovyrpkg with
  | .error e => .error e
  | .ok package =>
    match r.verify crates package with
    | .error e => .error e
    | .ok manifest =>
      match r.policy.checkPublish manifest.metadata.publisher manifest.qualifiedId
          (.classify manifest.permissions) with
      | .error e => .error e
      | .ok () =>
        match r.policy.checkScan (r.scanOf crates package manifest) with
        | .error e => .error e
        | .ok () =>
          match fromUtf8 wovyrpkg with
          | none => .error (.invalid "`.wovyrpkg` is not valid UTF-8 JSON")
          | some text => .ok (manifest, r.versionOf crates package manifest wovyrpkg text)

def publish (state : RegistryState) (wovyrpkg : List UInt8) (categories : List String)
    (channel : Option String) : Except Error (PublishOutcome × RegistryState) :=
  match r.admitPackage crates wovyrpkg with
  | .error e => .error e
  | .ok (manifest, version) =>
    let channel := channel.getD defaultChannel
    .ok (
      { listingId := manifest.qualifiedId, reference := manifest.reference, channel, scan := version.scan },
      state.upsertVersion manifest.metadata.publisher manifest.metadata.name version categories channel)

def relevance (rec : ListingRecord) (needle : String) : Nat :=
  if needle = "" then
    0
  else
    let found (text : String) : Bool := needle.toList <:+: (r.unicode.lower text).toList
    (if found rec.name then 10 else 0) + (if found rec.publisher then 5 else 0) + (if found rec.id then 3 else 0)
      + (if rec.latest.any fun v => found v.description then 2 else 0)
      + if rec.categories.any found then 1 else 0

def isServed (rec : ListingRecord) : Bool :=
  !r.policy.isBlocked rec.id && !rec.delisted && (!r.policy.requireVerified || rec.verified)

def matchesQuery (query : SearchQuery) (rec : ListingRecord) : Bool :=
  (query.category.all fun cat => rec.categories.contains cat)
    && query.capability.all fun kind => rec.latest.any fun v => v.capabilities.contains kind

def search (state : RegistryState) (query : SearchQuery) : List Listing :=
  let needle := r.unicode.lower query.text
  let scored := state.listings.values.filterMap fun rec =>
    let score := r.relevance rec needle
    if r.isServed rec && matchesQuery query rec && (needle = "" || 0 < score) then
      some (score, rec.toListing)
    else
      none
  (scored.insertionSort fun a b => b.1 < a.1 ∨ (a.1 = b.1 ∧ a.2.id ≤ b.2.id)).map Prod.snd

def get (state : RegistryState) (id : String) : Option Listing :=
  if r.policy.isBlocked id then
    none
  else
    match state.listings[id]? with
    | none => none
    | some rec =>
      if rec.delisted then
        none
      else if r.policy.requireVerified && !rec.verified then
        none
      else
        some rec.toListing

-- Without a version, the one on the stable channel, or else the latest one.
def pick (rec : ListingRecord) : Option String → Option PublishedVersion
  | some version => rec.findVersion version
  | none => (rec.channels[defaultChannel]?.bind rec.findVersion).or rec.latest

def download (state : RegistryState) (id : String) (version : Option String) : Except Error (List UInt8) :=
  if r.policy.isBlocked id then
    .error (.forbidden s!"listing `{id}` is blocklisted")
  else
    match state.listings[id]? with
    | none => .error (.notFound s!"listing `{id}` not found")
    | some rec =>
      if rec.delisted then
        .error (.forbidden s!"listing `{id}` has been delisted")
      else if r.policy.requireVerified && !rec.verified then
        .error (.forbidden s!"listing `{id}` is not verified")
      else
        match pick rec version with
        | none => .error (.notFound s!"listing `{id}` has no version `{version.getD defaultChannel}`")
        | some v => .ok (bytesOf v.package)

inductive Call where
  | publish (wovyrpkg : List UInt8) (categories : List String) (channel : Option String)
  | setVerified (id : String) (verified : Bool)
  | requestReview (id : String)
  | approveReview (id reviewer : String)
  | rejectReview (id reviewer reason : String)
  | reportAbuse (id reporter reason : String)
  | resolveAbuseReport (id : String) (reportId : Nat) (moderator : String) (delist : Bool)
  | dismissAbuseReport (id : String) (reportId : Nat) (moderator reason : String)

def call (state : RegistryState) : Call → Except Error RegistryState
  | .publish wovyrpkg categories channel => (r.publish crates state wovyrpkg categories channel).map Prod.snd
  | .setVerified id verified => state.setVerified id verified
  | .requestReview id => state.requestReview id
  | .approveReview id reviewer => state.approveReview id reviewer
  | .rejectReview id reviewer reason => state.rejectReview id reviewer reason
  | .reportAbuse id reporter reason =>
    if Text.trim reason = "" then
      .error (.invalid "abuse report reason must not be empty")
    else
      state.reportAbuse id reporter reason
  | .resolveAbuseReport id reportId moderator delist => state.resolveAbuseReport id reportId moderator delist
  | .dismissAbuseReport id reportId moderator reason => state.dismissAbuseReport id reportId moderator reason

def step (state : RegistryState) (c : Call) : RegistryState :=
  match r.call crates state c with
  | .ok state => state
  | .error _ => state

end Wovyr.Marketplace.Registry
