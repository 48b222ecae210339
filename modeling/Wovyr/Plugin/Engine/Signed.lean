import Wovyr.Plugin.Engine

/-!
This module contains what it takes for a call to go through, and crates that know the packages that their
publishers have signed.
-/

namespace Wovyr.Plugin

section

variable {crates : Crates} {settings : Settings} {catalog : Catalog} {host : Host} {package : Package}
  {manifest : PluginManifest} {grants : List String} {os : Nat → WriteOutcome}

theorem admitPackage_iff
    : admitPackage crates settings catalog package manifest grants = .ok ()
      ↔ verifyPackage crates settings package manifest = .ok ()
        ∧ checkCompatibility crates settings manifest = .ok ()
        ∧ resolveAll crates catalog manifest.dependencies = .ok ()
        ∧ checkGrants manifest grants = .ok ()
        ∧ settings.provenancePolicy.check manifest = .ok () := by
  unfold admitPackage
  simp only [bind_eq_ok]
  constructor
  . intro ⟨_, hverify, _, hcompatible, _, hresolved, _, hgranted, hprovenance⟩
    exact ⟨hverify, hcompatible, hresolved, hgranted, hprovenance⟩
  . intro ⟨hverify, hcompatible, hresolved, hgranted, hprovenance⟩
    exact ⟨(), hverify, (), hcompatible, (), hresolved, (), hgranted, hprovenance⟩

theorem verifyAndStage_of_admitPackage {disk : Disk}
    (hadmitted : admitPackage crates settings catalog package manifest grants = .ok ())
    : verifyAndStage crates settings catalog package manifest grants os disk
        = match stage crates package manifest.qualifiedId (artifactDir settings manifest) os 0 manifest.artifacts
            disk with
          | (.error e, disk) => (.error e, disk)
          | (.ok (), disk) => (.ok (artifactDir settings manifest), disk) := by
  unfold verifyAndStage
  simp only [hadmitted] <;> rfl

theorem install_ok {disk : Disk} (hyaml : PluginManifest.fromYaml crates package.manifestYaml = .ok manifest)
    (hnew : host.plugins[manifest.qualifiedId]? = none)
    (hadmitted : admitPackage crates settings host.plugins package manifest grants = .ok ())
    (hstage : stage crates package manifest.qualifiedId (artifactDir settings manifest) os 0 manifest.artifacts
      host.disk = (.ok (), disk))
    : host.step crates settings (.install package grants os)
        = { host with
            plugins := host.plugins.insert manifest.qualifiedId
              { manifest, grantedPermissions := grants, artifactDir := artifactDir settings manifest }
            events := host.events ++ [.installed manifest.reference]
            disk } := by
  have hfresh : host.plugins.contains manifest.qualifiedId = false := by
    rw [Std.ExtTreeMap.contains_eq_isSome_getElem?, hnew]
    rfl
  show (host.install crates settings package grants os).2 = _
  unfold Host.install
  simp only [hyaml, hfresh, verifyAndStage_of_admitPackage hadmitted, hstage, Bool.false_eq_true, if_false]

theorem upgrade_ok {disk : Disk} {current : InstalledPlugin} {newVersion : Semver.Version}
    (hyaml : PluginManifest.fromYaml crates package.manifestYaml = .ok manifest)
    (hcurrent : host.plugins[manifest.qualifiedId]? = some current)
    (hother : manifest.metadata.version ≠ current.manifest.metadata.version)
    (hversion : Semver.parse manifest.metadata.version = .ok newVersion)
    (hbroken : dependentsBrokenBy crates manifest.qualifiedId newVersion host.plugins = [])
    (hadmitted : admitPackage crates settings host.plugins package manifest
      (Host.effective current.grantedPermissions grants) = .ok ())
    (hstage : stage crates package manifest.qualifiedId (artifactDir settings manifest) os 0 manifest.artifacts
      host.disk = (.ok (), disk))
    : host.step crates settings (.upgrade package grants os)
        = { host.swap settings manifest.qualifiedId current
              { manifest
                state := current.state
                grantedPermissions := Host.effective current.grantedPermissions grants
                artifactDir := artifactDir settings manifest
                previous := some { current with previous := none } } with
            events := host.events ++ [.upgraded manifest.reference]
            disk } := by
  show (host.upgrade crates settings package grants os).2 = _
  unfold Host.upgrade
  simp only [hyaml, hcurrent, hother, hversion, hbroken, verifyAndStage_of_admitPackage hadmitted, hstage, List.isEmpty_nil,
    Bool.not_true, Bool.false_eq_true, if_false]

theorem enable_ok {id : String} {plugin : InstalledPlugin} {order : List String}
    (hplugin : host.plugins[id]? = some plugin) (horder : enableOrder crates id host.plugins = .ok order)
    : host.step crates settings (.enable id) = order.foldl (Host.enableOne settings) host := by
  show (host.enable crates settings id).2 = _
  unfold Host.enable
  simp only [hplugin, horder]

theorem disable_ok {id : String} {plugin : InstalledPlugin} (hplugin : host.plugins[id]? = some plugin)
    (hstate : plugin.state = .enabled) (hdependents : dependents crates id host.plugins = [])
    : host.step crates settings (.disable id)
        = { host with
            plugins := host.plugins.insert id { plugin with state := .disabled }
            registry := unregisterTools plugin.manifest host.registry
            events := host.events ++ [.disabled plugin.manifest.reference] } := by
  show (host.disable crates id).2 = _
  unfold Host.disable
  simp [hplugin, hstate, hdependents]

theorem enableOne_disabled {id : String} {plugin : InstalledPlugin} (hplugin : host.plugins[id]? = some plugin)
    (hstate : plugin.state = .disabled)
    : host.enableOne settings id
        = { host with
            plugins := host.plugins.insert id { plugin with state := .enabled }
            registry := registerTools settings.runtime plugin host.registry
            events := host.events ++ [.enabled plugin.manifest.reference] } := by
  unfold Host.enableOne
  simp [hplugin, hstate]

end

/-- The manifest of a package with its text, the key of its publisher and the signature. -/
structure Signed where
  key : List UInt8
  text : String
  manifest : PluginManifest
  signature : List UInt8
  artifacts : Std.ExtTreeMap String (List UInt8) := ∅

def Signed.package (r : Signed) : Package where
  manifestYaml := r.text
  signature := r.signature
  artifacts := r.artifacts

-- As far as the requirement is `*`, the texts and the messages are the signed ones and the hashes are known.
def Crates.knowing (releases : List Signed) (hashes : List (List UInt8 × List UInt8)) : Crates where
  parseYaml text :=
    match releases.find? fun r => r.text == text with
    | some r => .ok r.manifest
    | none => .error "invalid type"
  parseReq range := if range = "*" then .ok fun v => v.pre.isEmpty else .error "unexpected character"
  sha256 bytes := (hashes.lookup bytes).getD []
  ed25519 key message signature :=
    releases.any fun r => r.key == key && bytesOf r.text == message && r.signature == signature
  ecdsaP256 _ _ _ := false

/-- The packages ask for nothing, and who runs the engine trusts their publishers. -/
structure Signed.Trusted (releases : List Signed) (hashes : List (List UInt8 × List UInt8)) (settings : Settings)
    : Prop where
  texts : (releases.map (·.text)).Nodup
  valid : ∀ r ∈ releases, r.manifest.validate (.knowing releases hashes) = .ok ()
  key : ∀ r ∈ releases, settings.trust[r.manifest.metadata.publisher]? = some r.key
  compatible : ∀ r ∈ releases, r.manifest.compatibility.platformApi = ""
  permissions : ∀ r ∈ releases, r.manifest.permissions = []
  provenance : settings.provenancePolicy = {}

section

variable {releases : List Signed} {hashes : List (List UInt8 × List UInt8)} {r : Signed} {settings : Settings}

theorem verifyPackage_signed (hmem : r ∈ releases)
    (htrust : settings.trust[r.manifest.metadata.publisher]? = some r.key)
    : verifyPackage (.knowing releases hashes) settings r.package r.manifest = .ok () := by
  have hsigned : (Crates.knowing releases hashes).ed25519 r.key (bytesOf r.text) r.signature = true := by
    apply List.any_eq_true.mpr
    exact ⟨r, hmem, by simp only [beq_self_eq_true, Bool.and_self]⟩
  unfold verifyPackage TrustStore.verify Signed.package
  simp only [htrust, hsigned, if_true]

theorem find_text (htexts : (releases.map (·.text)).Nodup) (hmem : r ∈ releases)
    : releases.find? (fun r' => r'.text == r.text) = some r := by
  induction releases with
  | nil => cases hmem
  | cons first releases ih =>
    rw [List.map_cons, List.nodup_cons] at htexts
    cases List.mem_cons.mp hmem with
    | inl heq =>
      subst heq
      exact List.find?_cons_of_pos (beq_self_eq_true _)
    | inr hrest =>
      rw [List.find?_cons_of_neg, ih htexts.2 hrest]
      rw [beq_iff_eq]
      intro heq
      exact htexts.1 (heq ▸ List.mem_map_of_mem hrest)

namespace Signed.Trusted

theorem fromYaml (h : Trusted releases hashes settings) (hmem : r ∈ releases)
    : PluginManifest.fromYaml (.knowing releases hashes) r.package.manifestYaml = .ok r.manifest := by
  have hparse : (Crates.knowing releases hashes).parseYaml r.text = .ok r.manifest := by
    unfold Crates.knowing
    simp only [find_text h.texts hmem]
  unfold PluginManifest.fromYaml Signed.package
  simp only [hparse, h.valid r hmem]

theorem admitPackage {catalog : Catalog} (h : Trusted releases hashes settings) (hmem : r ∈ releases)
    (hdeps : resolveAll (.knowing releases hashes) catalog r.manifest.dependencies = .ok ()) (grants : List String)
    : admitPackage (.knowing releases hashes) settings catalog r.package r.manifest grants = .ok () := by
  refine (admitPackage_iff).mpr ⟨verifyPackage_signed hmem (h.key r hmem), ?_, hdeps, ?_, ?_⟩
  . unfold checkCompatibility
    rw [h.compatible r hmem]
    rfl
  . unfold checkGrants missingGrants
    rw [h.permissions r hmem]
    rfl
  . unfold ProvenancePolicy.check
    rw [h.provenance]
    cases r.manifest.provenance <;> rfl

variable {host : Host} {disk : Disk}

theorem install (h : Trusted releases hashes settings) (hmem : r ∈ releases) {grants : List String}
    {os : Nat → WriteOutcome} (hnew : host.plugins[r.manifest.qualifiedId]? = none)
    (hdeps : resolveAll (.knowing releases hashes) host.plugins r.manifest.dependencies = .ok ())
    (hstage : stage (.knowing releases hashes) r.package r.manifest.qualifiedId (artifactDir settings r.manifest) os 0
      r.manifest.artifacts host.disk = (.ok (), disk))
    : host.step (.knowing releases hashes) settings (.install r.package grants os)
        = { host with
            plugins := host.plugins.insert r.manifest.qualifiedId
              { manifest := r.manifest
                grantedPermissions := grants
                artifactDir := artifactDir settings r.manifest }
            events := host.events ++ [.installed r.manifest.reference]
            disk } :=
  install_ok (h.fromYaml hmem) hnew (h.admitPackage hmem hdeps grants) hstage

theorem upgrade (h : Trusted releases hashes settings) (hmem : r ∈ releases) {grants : List String}
    {os : Nat → WriteOutcome} {current : InstalledPlugin} {newVersion : Semver.Version}
    (hcurrent : host.plugins[r.manifest.qualifiedId]? = some current)
    (hother : r.manifest.metadata.version ≠ current.manifest.metadata.version)
    (hversion : Semver.parse r.manifest.metadata.version = .ok newVersion)
    (hbroken : dependentsBrokenBy (.knowing releases hashes) r.manifest.qualifiedId newVersion host.plugins = [])
    (hdeps : resolveAll (.knowing releases hashes) host.plugins r.manifest.dependencies = .ok ())
    (hstage : stage (.knowing releases hashes) r.package r.manifest.qualifiedId (artifactDir settings r.manifest) os 0
      r.manifest.artifacts host.disk = (.ok (), disk))
    : host.step (.knowing releases hashes) settings (.upgrade r.package grants os)
        = { host.swap settings r.manifest.qualifiedId current
              { manifest := r.manifest
                state := current.state
                grantedPermissions := Host.effective current.grantedPermissions grants
                artifactDir := artifactDir settings r.manifest
                previous := some { current with previous := none } } with
            events := host.events ++ [.upgraded r.manifest.reference]
            disk } :=
  upgrade_ok (h.fromYaml hmem) hcurrent hother hversion hbroken (h.admitPackage hmem hdeps _) hstage

end Signed.Trusted

end

-- A publisher with its key, and an engine that trusts it.
namespace Acme

def key : List UInt8 :=
  [0x75, 0xbb, 0x1d, 0xb8, 0x20, 0x9a, 0xed, 0xa3, 0xce, 0xfc, 0xe6, 0x42, 0x20, 0x3a, 0x99, 0xc7,
   0x73, 0x7c, 0x50, 0x62, 0xcf, 0x4a, 0xbe, 0xe7, 0xc3, 0x01, 0xd8, 0x7f, 0x80, 0x2c, 0x1e, 0x7a]

def settings : Settings where
  trust := (∅ : TrustStore).insert "acme" key
  platformApi := { major := 1, minor := 0, patch := 0, pre := [], build := [] }

end Wovyr.Plugin.Acme
