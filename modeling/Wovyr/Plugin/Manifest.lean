import Wovyr.Common
import Wovyr.Lib.Map
import Wovyr.Lib.Semver

/-!
This module contains the manifest of a plugin and the checks that one has to pass. YAML, version
requirements, hashes and signatures are those of third-party crates.
-/

namespace Wovyr.Plugin

def pluginApiVersion : String :=
  "plugin.wovyr.io/v1"

structure Metadata where
  name : String
  version : String
  publisher : String
  description : String := ""
  license : String := ""
deriving Repr, DecidableEq, Inhabited

structure Compatibility where
  platformApi : String := ""
deriving Repr, DecidableEq, Inhabited

structure Dependency where
  name : String
  version : String
deriving Repr, DecidableEq, Inhabited

inductive CapabilityKind where
  | tool
  | provider
  | memoryBackend
  | policy
  | workflowActivity
deriving Repr, DecidableEq, Inhabited

structure CapabilityDescriptor where
  kind : CapabilityKind
  id : String
  entry : String := ""
  sandbox : String := ""
deriving Repr, DecidableEq, Inhabited

structure Artifact where
  path : String
  digest : String
deriving Repr, DecidableEq, Inhabited

structure SbomComponent where
  name : String
  version : String
  license : String := ""
deriving Repr, DecidableEq, Inhabited

structure Sbom where
  components : List SbomComponent := []
deriving Repr, DecidableEq, Inhabited

structure Provenance where
  builder : String := ""
  source : String := ""
  builtAt : String := ""
deriving Repr, DecidableEq, Inhabited

structure PluginManifest where
  apiVersion : String
  kind : String
  metadata : Metadata
  compatibility : Compatibility := {}
  dependencies : List Dependency := []
  permissions : List String := []
  capabilities : List CapabilityDescriptor := []
  artifacts : List Artifact := []
  sbom : Option Sbom := none
  provenance : Option Provenance := none
deriving Repr, DecidableEq, Inhabited

/-- The functions of third-party crates, with the texts of their errors. -/
structure Crates where
  parseYaml : String → Except String PluginManifest
  parseReq : String → Except String (Semver.Version → Bool)
  sha256 : List UInt8 → List UInt8
  -- The key, the message and the signature.
  ed25519 : List UInt8 → List UInt8 → List UInt8 → Bool
  ecdsaP256 : List UInt8 → List UInt8 → List UInt8 → Bool

variable (crates : Crates)

-- Comparators may be separated by spaces, the crate wants commas.
def parseVersionReq (range : String) : Except Error (Semver.Version → Bool) :=
  match crates.parseReq (Text.join "," (Text.splitWhitespace range)) with
  | .ok req => .ok req
  | .error e => .error (.invalid s!"invalid version requirement `{range}`: {e}")

namespace PluginManifest

variable (m : PluginManifest)

def qualifiedId : String :=
  m.metadata.publisher ++ "/" ++ m.metadata.name

def reference : String :=
  m.qualifiedId ++ "@" ++ m.metadata.version

def checkNonEmpty (field value : String) : Except Error Unit :=
  if Text.trim value = "" then .error (.invalid s!"plugin {field} must not be empty") else .ok ()

def checkCapabilities (seen : List String) : List CapabilityDescriptor → Except Error Unit
  | [] => .ok ()
  | cap :: caps =>
    if Text.trim cap.id = "" then
      .error (.invalid "capability id must not be empty")
    else if cap.id ∈ seen then
      .error (.invalid s!"duplicate capability id `{cap.id}`")
    else
      checkCapabilities (cap.id :: seen) caps

def checkDependencies : List Dependency → Except Error Unit
  | [] => .ok ()
  | dep :: deps =>
    if Text.trim dep.name = "" then
      .error (.invalid "dependency name must not be empty")
    else
      match parseVersionReq crates dep.version with
      | .error e => .error (.invalid s!"dependency `{dep.name}`: {e.display}")
      | .ok _ => checkDependencies deps

def checkVersion : Except Error Unit :=
  match Semver.parse m.metadata.version with
  | .ok _ => .ok ()
  | .error e => .error (.invalid s!"plugin version `{m.metadata.version}` is not valid semver: {e.display}")

def validate : Except Error Unit :=
  if m.apiVersion ≠ pluginApiVersion then
    .error (.invalid s!"unsupported plugin apiVersion `{m.apiVersion}` (expected `{pluginApiVersion}`)")
  else if m.kind ≠ "Plugin" then
    .error (.invalid s!"unsupported manifest kind `{m.kind}` (expected `Plugin`)")
  else do
    checkNonEmpty "metadata.name" m.metadata.name
    checkNonEmpty "metadata.version" m.metadata.version
    checkNonEmpty "metadata.publisher" m.metadata.publisher
    m.checkVersion
    checkCapabilities [] m.capabilities
    checkDependencies crates m.dependencies

def fromYaml (yaml : String) : Except Error PluginManifest :=
  match crates.parseYaml yaml with
  | .error e => .error (.invalid s!"invalid plugin manifest: {e}")
  | .ok m =>
    match m.validate crates with
    | .error e => .error e
    | .ok () => .ok m

def toolCapabilities : List CapabilityDescriptor :=
  m.capabilities.filter (·.kind = .tool)

end PluginManifest

structure ProvenancePolicy where
  requireProvenance : Bool := false
  requireSbom : Bool := false
  allowedBuilders : List String := []
deriving Repr, DecidableEq, Inhabited

def ProvenancePolicy.check (policy : ProvenancePolicy) (m : PluginManifest) : Except Error Unit :=
  if policy.requireSbom && m.sbom.isNone then
    .error (.invalid s!"plugin `{m.qualifiedId}` has no SBOM, which this node requires")
  else
    match m.provenance with
    | none =>
      if policy.requireProvenance || !policy.allowedBuilders.isEmpty then
        .error (.invalid s!"plugin `{m.qualifiedId}` has no build provenance, which this node requires")
      else
        .ok ()
    | some prov =>
      if !policy.allowedBuilders.isEmpty then
        if policy.allowedBuilders.contains prov.builder then
          .ok ()
        else
          .error (.forbidden
            s!"plugin `{m.qualifiedId}` was built by `{prov.builder}`, not a trusted builder")
      else
        .ok ()

structure PluginManifest.Valid (m : PluginManifest) : Prop where
  version : ∃ v, Semver.parse m.metadata.version = .ok v
  requirements : ∀ dep ∈ m.dependencies, ∃ req, parseVersionReq crates dep.version = .ok req
  capabilities : (m.capabilities.map (·.id)).Nodup

namespace PluginManifest

variable {crates : Crates} {m : PluginManifest}

theorem checkCapabilities_ok {seen : List String} {caps : List CapabilityDescriptor}
    (h : checkCapabilities seen caps = .ok ()) (hseen : seen.Nodup)
    : (caps.map (·.id)).Nodup ∧ ∀ cap ∈ caps, cap.id ∉ seen := by
  induction caps generalizing seen with
  | nil => simp
  | cons cap caps ih =>
    unfold checkCapabilities at h
    split at h
    . cases h
    . split at h
      . cases h
      . next hfresh =>
        obtain ⟨hnodup, hnew⟩ := ih h (List.nodup_cons.mpr ⟨hfresh, hseen⟩)
        refine ⟨?_, ?_⟩
        . rw [List.map_cons, List.nodup_cons]
          refine ⟨?_, hnodup⟩
          intro hmem
          obtain ⟨other, hother, heq⟩ := List.mem_map.mp hmem
          apply hnew other hother
          simp [heq]
        . intro other hother
          cases List.mem_cons.mp hother with
          | inl heq =>
            rw [heq]
            exact hfresh
          | inr hother =>
            intro hmem
            exact hnew other hother (List.mem_cons_of_mem _ hmem)

theorem checkDependencies_ok {deps : List Dependency} (h : checkDependencies crates deps = .ok ())
    : ∀ dep ∈ deps, ∃ req, parseVersionReq crates dep.version = .ok req := by
  induction deps with
  | nil => simp
  | cons dep deps ih =>
    unfold checkDependencies at h
    split at h
    . cases h
    . split at h
      . cases h
      . next req hreq =>
        intro other hother
        cases List.mem_cons.mp hother with
        | inl heq => exact ⟨req, heq ▸ hreq⟩
        | inr hother => exact ih h other hother

theorem valid_of_validate (h : m.validate crates = .ok ()) : m.Valid crates := by
  unfold validate at h
  split at h
  . cases h
  . split at h
    . cases h
    . simp only [bind_eq_ok] at h
      obtain ⟨_, -, _, -, _, -, _, hversion, _, hcaps, hdeps⟩ := h
      refine ⟨?_, checkDependencies_ok hdeps, (checkCapabilities_ok hcaps .nil).1⟩
      unfold checkVersion at hversion
      split at hversion
      . next v hv => exact ⟨v, hv⟩
      . cases hversion

theorem valid_of_fromYaml {yaml : String} (h : fromYaml crates yaml = .ok m) : m.Valid crates := by
  unfold fromYaml at h
  split at h
  . cases h
  . split at h
    . cases h
    . next hvalid =>
      cases h
      exact valid_of_validate hvalid

end Wovyr.Plugin.PluginManifest
