import Wovyr.Plugin.Engine

/-!
This module contains the security scan of a package that is to be published and the feed of known
vulnerabilities that it is matched against.
-/

namespace Wovyr.Marketplace

open Plugin (Package PluginManifest SbomComponent isBroad verifyDigest)

inductive Severity where
  | info
  | warning
  | critical
deriving Repr, DecidableEq, Inhabited

namespace Severity

def rank : Severity → Nat
  | .info => 0
  | .warning => 1
  | .critical => 2

def debug : Severity → String
  | .info => "Info"
  | .warning => "Warning"
  | .critical => "Critical"

end Severity

structure Finding where
  code : String
  severity : Severity
  message : String
deriving Repr, DecidableEq, Inhabited

structure ScanReport where
  findings : List Finding := []
deriving Repr, DecidableEq, Inhabited

namespace ScanReport

def push (report : ScanReport) (code : String) (severity : Severity) (message : String) : ScanReport :=
  { report with findings := report.findings ++ [{ code, severity, message }] }

def maxSeverity (report : ScanReport) : Option Severity :=
  report.findings.foldl
    (fun most f =>
      match most with
      | some s => if f.severity.rank < s.rank then some s else some f.severity
      | none => some f.severity)
    none

end ScanReport

structure SemverRange where
  -- Without a version, from the beginning on.
  introduced : Option Semver.Version := none
  fixed : Option Semver.Version := none
  lastAffected : Option Semver.Version := none
deriving Repr, DecidableEq

def SemverRange.contains (range : SemverRange) (v : Semver.Version) : Bool :=
  if range.introduced.any fun intro => v.compare intro = .lt then
    false
  else
    match range.fixed, range.lastAffected with
    | some fixed, _ => v.compare fixed = .lt
    | none, some last => v.compare last ≠ .gt
    | none, none => true

structure Affected where
  package : String
  versions : List String := []
  ranges : List SemverRange := []
deriving Repr, DecidableEq

structure Advisory where
  id : String
  summary : String := ""
  aliases : List String := []
  affected : List Affected := []
deriving Repr, DecidableEq

structure VulnFeed where
  byPackage : Std.ExtTreeMap String (List Advisory) := ∅

def parseLenient (text : String) : Option Semver.Version :=
  let text := Text.trim text
  if text = "" then
    none
  else
    [text, text ++ ".0", text ++ ".0.0"].findSome? fun candidate => (Semver.parse candidate).toOption

def VulnFeed.advisoriesFor (feed : VulnFeed) (name version : String) : List Advisory :=
  match feed.byPackage[name]? with
  | none => []
  | some advisories =>
    let parsed := parseLenient version
    advisories.filter fun adv =>
      adv.affected.any fun a =>
        a.package == name
          && (a.versions.contains version || parsed.any fun v => a.ranges.any fun r => r.contains v)

variable (sha256 : List UInt8 → List UInt8)

def scanArtifacts (package : Package) (manifest : PluginManifest) (report : ScanReport) : ScanReport :=
  manifest.artifacts.foldl
    (fun report artifact =>
      match package.artifacts[artifact.path]? with
      | none =>
        report.push "artifact.missing" .critical s!"artifact `{artifact.path}` is declared but not bundled"
      | some bytes =>
        match verifyDigest sha256 artifact.digest bytes with
        | .ok () => report
        | .error _ =>
          report.push "artifact.digest_mismatch" .critical
            s!"artifact `{artifact.path}` does not match its declared digest")
    report

def scanPermissions (manifest : PluginManifest) (report : ScanReport) : ScanReport :=
  manifest.permissions.foldl
    (fun report perm =>
      if isBroad perm then
        report.push "permission.broad" .warning s!"permission `{perm}` is a broad/wildcard grant"
      else
        report)
    report

def scanCapabilities (manifest : PluginManifest) (report : ScanReport) : ScanReport :=
  manifest.capabilities.foldl
    (fun report cap =>
      if cap.sandbox = "native" then
        report.push "capability.unsandboxed" .warning
          s!"capability `{cap.id}` requests the native (weakest) sandbox"
      else
        report)
    report

def advisoryMessage (pinned : String) (adv : Advisory) : String :=
  let aliases := if adv.aliases.isEmpty then "" else " (aka " ++ Text.join ", " adv.aliases ++ ")"
  s!"SBOM component `{pinned}` matches advisory {adv.id}{aliases}: {adv.summary}"

def scanComponent (denyComponents : List String) (feed : VulnFeed) (report : ScanReport) (c : SbomComponent)
    : ScanReport :=
  let pinned := c.name ++ "@" ++ c.version
  let report :=
    if denyComponents.any fun d => d == c.name || d == pinned then
      report.push "component.denied" .critical s!"SBOM component `{pinned}` is on the operator deny-list"
    else
      report
  let report := (feed.advisoriesFor c.name c.version).foldl
    (fun report adv => report.push "component.vulnerable" .critical (advisoryMessage pinned adv)) report
  if c.license = "" then
    report.push "component.unlicensed" .info s!"SBOM component `{pinned}` declares no license"
  else
    report

def scanSbom (manifest : PluginManifest) (denyComponents : List String) (feed : VulnFeed) (report : ScanReport)
    : ScanReport :=
  match manifest.sbom with
  | none => report.push "sbom.missing" .info "package declares no SBOM; bundled components are unknown"
  | some sbom => sbom.components.foldl (scanComponent denyComponents feed) report

def scanProvenance (manifest : PluginManifest) (report : ScanReport) : ScanReport :=
  if manifest.provenance.isNone then
    report.push "provenance.missing" .info "package declares no build provenance"
  else
    report

def scan (package : Package) (manifest : PluginManifest) (denyComponents : List String) (feed : VulnFeed)
    : ScanReport :=
  scanProvenance manifest <| scanSbom manifest denyComponents feed <| scanCapabilities manifest <|
    scanPermissions manifest <| scanArtifacts sha256 package manifest {}

end Wovyr.Marketplace
