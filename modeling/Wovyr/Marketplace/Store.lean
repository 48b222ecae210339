import Mathlib.Data.List.Destutter
import Mathlib.Data.List.Sort
import Wovyr.Marketplace.Scan

/-!
This module contains the listings of the marketplace, with their versions, badges, reviews and abuse
reports, and the catalog with the operations on its listings.
-/

namespace Wovyr.Marketplace

open Plugin (CapabilityKind isBroad)

inductive PermissionRisk where
  | low
  | medium
  | high
deriving Repr, DecidableEq, Inhabited

namespace PermissionRisk

def rank : PermissionRisk → Nat
  | .low => 0
  | .medium => 1
  | .high => 2

def debug : PermissionRisk → String
  | .low => "Low"
  | .medium => "Medium"
  | .high => "High"

def classify (permissions : List String) : PermissionRisk :=
  if permissions.any isBroad then .high else if permissions.isEmpty then .low else .medium

end PermissionRisk

structure PublishedVersion where
  version : String
  description : String := ""
  license : String := ""
  permissions : List String := []
  capabilities : List CapabilityKind := []
  risk : PermissionRisk := .low
  scan : ScanReport := {}
  packageDigest : String
  package : String
deriving Repr, DecidableEq, Inhabited

inductive ReviewStatus where
  | unreviewed
  | pending (version : String)
  | approved (reviewer version : String)
  | rejected (reviewer version reason : String)
deriving Repr, DecidableEq, Inhabited

inductive AbuseReportStatus where
  | opened
  | resolved (moderator : String) (delisted : Bool)
  | dismissed (moderator reason : String)
deriving Repr, DecidableEq, Inhabited

structure AbuseReport where
  id : Nat
  reporter : String
  reason : String
  status : AbuseReportStatus := .opened
deriving Repr, DecidableEq, Inhabited

structure ListingRecord where
  id : String
  publisher : String
  name : String
  categories : List String := []
  -- The newest one first.
  versions : List PublishedVersion := []
  channels : Std.ExtTreeMap String String := ∅
  verified : Bool := false
  review : ReviewStatus := .unreviewed
  abuseReports : List AbuseReport := []
  delisted : Bool := false

structure Listing where
  id : String
  publisher : String
  name : String
  description : String
  categories : List String
  capabilities : List CapabilityKind
  permissions : List String
  risk : PermissionRisk
  scanSeverity : Option Severity
  scanFindings : Nat
  versions : List String
  channels : Std.ExtTreeMap String String
  verified : Bool
  review : ReviewStatus

def newer (a b : PublishedVersion) : Bool :=
  match Semver.parse a.version, Semver.parse b.version with
  | .ok va, .ok vb => vb.compare va ≠ .gt
  | _, _ => compare b.version a.version ≠ .gt

namespace ListingRecord

variable (rec : ListingRecord)

def latest : Option PublishedVersion :=
  rec.versions.head?

def findVersion (version : String) : Option PublishedVersion :=
  rec.versions.find? fun v => v.version = version

def resort : ListingRecord :=
  { rec with versions := rec.versions.insertionSort fun a b => newer a b }

def toListing : Listing where
  id := rec.id
  publisher := rec.publisher
  name := rec.name
  description := (rec.latest.map (·.description)).getD ""
  categories := rec.categories
  capabilities := ((rec.latest.map (·.capabilities)).getD []).destutter (· ≠ ·)
  permissions := (rec.latest.map (·.permissions)).getD []
  risk := (rec.latest.map (·.risk)).getD .low
  scanSeverity := rec.latest.bind (·.scan.maxSeverity)
  scanFindings := (rec.latest.map (·.scan.findings.length)).getD 0
  versions := rec.versions.map (·.version)
  channels := rec.channels
  verified := rec.verified
  review := rec.review

theorem mem_of_latest {v : PublishedVersion} (h : rec.latest = some v) : v ∈ rec.versions :=
  List.mem_of_head? h

theorem mem_of_findVersion {version : String} {v : PublishedVersion} (h : rec.findVersion version = some v)
    : v ∈ rec.versions ∧ v.version = version :=
  ⟨List.mem_of_find?_eq_some h, by simpa using List.find?_some h⟩

@[simp] theorem mem_resort {v : PublishedVersion} : v ∈ rec.resort.versions ↔ v ∈ rec.versions :=
  List.mem_insertionSort _

end ListingRecord

structure RegistryState where
  listings : Std.ExtTreeMap String ListingRecord := ∅

namespace ListingRecord

variable (rec : ListingRecord)

def addVersion (version : PublishedVersion) (categories : List String) (channel : String) : ListingRecord :=
  resort
    { rec with
      categories := categories.foldl (fun cs c => if cs.contains c then cs else cs ++ [c]) rec.categories
      channels := rec.channels.insert channel version.version
      versions := rec.versions.filter (fun v => v.version ≠ version.version) ++ [version] }

def requestReview : Except Error ListingRecord :=
  match rec.review with
  | .pending _ => .error (.conflict s!"listing `{rec.id}` already has a pending review")
  | _ =>
    match rec.latest with
    | none => .error (.invalid "cannot request review: no published version")
    | some v => .ok { rec with review := .pending v.version }

def approveReview (reviewer : String) : Except Error ListingRecord :=
  match rec.review with
  | .pending version => .ok { rec with review := .approved reviewer version, verified := true }
  | _ => .error (.invalid s!"listing `{rec.id}` has no pending review")

def rejectReview (reviewer reason : String) : Except Error ListingRecord :=
  match rec.review with
  | .pending version => .ok { rec with review := .rejected reviewer version reason, verified := false }
  | _ => .error (.invalid s!"listing `{rec.id}` has no pending review")

def reportAbuse (reporter reason : String) : ListingRecord :=
  { rec with
    abuseReports := rec.abuseReports ++ [{ id := rec.abuseReports.length, reporter, reason }] }

def openReportIndex (reportId : Nat) : Except Error Nat :=
  match rec.abuseReports.findIdx? fun r => r.id = reportId with
  | none => .error (.notFound s!"abuse report `{reportId}` not found on listing `{rec.id}`")
  | some idx =>
    if (rec.abuseReports[idx]?).any fun r => r.status = .opened then
      .ok idx
    else
      .error (.conflict s!"abuse report `{reportId}` on listing `{rec.id}` is already resolved")

def decideReport (idx : Nat) (status : AbuseReportStatus) : ListingRecord :=
  { rec with abuseReports := rec.abuseReports.modify idx fun r => { r with status } }

def resolveAbuseReport (reportId : Nat) (moderator : String) (delist : Bool) : Except Error ListingRecord :=
  match rec.openReportIndex reportId with
  | .error e => .error e
  | .ok idx =>
    let decided := rec.decideReport idx (.resolved moderator delist)
    .ok { decided with delisted := delist || rec.delisted }

def dismissAbuseReport (reportId : Nat) (moderator reason : String) : Except Error ListingRecord :=
  match rec.openReportIndex reportId with
  | .error e => .error e
  | .ok idx => .ok (rec.decideReport idx (.dismissed moderator reason))

end ListingRecord

namespace RegistryState

variable (state : RegistryState)

def upsertVersion (publisher name : String) (version : PublishedVersion) (categories : List String)
    (channel : String) : RegistryState :=
  let id := publisher ++ "/" ++ name
  let rec' := state.listings[id]?.getD { id, publisher, name }
  { listings := state.listings.insert id (rec'.addVersion version categories channel) }

def update (id : String) (f : ListingRecord → Except Error ListingRecord) : Except Error RegistryState :=
  match state.listings[id]? with
  | none => .error (.notFound s!"listing `{id}` not found")
  | some rec =>
    match f rec with
    | .error e => .error e
    | .ok rec => .ok { listings := state.listings.insert id rec }

def setVerified (id : String) (verified : Bool) : Except Error RegistryState :=
  state.update id fun rec => .ok { rec with verified }

def requestReview (id : String) : Except Error RegistryState :=
  state.update id ListingRecord.requestReview

def approveReview (id reviewer : String) : Except Error RegistryState :=
  state.update id fun rec => rec.approveReview reviewer

def rejectReview (id reviewer reason : String) : Except Error RegistryState :=
  state.update id fun rec => rec.rejectReview reviewer reason

def reportAbuse (id reporter reason : String) : Except Error RegistryState :=
  state.update id fun rec => .ok (rec.reportAbuse reporter reason)

def resolveAbuseReport (id : String) (reportId : Nat) (moderator : String) (delist : Bool)
    : Except Error RegistryState :=
  state.update id fun rec => rec.resolveAbuseReport reportId moderator delist

def dismissAbuseReport (id : String) (reportId : Nat) (moderator reason : String)
    : Except Error RegistryState :=
  state.update id fun rec => rec.dismissAbuseReport reportId moderator reason

end RegistryState

namespace ListingRecord

variable {rec : ListingRecord}

theorem mem_addVersion {version v : PublishedVersion} {categories : List String} {channel : String}
    : v ∈ (rec.addVersion version categories channel).versions
        ↔ (v ∈ rec.versions ∧ v.version ≠ version.version) ∨ v = version := by
  unfold addVersion
  simp

end ListingRecord

section

variable {state state' : RegistryState} {id : String}

theorem update_ok {f : ListingRecord → Except Error ListingRecord} (h : state.update id f = .ok state')
    : ∃ rec rec', state.listings[id]? = some rec ∧ f rec = .ok rec'
        ∧ state'.listings = state.listings.insert id rec' := by
  unfold RegistryState.update at h
  split at h
  . cases h
  next rec hrec =>
    split at h
    . cases h
    next rec' hrec' =>
      cases h
      exact ⟨rec, rec', hrec, hrec', rfl⟩

end

end Wovyr.Marketplace
