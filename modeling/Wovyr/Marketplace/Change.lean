import Wovyr.Lib.Run
import Wovyr.Marketplace.Registry

/-!
This module contains what a call can do to the catalog of the marketplace.
-/

namespace Wovyr.Marketplace

open Plugin (Crates Package PluginManifest bytesOf)

namespace Registry

def Call.target : Call → Option String
  | .publish _ _ _ => none
  | .setVerified id _ => some id
  | .requestReview id => some id
  | .approveReview id _ => some id
  | .rejectReview id _ _ => some id
  | .reportAbuse id _ _ => some id
  | .resolveAbuseReport id _ _ _ => some id
  | .dismissAbuseReport id _ _ _ => some id

def Call.badge : Call → Option Bool
  | .setVerified _ verified => some verified
  | .approveReview _ _ => some true
  | .rejectReview _ _ _ => some false
  | _ => none

/-- The listing is the same but for its badge and what is reported and decided about it. -/
structure Judged (c : Call) (rec rec' : ListingRecord) : Prop where
  id : rec'.id = rec.id
  publisher : rec'.publisher = rec.publisher
  name : rec'.name = rec.name
  versions : rec'.versions = rec.versions
  verified : rec'.verified = c.badge.getD rec.verified

inductive Change (crates : Crates) (r : Registry) (state : RegistryState) : Call → RegistryState → Prop where
  | failed {c : Call} {e : Error} (hcall : r.call crates state c = .error e) : Change crates r state c state
  | publish {wovyrpkg : List UInt8} {categories : List String} {channel : Option String}
      {manifest : PluginManifest} {version : PublishedVersion}
      (hadmitted : r.admitPackage crates wovyrpkg = .ok (manifest, version))
      : Change crates r state (.publish wovyrpkg categories channel)
          (state.upsertVersion manifest.metadata.publisher manifest.metadata.name version categories
            (channel.getD defaultChannel))
  | listing {c : Call} {id : String} {rec rec' : ListingRecord} {state' : RegistryState}
      (hcall : r.call crates state c = .ok state') (htarget : c.target = some id)
      (hrec : state.listings[id]? = some rec) (hjudged : Judged c rec rec')
      (hlistings : state'.listings = state.listings.insert id rec') : Change crates r state c state'

section

variable {crates : Crates} {r : Registry} {state state' : RegistryState} {c : Call}

theorem admitPackage_ok {wovyrpkg : List UInt8} {manifest : PluginManifest} {version : PublishedVersion}
    (h : r.admitPackage crates wovyrpkg = .ok (manifest, version))
    : ∃ package text, r.fromWovyrpkg wovyrpkg = .ok package ∧ r.verify crates package = .ok manifest
        ∧ bytesOf text = wovyrpkg ∧ version = r.versionOf crates package manifest wovyrpkg text := by
  unfold admitPackage at h
  split at h
  . cases h
  next package hpackage =>
    split at h
    . cases h
    next manifest' hverify =>
      split at h
      . cases h
      . split at h
        . cases h
        . split at h
          . cases h
          next text htext =>
            cases h
            exact ⟨package, text, hpackage, hverify, bytesOf_fromUtf8 htext, rfl⟩

theorem call_publish {wovyrpkg : List UInt8} {categories : List String} {channel : Option String}
    {manifest : PluginManifest} {version : PublishedVersion}
    (hadmitted : r.admitPackage crates wovyrpkg = .ok (manifest, version))
    : r.call crates state (.publish wovyrpkg categories channel) = .ok (state.upsertVersion
        manifest.metadata.publisher manifest.metadata.name version categories (channel.getD defaultChannel)) := by
  simp [call, publish, hadmitted, Except.map]

theorem step_publish {wovyrpkg : List UInt8} {categories : List String} {channel : Option String}
    {manifest : PluginManifest} {version : PublishedVersion}
    (hadmitted : r.admitPackage crates wovyrpkg = .ok (manifest, version))
    : r.step crates state (.publish wovyrpkg categories channel) = state.upsertVersion
        manifest.metadata.publisher manifest.metadata.name version categories (channel.getD defaultChannel) := by
  unfold step
  rw [call_publish hadmitted]

theorem judged_requestReview {id : String} {rec rec' : ListingRecord} (h : rec.requestReview = .ok rec')
    : Judged (.requestReview id) rec rec' := by
  unfold ListingRecord.requestReview at h
  split at h
  . cases h
  . split at h
    . cases h
    . cases h
      exact ⟨rfl, rfl, rfl, rfl, rfl⟩

theorem judged_approveReview {id reviewer : String} {rec rec' : ListingRecord}
    (h : rec.approveReview reviewer = .ok rec') : Judged (.approveReview id reviewer) rec rec' := by
  unfold ListingRecord.approveReview at h
  split at h
  . cases h
    exact ⟨rfl, rfl, rfl, rfl, rfl⟩
  . cases h

theorem judged_rejectReview {id reviewer reason : String} {rec rec' : ListingRecord}
    (h : rec.rejectReview reviewer reason = .ok rec') : Judged (.rejectReview id reviewer reason) rec rec' := by
  unfold ListingRecord.rejectReview at h
  split at h
  . cases h
    exact ⟨rfl, rfl, rfl, rfl, rfl⟩
  . cases h

theorem judged_resolveAbuseReport {id moderator : String} {reportId : Nat} {delist : Bool}
    {rec rec' : ListingRecord} (h : rec.resolveAbuseReport reportId moderator delist = .ok rec')
    : Judged (.resolveAbuseReport id reportId moderator delist) rec rec' := by
  unfold ListingRecord.resolveAbuseReport at h
  split at h
  . cases h
  . cases h
    exact ⟨rfl, rfl, rfl, rfl, rfl⟩

theorem judged_dismissAbuseReport {id moderator reason : String} {reportId : Nat} {rec rec' : ListingRecord}
    (h : rec.dismissAbuseReport reportId moderator reason = .ok rec')
    : Judged (.dismissAbuseReport id reportId moderator reason) rec rec' := by
  unfold ListingRecord.dismissAbuseReport at h
  split at h
  . cases h
  . cases h
    exact ⟨rfl, rfl, rfl, rfl, rfl⟩

theorem change_update {id : String} {f : ListingRecord → Except Error ListingRecord}
    (hcall : r.call crates state c = .ok state') (htarget : c.target = some id)
    (hupdate : state.update id f = .ok state') (hjudged : ∀ rec rec', f rec = .ok rec' → Judged c rec rec')
    : Change crates r state c state' := by
  obtain ⟨rec, rec', hrec, hf, hlistings⟩ := update_ok hupdate
  exact .listing hcall htarget hrec (hjudged rec rec' hf) hlistings

theorem change (r : Registry) (state : RegistryState) (c : Call)
    : Change crates r state c (r.step crates state c) := by
  unfold step
  cases hcall : r.call crates state c with
  | error e => exact .failed hcall
  | ok state' =>
    dsimp only
    cases c with
    | publish wovyrpkg categories channel =>
      simp only [call, publish] at hcall
      split at hcall
      . cases hcall
      next manifest version hadmitted =>
        cases hcall
        exact .publish hadmitted
    | setVerified id verified =>
      apply change_update (f := fun rec => .ok { rec with verified }) hcall rfl hcall
      rintro rec _ ⟨⟩
      exact ⟨rfl, rfl, rfl, rfl, rfl⟩
    | requestReview id => exact change_update hcall rfl hcall fun _ _ => judged_requestReview
    | approveReview id reviewer => exact change_update hcall rfl hcall fun _ _ => judged_approveReview
    | rejectReview id reviewer reason => exact change_update hcall rfl hcall fun _ _ => judged_rejectReview
    | reportAbuse id reporter reason =>
      have hupdate := hcall
      simp only [call] at hupdate
      split at hupdate
      . cases hupdate
      . apply change_update (f := fun rec => .ok (rec.reportAbuse reporter reason)) hcall rfl hupdate
        rintro rec _ ⟨⟩
        exact ⟨rfl, rfl, rfl, rfl, rfl⟩
    | resolveAbuseReport id reportId moderator delist =>
      exact change_update hcall rfl hcall fun _ _ => judged_resolveAbuseReport
    | dismissAbuseReport id reportId moderator reason =>
      exact change_update hcall rfl hcall fun _ _ => judged_dismissAbuseReport

end

end Wovyr.Marketplace.Registry
