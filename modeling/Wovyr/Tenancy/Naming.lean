import Wovyr.Lib.Map
import Wovyr.Lib.Run
import Wovyr.Tenancy.Model

/-!
This module contains the ids that organizations and projects get from their names, over any sequence
of creations, and the names whose slugs run into each other.
-/

namespace Wovyr

open Organization

namespace TenancyState

inductive Creation where
  | org (tenant name : String)
  | project (organization name : String)
deriving Repr, DecidableEq, Inhabited

def runCreation (s : TenancyState) : Creation → Except Error TenancyState
  | .org tenant name => do
    let (_, s) ← s.createOrg (new tenant name)
    return s
  | .project organization name =>
    match s.getOrg organization with
    | none => .error (.notFound "organization not found")
    | some org => do
      let (_, s) ← s.createProject (Project.new org name)
      return s

def create (s : TenancyState) (c : Creation) : TenancyState :=
  match s.runCreation c with
  | .ok s => s
  | .error _ => s

-- The only names that a creation is refused for are those of the same tenant or organization.
def Local (s : TenancyState) : Creation → Prop
  | .org tenant name =>
    (∃ msg, s.createOrg (new tenant name) = .error (.conflict msg))
      ↔ ∃ id org, s.getOrg id = some org ∧ org.tenant = tenant ∧ slug org.name = slug name
  | .project organization name =>
    ∀ org, s.getOrg organization = some org →
      ((∃ msg, s.createProject (Project.new org name) = .error (.conflict msg))
        ↔ ∃ id project, s.getProject id = some project ∧ project.organization = organization
          ∧ slug project.name = slug name)

-- Whatever is there with slugs that run into those of the creation has its tenant and its slug.
def Apart (s : TenancyState) : Creation → Prop
  | .org tenant name =>
    ∀ id org, s.getOrg id = some org →
      Text.Overlap "-" (slug org.tenant) (slug org.name) (slug tenant) (slug name) →
      org.tenant = tenant ∧ slug org.name = slug name
  | .project organization name =>
    ∀ id project org own, s.getProject id = some project → s.getOrg project.organization = some own →
      s.getOrg organization = some org →
      Text.Overlap "-" (slug own.name) (slug project.name) (slug org.name) (slug name) →
      project.organization = organization ∧ slug project.name = slug name

-- Two pairs with one id have the same tenant and the same slugs.
def OrgsDistinct (tenant name tenant' name' : String) : Prop :=
  (new tenant name).id = (new tenant' name').id →
    tenant = tenant' ∧ slug name = slug name'

def ProjectsDistinct (org org' : Organization) (name name' : String) : Prop :=
  (Project.new org name).id = (Project.new org' name').id →
    org.tenant = org'.tenant ∧ slug org.name = slug org'.name ∧ slug name = slug name'

section

variable {s : TenancyState}

theorem dash_toList : "-".toList = ['-'] :=
  rfl

theorem orgId_eq_iff (tenant name tenant' name' : String)
    : (new tenant name).id = (new tenant' name').id
        ↔ Text.Overlap "-" (slug tenant) (slug name) (slug tenant') (slug name') := by
  rw [← Text.joined_eq_iff dash_toList]
  unfold new
  simp only [String.append_assoc, String.append_right_inj]

theorem projectId_eq_iff (org org' : Organization) (name name' : String)
    : (Project.new org name).id = (Project.new org' name').id
        ↔ Text.Overlap "-" (slug org.name) (slug name) (slug org'.name) (slug name') := by
  rw [← Text.joined_eq_iff dash_toList]
  unfold Project.new
  simp only [String.append_assoc, String.append_right_inj]

structure Named (s : TenancyState) : Prop where
  orgs : ∀ id org, s.getOrg id = some org → org = new org.tenant org.name ∧ org.id = id
  projects : ∀ id project, s.getProject id = some project →
    project.id = id ∧ ∃ own, s.getOrg project.organization = some own
      ∧ project.id = (Project.new own project.name).id

theorem named_empty : empty.Named := by
  constructor <;> intro id x h <;> simp [empty, getOrg, getProject] at h

theorem createOrg_eq_conflict_iff {org : Organization}
    : (∃ msg, s.createOrg org = .error (.conflict msg)) ↔ (s.getOrg org.id).isSome = true := by
  unfold createOrg getOrg
  rw [← Std.ExtTreeMap.contains_eq_isSome_getElem?]
  split
  . next h => simp [h]
  . next h => simp [h]

theorem createProject_eq_conflict_iff {project : Project} {org : Organization}
    (horg : s.getOrg project.organization = some org)
    : (∃ msg, s.createProject project = .error (.conflict msg))
        ↔ (s.getProject project.id).isSome = true := by
  have hcontains : s.orgs.contains project.organization = true := by
    rw [Std.ExtTreeMap.contains_eq_isSome_getElem?]
    exact Option.isSome_iff_exists.mpr ⟨org, horg⟩
  unfold createProject getProject
  rw [← Std.ExtTreeMap.contains_eq_isSome_getElem?, hcontains]
  simp only [Bool.not_true, Bool.false_eq_true, if_false]
  split
  . next h => simp [h]
  . next h => simp [h]

theorem named_createOrg (hs : s.Named) (tenant name : String)
    (fresh : s.getOrg (new tenant name).id = none)
    : { s with orgs := s.orgs.insert (new tenant name).id (new tenant name)
      : TenancyState }.Named := by
  constructor
  . intro id org horg
    simp only [getOrg, Map.getElem?_insert] at horg
    split at horg
    . next heq =>
      cases horg
      exact ⟨rfl, heq⟩
    . exact hs.orgs id org horg
  . intro id project hproject
    obtain ⟨hid, own, hown, hname⟩ := hs.projects id project hproject
    refine ⟨hid, own, ?_, hname⟩
    have hne : (new tenant name).id ≠ project.organization := by
      intro heq
      rw [heq, hown] at fresh
      cases fresh
    simp only [getOrg]
    rw [Map.getElem?_insert_of_ne _ _ hne]
    exact hown

theorem named_createProject (hs : s.Named) {org : Organization} {organization : String} (name : String)
    (horg : s.getOrg organization = some org)
    : { s with projects := s.projects.insert (Project.new org name).id (Project.new org name)
      : TenancyState }.Named := by
  constructor
  . exact hs.orgs
  . intro id project hproject
    simp only [getProject, Map.getElem?_insert] at hproject
    split at hproject
    . next heq =>
      cases hproject
      refine ⟨heq, org, ?_, rfl⟩
      have hid := (hs.orgs organization org horg).2
      simp only [Project.new]
      rw [hid]
      exact horg
    . exact hs.projects id project hproject

theorem named_create (hs : s.Named) (c : Creation) : (s.create c).Named := by
  unfold create
  cases hrun : s.runCreation c with
  | error e => exact hs
  | ok t =>
    cases c with
    | org tenant name =>
      unfold runCreation createOrg at hrun
      dsimp only at hrun
      split at hrun
      . cases hrun
      . next hfresh =>
        cases hrun
        apply named_createOrg hs
        simpa [getOrg] using hfresh
    | project organization name =>
      unfold runCreation at hrun
      dsimp only at hrun
      split at hrun
      . cases hrun
      . next org horg =>
        unfold createProject at hrun
        split at hrun
        . cases hrun
        . split at hrun
          . cases hrun
          . cases hrun
            exact named_createProject hs name horg

theorem named_creations (hs : s.Named) (creations : List Creation)
    : (creations.foldl create s).Named := by
  induction creations generalizing s with
  | nil => exact hs
  | cons c creations ih => exact ih (named_create hs c)

theorem overlap_of_named (hs : s.Named) {id tenant name : String} {org : Organization}
    (horg : s.getOrg id = some org)
    : id = (new tenant name).id
        ↔ Text.Overlap "-" (slug org.tenant) (slug org.name) (slug tenant) (slug name) := by
  obtain ⟨hnew, hid⟩ := hs.orgs id org horg
  rw [← orgId_eq_iff, ← hnew, hid]

theorem localOrg_iff (hs : s.Named) (tenant name : String)
    : s.Local (.org tenant name) ↔ s.Apart (.org tenant name) := by
  unfold Local Apart
  dsimp only
  rw [createOrg_eq_conflict_iff, Option.isSome_iff_exists]
  constructor
  . intro hlocal id org horg hoverlap
    have hid := (overlap_of_named hs horg).mpr hoverlap
    rw [hid] at horg
    -- An organization of the tenant with the slug has the same id, so it is this one.
    obtain ⟨id', org', horg', htenant, hslug⟩ := hlocal.mp ⟨org, horg⟩
    have hid' : id' = (new tenant name).id := by
      rw [overlap_of_named hs horg', htenant, hslug]
      exact .inl ⟨rfl, rfl⟩
    rw [hid', horg] at horg'
    cases horg'
    exact ⟨htenant, hslug⟩
  . intro hapart
    constructor
    . rintro ⟨org, horg⟩
      exact ⟨_, org, horg, hapart _ org horg ((overlap_of_named hs horg).mp rfl)⟩
    . rintro ⟨id, org, horg, htenant, hslug⟩
      have hid : id = (new tenant name).id := by
        rw [overlap_of_named hs horg, htenant, hslug]
        exact .inl ⟨rfl, rfl⟩
      exact ⟨org, hid ▸ horg⟩

theorem projectOverlap_of_named (hs : s.Named) {id name : String} {project : Project}
    {own org : Organization} (hproject : s.getProject id = some project)
    (hown : s.getOrg project.organization = some own)
    : id = (Project.new org name).id
        ↔ Text.Overlap "-" (slug own.name) (slug project.name) (slug org.name) (slug name) := by
  obtain ⟨hid, own', hown', hname⟩ := hs.projects id project hproject
  rw [hown] at hown'
  cases hown'
  rw [← projectId_eq_iff, ← hname, hid]

theorem localProject_iff (hs : s.Named) (organization name : String)
    : s.Local (.project organization name) ↔ s.Apart (.project organization name) := by
  unfold Local Apart
  dsimp only
  have hconflict : ∀ org, s.getOrg organization = some org →
      ((∃ msg, s.createProject (Project.new org name) = .error (.conflict msg))
        ↔ ∃ project, s.getProject (Project.new org name).id = some project) := by
    intro org horg
    rw [← Option.isSome_iff_exists]
    have hown : s.getOrg (Project.new org name).organization = some org := by
      have hid := (hs.orgs organization org horg).2
      simp only [Project.new]
      rw [hid]
      exact horg
    exact createProject_eq_conflict_iff hown
  -- A project of the organization with the slug has the id of the new one.
  have hsame : ∀ org, s.getOrg organization = some org → ∀ id project,
      s.getProject id = some project → project.organization = organization →
      slug project.name = slug name → id = (Project.new org name).id := by
    intro org horg id project hproject horganization hslug
    have hown : s.getOrg project.organization = some org := by rw [horganization, horg]
    rw [projectOverlap_of_named hs hproject hown, hslug]
    exact .inl ⟨rfl, rfl⟩
  constructor
  . intro hlocal id project org own hproject hown horg hoverlap
    have hid := (projectOverlap_of_named hs hproject hown).mpr hoverlap
    rw [hid] at hproject
    obtain ⟨id', project', hproject', horganization, hslug⟩ :=
      (hlocal org horg).mp ((hconflict org horg).mpr ⟨project, hproject⟩)
    rw [hsame org horg id' project' hproject' horganization hslug, hproject] at hproject'
    cases hproject'
    exact ⟨horganization, hslug⟩
  . intro hapart org horg
    rw [hconflict org horg]
    constructor
    . rintro ⟨project, hproject⟩
      obtain ⟨-, own, hown, -⟩ := hs.projects _ project hproject
      exact ⟨_, project, hproject, hapart _ project org own hproject hown horg
        ((projectOverlap_of_named hs hproject hown).mp rfl)⟩
    . rintro ⟨id, project, hproject, horganization, hslug⟩
      exact ⟨project, hsame org horg id project hproject horganization hslug ▸ hproject⟩

end

/--
After any sequence of creations, a creation is refused for the names of its own tenant or
organization alone if and only if the slugs of no other name run into its own; and the ids of two
pairs are kept apart if and only if their slugs do not run into each other.
-/
theorem local_iff_apart (creations : List Creation) (c : Creation)
    : ((creations.foldl create empty).Local c ↔ (creations.foldl create empty).Apart c)
      ∧ (∀ tenant name tenant' name', OrgsDistinct tenant name tenant' name'
          ↔ (Text.Overlap "-" (slug tenant) (slug name) (slug tenant') (slug name') →
            tenant = tenant' ∧ slug name = slug name'))
      ∧ ∀ org org' name name', ProjectsDistinct org org' name name'
          ↔ (Text.Overlap "-" (slug org.name) (slug name) (slug org'.name) (slug name') →
            org.tenant = org'.tenant ∧ slug org.name = slug org'.name ∧ slug name = slug name') := by
  have hnamed := named_creations named_empty creations
  refine ⟨?_, ?_, ?_⟩
  . cases c with
    | org tenant name => exact localOrg_iff hnamed tenant name
    | project organization name => exact localProject_iff hnamed organization name
  . intro tenant name tenant' name'
    unfold OrgsDistinct
    rw [orgId_eq_iff]
  . intro org org' name name'
    unfold ProjectsDistinct
    rw [projectId_eq_iff]

theorem not_local_shared_slug
    : ¬(empty.create (.org "acme" "eu ops")).Local (.org "acme eu" "ops")
        ∧ ¬OrgsDistinct "acme" "eu ops" "acme eu" "ops" := by
  constructor
  . intro hlocal
    have hconflict : ∃ msg, (empty.create (.org "acme" "eu ops")).createOrg
        (new "acme eu" "ops") = .error (.conflict msg) := by
      rw [createOrg_eq_conflict_iff]
      decide
    obtain ⟨id, org, horg, htenant, -⟩ := hlocal.mp hconflict
    have horgs : (empty.create (.org "acme" "eu ops")).orgs.toList
        = [("org-acme-eu-ops", new "acme" "eu ops")] := by
      decide
    unfold getOrg at horg
    rw [← Std.ExtTreeMap.mem_toList_iff_getElem?_eq_some, horgs, List.mem_singleton] at horg
    cases horg
    revert htenant
    decide
  . intro hdistinct
    exact absurd (hdistinct (by decide)).1 (by decide)

end Wovyr.TenancyState
