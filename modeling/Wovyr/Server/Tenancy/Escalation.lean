import Wovyr.Lib.Run
import Wovyr.Server.Tenancy.Confinement

/-!
This module contains the scopes that principals come to hold through memberships in any run of
requests, and the requests after which a scope is held where nobody held it before.
-/

namespace Wovyr.Server.Tenancy

open TenancyState

inductive Place where
  | tenant (tenant : String)
  | project (id : String)
deriving Repr, DecidableEq, Inhabited

-- The memberships of the principal give it the scope, in one of the resolutions of roles.
def HeldAt (s : TenancyState) (headers : Headers) (scope : String) : Place → Prop
  | .tenant tenant =>
    requestTenant headers = tenant
      ∧ ((context none s headers none).can scope = true ∨ (tenantContext none s headers).can scope = true)
  | .project id => (context none s headers (some id)).can scope = true

def Held (s : TenancyState) (place : Place) (scope : String) : Prop :=
  ∃ headers, HeldAt s headers scope place

def Covers (s : TenancyState) (place : Place) (role : Role) : Prop :=
  ∀ scope, role.grants scope = true → Held s place scope

-- The role is not above the role that every administrator of the project has, or it is the caller's.
def Delegable (s : TenancyState) (headers : Headers) (id : String) (role : Role) : Prop :=
  (role ≠ .orgAdmin ∧ role ≠ .platformAdmin)
    ∨ ∃ r ∈ (context none s headers (some id)).roles, r = role ∨ r = .platformAdmin

def Bounded (s : TenancyState) (headers : Headers) : Request → Prop
  | .addMember id _ role =>
    (context none s headers (some id)).can "projects:admin" = true → Delegable s headers id role
  | .createOrg name =>
    let org := Organization.new (requestTenant headers) name
    (context none s headers none).can "org.admin" = true → s.getOrg org.id = none →
      ∀ m ∈ s.memberships, m.user ≠ "" → m.scope = .organization org.id →
        Covers s (.tenant org.tenant) m.role
  | .createProject name organization =>
    ∀ org, CreatesProject s headers name organization org →
      ∀ m ∈ s.memberships, m.user ≠ "" →
        (m.scope = .organization org.id → Covers s (.project (Project.new org name).id) m.role)
        ∧ (m.scope = .project (Project.new org name).id → Covers s (.tenant org.tenant) m.role)
  | _ => True

section

variable {s s' : TenancyState} {headers : Headers} {scope : String}

def Counts (s : TenancyState) (m : Membership) : Place → Prop
  | .tenant tenant => s.tenantOf m.scope = some tenant
  | .project id =>
    m.scope = .project id
      ∨ ∃ project, s.getProject id = some project ∧ m.scope = .organization project.organization

theorem applies_some_iff {tenant id : String} {m : Membership}
    : applies s tenant (some id) m = true ↔ Counts s m (.project id) := by
  unfold applies Counts
  cases m.scope with
  | project p =>
    simp only [beq_iff_eq, Option.some.injEq, MemberScope.project.injEq, reduceCtorEq, and_false,
      exists_false, or_false]
    exact eq_comm
  | organization o =>
    simp only [Option.isSome_some, if_true, Option.bind_some, beq_iff_eq, Option.map_eq_some_iff,
      reduceCtorEq, false_or, MemberScope.organization.injEq]
    exact exists_congr fun _ => and_congr_right fun _ => eq_comm

theorem isPlatformAdmin_none (principal : String) : isPlatformAdmin none principal = false := by
  simp [isPlatformAdmin]

theorem heldAt_iff (hs : s.WellFormed) {place : Place}
    : HeldAt s headers scope place ↔
        requestPrincipal headers ≠ ""
        ∧ (∀ tenant, place = .tenant tenant → requestTenant headers = tenant)
        ∧ ∃ m ∈ s.membershipsForUser (requestPrincipal headers),
            Counts s m place ∧ m.role.grants scope = true := by
  have hnone := isPlatformAdmin_none (requestPrincipal headers)
  cases place with
  | project id =>
    show (context none s headers (some id)).can scope = true ↔ _
    rw [can_iff_exists_membership hnone]
    simp [applies_some_iff]
  | tenant tenant =>
    unfold HeldAt
    rw [can_iff_exists_membership hnone, tenantContext_can_iff hs hnone]
    constructor
    . rintro ⟨rfl, ⟨hprincipal, m, hm, happlies, hgrants⟩ | ⟨hprincipal, m, hm, hin, hgrants⟩⟩
      . obtain ⟨o, own, hscope, hown, htenant⟩ := (applies_none_iff).mp happlies
        refine ⟨hprincipal, by simp, m, hm, ?_, hgrants⟩
        simp [Counts, hscope, tenantOf, hown, htenant]
      . exact ⟨hprincipal, by simp, m, hm, hin, hgrants⟩
    . rintro ⟨hprincipal, htenant, m, hm, hcounts, hgrants⟩
      have htenant := htenant tenant rfl
      refine ⟨htenant, .inr ⟨hprincipal, m, hm, ?_, hgrants⟩⟩
      rw [htenant]
      exact hcounts

def headersOf (principal tenant : String) : Headers :=
  ((∅ : Headers).insert "x-wovyr-tenant" tenant).insert "x-wovyr-principal" principal

theorem requestPrincipal_headersOf (principal tenant : String)
    : requestPrincipal (headersOf principal tenant) = principal := by
  simp [requestPrincipal, header, headersOf]

theorem requestTenant_headersOf (principal tenant : String)
    : requestTenant (headersOf principal tenant) = tenant := by
  unfold requestTenant header headersOf
  rw [Map.getElem?_insert_of_ne _ _ (by decide), Map.getElem?_insert, if_pos rfl]
  rfl

theorem held_iff (hs : s.WellFormed) {place : Place}
    : Held s place scope ↔
        ∃ m ∈ s.memberships, m.user ≠ "" ∧ Counts s m place ∧ m.role.grants scope = true := by
  unfold Held
  constructor
  . rintro ⟨headers, h⟩
    obtain ⟨hprincipal, -, m, hm, hcounts, hgrants⟩ := (heldAt_iff hs).mp h
    simp only [membershipsForUser, List.mem_filter, beq_iff_eq] at hm
    exact ⟨m, hm.1, hm.2 ▸ hprincipal, hcounts, hgrants⟩
  . rintro ⟨m, hm, huser, hcounts, hgrants⟩
    have hmember : m ∈ s.membershipsForUser m.user := by simp [membershipsForUser, hm]
    cases place with
    | project id =>
      refine ⟨headersOf m.user "", (heldAt_iff hs).mpr ?_⟩
      rw [requestPrincipal_headersOf]
      exact ⟨huser, by simp, m, hmember, hcounts, hgrants⟩
    | tenant tenant =>
      refine ⟨headersOf m.user tenant, (heldAt_iff hs).mpr ?_⟩
      rw [requestPrincipal_headersOf, requestTenant_headersOf]
      exact ⟨huser, fun _ h => Place.tenant.inj h, m, hmember, hcounts, hgrants⟩

theorem grants_of_projectAdmin {r role : Role} (hr : r.grants "projects:admin" = true)
    (hbelow : role ≠ .orgAdmin ∧ role ≠ .platformAdmin) (h : role.grants scope = true)
    : r.grants scope = true := by
  have hscope : scope ≠ "platform.admin" ∧ scope ≠ "org.admin" ∧ scope ≠ "users:admin" := by
    refine ⟨?_, ?_, ?_⟩
    all_goals
      rintro rfl
      revert h hbelow
      cases role <;> decide
  cases r with
  | viewer => exact absurd hr (by decide)
  | editor => exact absurd hr (by decide)
  | projectAdmin => simp [Role.grants, hscope]
  | orgAdmin => simp [Role.grants, hscope.1]
  | platformAdmin => rfl

theorem grants_of_eq_or_platformAdmin {r role : Role} (hr : r = role ∨ r = .platformAdmin)
    (h : role.grants scope = true) : r.grants scope = true := by
  cases hr with
  | inl heq => rw [heq, h]
  | inr hplatform => rw [hplatform]; rfl

theorem delegable_iff {id : String} {role : Role}
    (hcan : (context none s headers (some id)).can "projects:admin" = true)
    : Delegable s headers id role ↔
        ∀ scope, role.grants scope = true → (context none s headers (some id)).can scope = true := by
  obtain ⟨admin, hadmin, hadminGrants⟩ := (TenantContext.can_iff _ _).mp hcan
  constructor
  . intro hdelegable scope hgrants
    rw [TenantContext.can_iff]
    cases hdelegable with
    | inl hbelow => exact ⟨admin, hadmin, grants_of_projectAdmin hadminGrants hbelow hgrants⟩
    | inr hown =>
      obtain ⟨r, hr, hrole⟩ := hown
      exact ⟨r, hr, grants_of_eq_or_platformAdmin hrole hgrants⟩
  . intro hcovered
    cases role with
    | viewer | editor | projectAdmin => exact .inl ⟨nofun, nofun⟩
    | orgAdmin =>
      obtain ⟨r, hr, hgrants⟩ := (TenantContext.can_iff _ _).mp (hcovered "org.admin" (by decide))
      refine .inr ⟨r, hr, ?_⟩
      revert hgrants
      cases r <;> decide
    | platformAdmin =>
      obtain ⟨r, hr, hgrants⟩ :=
        (TenantContext.can_iff _ _).mp (hcovered "platform.admin" (by decide))
      refine .inr ⟨r, hr, ?_⟩
      revert hgrants
      cases r <;> decide

theorem context_eq {admins : PlatformAdmins} (project : Option String)
    (hadmin : isPlatformAdmin admins (requestPrincipal headers) = false)
    : context admins s headers project = context none s headers project := by
  simp only [context, hadmin, isPlatformAdmin_none]

theorem held_of_counts (hs : s.WellFormed) (hs' : s'.WellFormed) {place : Place}
    (h : ∀ m ∈ s'.memberships, m.user ≠ "" → Counts s' m place →
      (m ∈ s.memberships ∧ Counts s m place) ∨ Covers s place m.role)
    : Held s' place scope → Held s place scope := by
  intro hheld
  obtain ⟨m, hm, huser, hcounts, hgrants⟩ := (held_iff hs').mp hheld
  cases h m hm huser hcounts with
  | inl hbefore => exact (held_iff hs).mpr ⟨m, hbefore.1, huser, hbefore.2, hgrants⟩
  | inr hcovers => exact hcovers scope hgrants

theorem counts_insertOrg {org : Organization} {m : Membership} {place : Place}
    (hcounts : Counts { s with orgs := s.orgs.insert org.id org } m place)
    : Counts s m place ∨ (place = .tenant org.tenant ∧ m.scope = .organization org.id) := by
  cases place with
  | project id => exact .inl hcounts
  | tenant tenant =>
    unfold Counts at hcounts ⊢
    cases hscope : m.scope with
    | project p =>
      rw [hscope] at hcounts
      exact .inl hcounts
    | organization o =>
      rw [hscope] at hcounts
      simp only [tenantOf, getOrg] at hcounts ⊢
      rw [Map.getElem?_insert] at hcounts
      split at hcounts
      next heq =>
        rw [Option.map_some, Option.some.injEq] at hcounts
        exact .inr ⟨by rw [hcounts], by rw [heq]⟩
      next => exact .inl hcounts

theorem counts_insertProject {id : String} {project : Project} {m : Membership} {place : Place}
    (hcounts : Counts { s with projects := s.projects.insert id project } m place)
    : Counts s m place ∨ (place = .tenant project.tenant ∧ m.scope = .project id)
        ∨ (place = .project id ∧ m.scope = .organization project.organization) := by
  cases place with
  | project p =>
    unfold Counts at hcounts ⊢
    cases hcounts with
    | inl hscope => exact .inl (.inl hscope)
    | inr horg =>
      obtain ⟨found, hfound, hscope⟩ := horg
      simp only [TenancyState.getProject] at hfound
      rcases Map.of_insert hfound with ⟨heq, rfl⟩ | hfound
      . exact .inr (.inr ⟨by rw [heq], hscope⟩)
      . exact .inl (.inr ⟨found, hfound, hscope⟩)
  | tenant tenant =>
    unfold Counts at hcounts ⊢
    cases hscope : m.scope with
    | organization o =>
      rw [hscope] at hcounts
      exact .inl hcounts
    | project p =>
      rw [hscope] at hcounts
      simp only [tenantOf, TenancyState.getProject] at hcounts ⊢
      rw [Map.getElem?_insert] at hcounts
      split at hcounts
      next heq =>
        rw [Option.map_some, Option.some.injEq] at hcounts
        exact .inr (.inl ⟨by rw [hcounts], by rw [heq]⟩)
      next => exact .inl hcounts

theorem covers_of_delegable (hs : s.WellFormed) {id : String} {role : Role} {place : Place}
    (hcan : (context none s headers (some id)).can "projects:admin" = true)
    (hdelegable : Delegable s headers id role) (hcounts : Counts s ⟨"", role, .project id⟩ place)
    : Covers s place role := by
  intro scope hgrants
  have hscope := (delegable_iff hcan).mp hdelegable scope hgrants
  rw [can_iff_exists_membership (isPlatformAdmin_none _)] at hscope
  obtain ⟨hprincipal, m, hm, happlies, hmgrants⟩ := hscope
  simp only [membershipsForUser, List.mem_filter, beq_iff_eq] at hm
  refine (held_iff hs).mpr ⟨m, hm.1, hm.2 ▸ hprincipal, ?_, hmgrants⟩
  have hproject := (applies_some_iff).mp happlies
  cases place with
  | project id' =>
    unfold Counts at hcounts
    simp only [MemberScope.project.injEq, reduceCtorEq, and_false, exists_false, or_false] at hcounts
    rw [← hcounts]
    exact hproject
  | tenant tenant =>
    cases hproject with
    | inl hscope =>
      unfold Counts
      rw [hscope]
      exact hcounts
    | inr horg =>
      obtain ⟨project, found, hscope⟩ := horg
      obtain ⟨org, horg, htenant⟩ := hs.project_org id project found
      unfold Counts at hcounts ⊢
      simp only [tenantOf, found, Option.map_some] at hcounts
      rw [hscope]
      simp only [tenantOf, horg, Option.map_some, htenant]
      exact hcounts

theorem held_of_change (hs : s.WellFormed) {admins : PlatformAdmins} {r : Request} {place : Place}
    (hadmin : isPlatformAdmin admins (requestPrincipal headers) = false)
    (h : Change admins headers s r s') (hbounded : Bounded s headers r)
    : Held s' place scope → Held s place scope := by
  have hs' := h.wellFormed hs
  cases h with
  | same => exact id
  | orgCreated org name can new fresh =>
    apply held_of_counts hs hs'
    intro m hm huser hcounts
    cases counts_insertOrg hcounts with
    | inl hbefore => exact .inl ⟨hm, hbefore⟩
    | inr hnew =>
      obtain ⟨rfl, hscope⟩ := hnew
      subst new
      rw [context_eq none hadmin] at can
      exact .inr (hbounded can fresh m hm huser hscope)
  | projectCreated org name organization project can named new fresh =>
    apply held_of_counts hs hs'
    intro m hm huser hcounts
    subst new
    have hbounded := hbounded org (createsProject_of_can hadmin can named fresh) m hm huser
    cases counts_insertProject hcounts with
    | inl hbefore => exact .inl ⟨hm, hbefore⟩
    | inr hnew =>
      cases hnew with
      | inl htenant =>
        obtain ⟨rfl, hscope⟩ := htenant
        exact .inr (hbounded.2 hscope)
      | inr hproject =>
        obtain ⟨rfl, hscope⟩ := hproject
        exact .inr (hbounded.1 hscope)
  | projectUpdated _ id old project can found same_id same_org same_tenant =>
    apply held_of_counts hs hs'
    intro m hm huser hcounts
    refine .inl ⟨hm, ?_⟩
    cases counts_insertProject hcounts with
    | inl hbefore => exact hbefore
    | inr hnew =>
      cases hnew with
      | inl htenant =>
        obtain ⟨rfl, hscope⟩ := htenant
        simp [Counts, hscope, tenantOf, found, same_tenant]
      | inr hproject =>
        obtain ⟨rfl, hscope⟩ := hproject
        exact .inr ⟨old, found, same_org ▸ hscope⟩
  | memberAdded id user role can =>
    apply held_of_counts hs hs'
    intro m hm huser hcounts
    rw [context_eq (some id) hadmin] at can
    cases List.mem_append.mp hm with
    | inl hold => exact .inl ⟨(List.mem_filter.mp hold).1, hcounts⟩
    | inr hnew =>
      cases List.mem_singleton.mp hnew
      exact .inr (covers_of_delegable hs can (hbounded can) hcounts)
  | memberRemoved id user can =>
    apply held_of_counts hs hs'
    intro m hm huser hcounts
    exact .inl ⟨(List.mem_filter.mp hm).1, hcounts⟩
  | quotaSet id limits project can found =>
    apply held_of_counts hs hs'
    intro m hm huser hcounts
    exact .inl ⟨hm, hcounts⟩

theorem addMember_can {admins : PlatformAdmins} {id user : String} {role : Role}
    {result : Response × TenancyState} (h : addMember admins s headers id user role = .ok result)
    : (context admins s headers (some id)).can "projects:admin" = true := by
  unfold addMember at h
  simp only [bind_eq_ok, liftM_eq_ok, TenantContext.authorize_eq_ok] at h
  exact h.choose_spec.1

end

/--
In every run of requests by principals that are not platform admins: a scope that somebody holds in
the end was held there in the beginning, and who adds a member holds all scopes of its role, if no
request assigns a role above the caller's or makes a membership count whose role is not covered.
-/
theorem held_of_run (admins : PlatformAdmins) (c : Catalog) (requests : List (Headers × Request))
    (s : TenancyState)
    (hrun : Run (Guarded
        (fun s r => isPlatformAdmin admins (requestPrincipal r.1) = false ∧ Bounded s r.1 r.2)
        (fun s r => step admins s r.1 r.2)) c.state requests s)
    : (∀ headers place scope, HeldAt s headers scope place → Held c.state place scope)
      ∧ ∀ headers id user role result,
          isPlatformAdmin admins (requestPrincipal headers) = false →
          Bounded s headers (.addMember id user role) →
          addMember admins s headers id user role = .ok result →
          ∀ scope, role.grants scope = true → (context admins s headers (some id)).can scope = true := by
  have hinv : s.WellFormed ∧ ∀ place scope, Held s place scope → Held c.state place scope := by
    apply Run.invariant (P := fun s => s.WellFormed
      ∧ ∀ place scope, Held s place scope → Held c.state place scope) _ hrun
    . exact ⟨c.wellFormed, fun _ _ h => h⟩
    . rintro s r _ ⟨hs, hheld⟩ ⟨⟨hadmin, hbounded⟩, rfl⟩
      have hchange : Change admins r.1 s r.2 (step admins s r.1 r.2) := step_change hs r.2
      exact ⟨hchange.wellFormed hs,
        fun place scope h => hheld place scope (held_of_change hs hadmin hchange hbounded h)⟩
  constructor
  . intro headers place scope h
    exact hinv.2 place scope ⟨headers, h⟩
  . intro headers id user role result hadmin hbounded hok scope hgrants
    have hcan := addMember_can hok
    rw [context_eq (some id) hadmin] at hcan ⊢
    exact (delegable_iff hcan).mp (hbounded hcan) scope hgrants

theorem held_editor_added
    : (∃ m ∈ (step none oneProject.state malloryHeaders (.addMember "prj-ops-bot" "bob" .editor)).memberships,
          m.user = "bob")
        ∧ ∀ headers place scope,
          HeldAt (step none oneProject.state malloryHeaders (.addMember "prj-ops-bot" "bob" .editor))
            headers scope place → Held oneProject.state place scope := by
  refine ⟨by decide, ?_⟩
  have hrun := held_of_run none oneProject
    [(malloryHeaders, .addMember "prj-ops-bot" "bob" .editor)] _
    (.cons ⟨⟨rfl, fun _ => .inl ⟨nofun, nofun⟩⟩, rfl⟩ (.nil _))
  exact hrun.1

theorem not_held_orgAdmin_added
    : ¬∀ (admins : PlatformAdmins) (c : Catalog) (headers : Headers) (r : Request),
        isPlatformAdmin admins (requestPrincipal headers) = false →
        ∀ headers' place scope, HeldAt (step admins c.state headers r) headers' scope place →
          Held c.state place scope := by
  intro h
  have hheld := h none oneProject malloryHeaders (.addMember "prj-ops-bot" "mallory" .orgAdmin)
    (by decide) malloryHeaders (.project "prj-ops-bot") "org.admin" (by
      unfold HeldAt
      decide)
  obtain ⟨m, hm, -, -, hgrants⟩ := (held_iff oneProject.wellFormed).mp hheld
  cases List.mem_singleton.mp hm
  revert hgrants
  decide

end Wovyr.Server.Tenancy
