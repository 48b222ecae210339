import Wovyr.Lib.Map
import Wovyr.Server.Tenancy

/-!
This module contains the proof that the handlers of the control plane are confined to the tenants
in which the principal of a request is a member, and the one handler for which this depends on the
request.
-/

namespace Wovyr.TenancyState

def tenantOf (s : TenancyState) : MemberScope → Option String
  | .organization o => (s.getOrg o).map (·.tenant)
  | .project p => (s.getProject p).map (·.tenant)

-- The user is a member of an organization or project of the tenant.
def MemberIn (s : TenancyState) (user tenant : String) : Prop :=
  ∃ m ∈ s.memberships, m.user = user ∧ s.tenantOf m.scope = some tenant

-- The organization or project is the same in both catalogs, with its members and its quota.
def Unchanged (s s' : TenancyState) (scope : MemberScope) : Prop :=
  (match scope with
    | .organization o => s.getOrg o = s'.getOrg o
    | .project p => s.getProject p = s'.getProject p)
  ∧ s.listMemberships scope = s'.listMemberships scope
  ∧ s.getQuota scope.id = s'.getQuota scope.id

structure WellFormed (s : TenancyState) : Prop where
  org_id : ∀ id o, s.getOrg id = some o → o.id = id ∧ ∃ rest, id = "org-" ++ rest
  project_id : ∀ id p, s.getProject id = some p → p.id = id ∧ ∃ rest, id = "prj-" ++ rest
  project_org : ∀ id p, s.getProject id = some p →
    ∃ o, s.getOrg p.organization = some o ∧ o.tenant = p.tenant

theorem wellFormed_empty : empty.WellFormed := by
  constructor <;> intro id x h <;> simp [empty, getOrg, getProject] at h

theorem ids_disjoint (rest rest' : String) : "org-" ++ rest ≠ "prj-" ++ rest' := by
  intro h
  have := congrArg String.toList h
  simp at this

theorem WellFormed.org_of_project {s : TenancyState} (hs : s.WellFormed) {id : String} {p : Project}
    (hp : s.getProject id = some p) : s.getOrg id = none := by
  match h : s.getOrg id with
  | none => rfl
  | some o =>
    obtain ⟨-, rest, hrest⟩ := hs.org_id id o h
    obtain ⟨-, rest', hrest'⟩ := hs.project_id id p hp
    exact absurd (hrest.symm.trans hrest') (ids_disjoint rest rest')

theorem Unchanged.refl (s : TenancyState) (scope : MemberScope) : s.Unchanged s scope := by
  unfold Unchanged
  cases scope <;> simp

theorem MemberIn.of_scope {s : TenancyState} {m : Membership} {user tenant : String}
    (hm : m ∈ s.membershipsForUser user) (hscope : s.tenantOf m.scope = some tenant)
    : s.MemberIn user tenant := by
  simp only [membershipsForUser, List.mem_filter, beq_iff_eq] at hm
  exact ⟨m, hm.1, hm.2, hscope⟩

end TenancyState

namespace Server.Tenancy

open TenancyState

variable (admins : PlatformAdmins) (headers : Headers)

inductive Change (s : TenancyState) : Request → TenancyState → Prop where
  | same (r : Request) : Change s r s
  | orgCreated (org : Organization) (name : String)
      (can : (context admins s headers none).can "org.admin" = true)
      (new : org = Organization.new (requestTenant headers) name)
      (fresh : s.getOrg org.id = none)
      : Change s (.createOrg name) { s with orgs := s.orgs.insert org.id org }
  | projectCreated (org : Organization) (name organization : String) (project : Project)
      (can : (context admins s headers none).can "projects:admin" = true)
      (named : s.getOrg organization = some org)
      (new : project = Project.new org name)
      (fresh : s.getProject project.id = none)
      : Change s (.createProject name organization)
          { s with projects := s.projects.insert project.id project }
  | projectUpdated (r : Request) (id : String) (old project : Project)
      (can : (context admins s headers (some id)).can "projects:admin" = true)
      (found : s.getProject id = some old)
      (same_id : project.id = old.id)
      (same_org : project.organization = old.organization)
      (same_tenant : project.tenant = old.tenant)
      : Change s r { s with projects := s.projects.insert id project }
  | memberAdded (id user : String) (role : Role)
      (can : (context admins s headers (some id)).can "projects:admin" = true)
      : Change s (.addMember id user role)
          { s with memberships := s.retainOthers user (.project id) ++ [⟨user, role, .project id⟩] }
  | memberRemoved (id user : String)
      (can : (context admins s headers (some id)).can "projects:admin" = true)
      : Change s (.removeMember id user)
          { s with memberships := s.retainOthers user (.project id) }
  | quotaSet (id : String) (limits : QuotaLimits) (project : Project)
      (can : (context admins s headers (some id)).can "org.admin" = true)
      (found : s.getProject id = some project)
      : Change s (.setQuota id limits) { s with quotas := s.quotas.insert id limits }

variable {admins : PlatformAdmins} {headers : Headers} {s s' : TenancyState} {resp : Response}

theorem createOrg_change {name : String} (h : createOrg admins s headers name = .ok (resp, s'))
    : Change admins headers s (.createOrg name) s' := by
  unfold createOrg at h
  simp only [bind_eq_ok, liftM_eq_ok, TenantContext.authorize_eq_ok] at h
  obtain ⟨-, can, ⟨org, s₁⟩, hcreate, hret⟩ := h
  unfold TenancyState.createOrg at hcreate
  split at hcreate
  . cases hcreate
  . next fresh =>
    cases hcreate
    cases hret
    apply Change.orgCreated _ name can rfl
    simpa [getOrg, context] using fresh

theorem createProject_change {name organization : String}
    (h : createProject admins s headers name organization = .ok (resp, s'))
    : Change admins headers s (.createProject name organization) s' := by
  unfold createProject at h
  simp only [bind_eq_ok, liftM_eq_ok, TenantContext.authorize_eq_ok] at h
  obtain ⟨-, can, h⟩ := h
  split at h
  . next org named =>
    simp only [bind_eq_ok, liftM_eq_ok] at h
    obtain ⟨⟨project, s₁⟩, hcreate, hret⟩ := h
    unfold TenancyState.createProject at hcreate
    split at hcreate
    . cases hcreate
    . split at hcreate
      . cases hcreate
      . next fresh =>
        cases hcreate
        cases hret
        apply Change.projectCreated org name organization _ can named rfl
        simpa [TenancyState.getProject] using fresh
  . cases h

theorem patchProject_change {id : String} {settings : Option (Std.ExtTreeMap String Value)}
    {status : Option ProjectStatus} (hs : s.WellFormed)
    (h : patchProject admins s headers id settings status = .ok (resp, s'))
    : Change admins headers s (.patchProject id settings status) s' := by
  unfold patchProject at h
  simp only [bind_eq_ok, liftM_eq_ok, TenantContext.authorize_eq_ok] at h
  obtain ⟨-, can, h⟩ := h
  split at h
  . next project found =>
    have hid := (hs.project_id id project found).1
    simp only [bind_eq_ok, liftM_eq_ok] at h
    obtain ⟨-, -, s₁, hupdate, hret⟩ := h
    unfold TenancyState.updateProject at hupdate
    split at hupdate
    . cases hupdate
    . cases hupdate
      cases hret
      rw [← hid] at found can
      exact Change.projectUpdated _ project.id project _ can found rfl rfl rfl
  . cases h

theorem deleteProject_change {id : String}
    (h : deleteProject admins s headers id = .ok (resp, s')) : Change admins headers s (.deleteProject id) s' := by
  unfold deleteProject at h
  simp only [bind_eq_ok, liftM_eq_ok, TenantContext.authorize_eq_ok] at h
  obtain ⟨-, can, s₁, hdelete, hret⟩ := h
  unfold TenancyState.deleteProject at hdelete
  split at hdelete
  . cases hdelete
  . next project found =>
    cases hdelete
    cases hret
    exact Change.projectUpdated _ id project _ can found rfl rfl rfl

theorem addMember_change {id user : String} {role : Role}
    (h : addMember admins s headers id user role = .ok (resp, s'))
    : Change admins headers s (.addMember id user role) s' := by
  unfold addMember at h
  simp only [bind_eq_ok, liftM_eq_ok, TenantContext.authorize_eq_ok] at h
  obtain ⟨-, can, s₁, hadd, hret⟩ := h
  cases hadd
  cases hret
  exact Change.memberAdded id user role can

theorem removeMember_change {id uid : String}
    (h : removeMember admins s headers id uid = .ok (resp, s')) : Change admins headers s (.removeMember id uid) s' := by
  unfold removeMember at h
  simp only [bind_eq_ok, liftM_eq_ok, TenantContext.authorize_eq_ok] at h
  obtain ⟨-, can, s₁, hremove, hret⟩ := h
  unfold TenancyState.removeMembership at hremove
  dsimp only at hremove
  split at hremove
  . cases hremove
  . cases hremove
    cases hret
    exact Change.memberRemoved id uid can

theorem requireProject_eq_ok {id : String} {u : Unit} (h : requireProject s id = .ok u)
    : ∃ project, s.getProject id = some project := by
  unfold requireProject at h
  split at h
  . next found => exact Option.isSome_iff_exists.mp found
  . cases h

theorem setQuota_change {id : String} {limits : QuotaLimits}
    (h : setQuota admins s headers id limits = .ok (resp, s')) : Change admins headers s (.setQuota id limits) s' := by
  unfold setQuota at h
  simp only [bind_eq_ok, liftM_eq_ok, TenantContext.authorize_eq_ok] at h
  obtain ⟨-, can, u, hproject, s₁, hset, hret⟩ := h
  obtain ⟨project, found⟩ := requireProject_eq_ok hproject
  cases hset
  cases hret
  exact Change.quotaSet id limits project can found

theorem read_eq {r : Request} (hread : r matches .listOrgs | .listProjects | .getProject _
    | .listMembers _ | .getQuota _) (h : routes admins s headers r = .ok (resp, s')) : s' = s := by
  cases r with
  | listOrgs | listProjects | listMembers id =>
    simp only [routes, listOrgs, listProjects, listMembers, bind_eq_ok] at h
    obtain ⟨-, -, hret⟩ := h
    cases hret
    rfl
  | getQuota id =>
    simp only [routes, getQuota, bind_eq_ok] at h
    obtain ⟨-, -, -, -, hret⟩ := h
    cases hret
    rfl
  | getProject id =>
    simp only [routes, getProject, bind_eq_ok] at h
    obtain ⟨-, -, h⟩ := h
    split at h
    . cases h
      rfl
    . cases h
  | _ => cases hread

theorem step_change (hs : s.WellFormed) (r : Request)
    : Change admins headers s r (step admins s headers r) := by
  unfold step
  split
  . next resp s' h =>
    cases r with
    | createOrg name => exact createOrg_change h
    | createProject name organization => exact createProject_change h
    | patchProject id settings status => exact patchProject_change hs h
    | deleteProject id => exact deleteProject_change h
    | addMember id user role => exact addMember_change h
    | removeMember id uid => exact removeMember_change h
    | setQuota id limits => exact setQuota_change h
    | listOrgs | listProjects | getProject id | listMembers id | getQuota id =>
      rw [read_eq rfl h]
      exact Change.same _
  . exact Change.same _

theorem orgCreated_wellFormed (hs : s.WellFormed) (tenant name : String)
    (fresh : s.getOrg (Organization.new tenant name).id = none)
    : { s with orgs := s.orgs.insert (Organization.new tenant name).id (Organization.new tenant name)
      : TenancyState }.WellFormed := by
  constructor
  . intro id o ho
    simp only [getOrg, Map.getElem?_insert] at ho
    split at ho
    . next heq =>
      cases ho
      refine ⟨heq, slug tenant ++ "-" ++ slug name, ?_⟩
      rw [← heq]
      simp [Organization.new, String.append_assoc]
    . exact hs.org_id id o ho
  . exact hs.project_id
  . intro id p hp
    obtain ⟨o, ho, htenant⟩ := hs.project_org id p hp
    refine ⟨o, ?_, htenant⟩
    -- The organization of the project is there already, so it is not the new one.
    have hne : (Organization.new tenant name).id ≠ p.organization := by
      intro heq
      rw [heq, ho] at fresh
      cases fresh
    simp only [getOrg]
    rw [Map.getElem?_insert_of_ne _ _ hne]
    exact ho

theorem insertProject_wellFormed (hs : s.WellFormed) {project : Project} (org : Organization)
    (hid : ∃ rest, project.id = "prj-" ++ rest)
    (horg : s.getOrg project.organization = some org) (htenant : org.tenant = project.tenant)
    : { s with projects := s.projects.insert project.id project : TenancyState }.WellFormed := by
  constructor
  . exact hs.org_id
  . intro id p hp
    simp only [TenancyState.getProject, Map.getElem?_insert] at hp
    split at hp
    . next heq =>
      cases hp
      obtain ⟨rest, hrest⟩ := hid
      exact ⟨heq, rest, heq ▸ hrest⟩
    . exact hs.project_id id p hp
  . intro id p hp
    simp only [TenancyState.getProject, Map.getElem?_insert] at hp
    split at hp
    . cases hp
      exact ⟨org, horg, htenant⟩
    . exact hs.project_org id p hp

theorem Change.wellFormed (hs : s.WellFormed) {r : Request} (h : Change admins headers s r s')
    : s'.WellFormed := by
  cases h with
  | same => exact hs
  | orgCreated org name can new fresh =>
    subst new
    exact orgCreated_wellFormed hs _ name fresh
  | projectCreated org name organization project can named new fresh =>
    subst new
    apply insertProject_wellFormed hs org
    . refine ⟨slug org.name ++ "-" ++ slug name, ?_⟩
      simp [Project.new, String.append_assoc]
    . obtain ⟨hid, -⟩ := hs.org_id organization org named
      simp only [Project.new]
      rw [hid]
      exact named
    . rfl
  | projectUpdated _ id old project can found same_id same_org same_tenant =>
    obtain ⟨hid, hrest⟩ := hs.project_id id old found
    obtain ⟨org, horg, htenant⟩ := hs.project_org id old found
    rw [← hid, ← same_id] at hrest ⊢
    apply insertProject_wellFormed hs org hrest
    . rw [same_org]
      exact horg
    . rw [same_tenant]
      exact htenant
  | memberAdded id user role can => exact ⟨hs.org_id, hs.project_id, hs.project_org⟩
  | memberRemoved id user can => exact ⟨hs.org_id, hs.project_id, hs.project_org⟩
  | quotaSet id limits project can found => exact ⟨hs.org_id, hs.project_id, hs.project_org⟩

theorem can_iff_exists_membership {project : Option String} {scope : String}
    (hadmin : isPlatformAdmin admins (requestPrincipal headers) = false)
    : (context admins s headers project).can scope = true ↔
        requestPrincipal headers ≠ ""
        ∧ ∃ m ∈ s.membershipsForUser (requestPrincipal headers),
            applies s (requestTenant headers) project m = true ∧ m.role.grants scope = true := by
  rw [TenantContext.can_iff]
  simp only [context, hadmin, Bool.false_eq_true, if_false, List.nil_append,
    String.isEmpty_iff]
  by_cases hempty : requestPrincipal headers = ""
  . simp [hempty]
  . simp only [hempty, if_false, List.mem_map, List.mem_filter, ne_eq, not_false_eq_true, true_and]
    constructor
    . rintro ⟨role, ⟨m, ⟨hm, happlies⟩, rfl⟩, hgrants⟩
      exact ⟨m, hm, happlies, hgrants⟩
    . rintro ⟨m, hm, happlies, hgrants⟩
      exact ⟨m.role, ⟨m, ⟨hm, happlies⟩, rfl⟩, hgrants⟩

theorem mem_listOrgs_iff (hs : s.WellFormed) {tenant id : String}
    : ((s.listOrgs tenant).map (·.id)).contains id = true
        ↔ (s.getOrg id).map (·.tenant) = some tenant := by
  simp only [List.contains_iff_mem, List.mem_map, TenancyState.listOrgs, List.mem_filter, beq_iff_eq,
    Map.mem_values, Option.map_eq_some_iff]
  constructor
  . rintro ⟨org, ⟨⟨key, hkey⟩, htenant⟩, rfl⟩
    rw [(hs.org_id key org hkey).1]
    exact ⟨org, hkey, htenant⟩
  . rintro ⟨org, horg, htenant⟩
    exact ⟨org, ⟨⟨id, horg⟩, htenant⟩, (hs.org_id id org horg).1⟩

theorem tenantContext_can_iff (hs : s.WellFormed) {scope : String}
    (hadmin : isPlatformAdmin admins (requestPrincipal headers) = false)
    : (tenantContext admins s headers).can scope = true ↔
        requestPrincipal headers ≠ ""
        ∧ ∃ m ∈ s.membershipsForUser (requestPrincipal headers),
            s.tenantOf m.scope = some (requestTenant headers) ∧ m.role.grants scope = true := by
  have hproject : ∀ p, ((s.getProject p).any fun project =>
      ((s.listOrgs (requestTenant headers)).map (·.id)).contains project.organization) = true
        ↔ s.tenantOf (.project p) = some (requestTenant headers) := by
    intro p
    simp only [Option.any_eq_true, mem_listOrgs_iff hs, tenantOf]
    constructor
    . rintro ⟨project, found, htenant⟩
      obtain ⟨org, horg, hsame⟩ := hs.project_org p project found
      rw [horg, Option.map_some, Option.some.injEq] at htenant
      rw [found, Option.map_some, ← hsame, htenant]
    . intro htenant
      obtain ⟨project, found, hsame⟩ := Option.map_eq_some_iff.mp htenant
      obtain ⟨org, horg, hsame'⟩ := hs.project_org p project found
      refine ⟨project, found, ?_⟩
      rw [horg, Option.map_some, hsame', hsame]
  rw [TenantContext.can_iff]
  simp only [tenantContext, hadmin, Bool.false_eq_true, if_false, List.nil_append,
    String.isEmpty_iff]
  by_cases hempty : requestPrincipal headers = ""
  . simp [hempty]
  . simp only [hempty, if_false, List.mem_map, List.mem_filter, ne_eq, not_false_eq_true, true_and]
    constructor
    . rintro ⟨role, ⟨m, ⟨hm, hin⟩, rfl⟩, hgrants⟩
      refine ⟨m, hm, ?_, hgrants⟩
      cases hscope : m.scope with
      | organization o =>
        rw [hscope] at hin
        exact (mem_listOrgs_iff hs).mp hin
      | project p =>
        rw [hscope] at hin
        exact (hproject p).mp hin
    . rintro ⟨m, hm, hin, hgrants⟩
      refine ⟨m.role, ⟨m, ⟨hm, ?_⟩, rfl⟩, hgrants⟩
      cases hscope : m.scope with
      | organization o =>
        rw [hscope] at hin
        exact (mem_listOrgs_iff hs).mpr hin
      | project p =>
        rw [hscope] at hin
        exact (hproject p).mpr hin

theorem applies_none_iff {tenant : String} {m : Membership}
    : applies s tenant none m = true ↔
        ∃ o own, m.scope = .organization o ∧ s.getOrg o = some own ∧ own.tenant = tenant := by
  unfold applies
  cases hscope : m.scope with
  | project p => simp
  | organization o => simp [Option.any_eq_true]

theorem memberIn_of_can_tenant {scope : String}
    (hadmin : isPlatformAdmin admins (requestPrincipal headers) = false)
    (can : (context admins s headers none).can scope = true)
    : s.MemberIn (requestPrincipal headers) (requestTenant headers) := by
  rw [can_iff_exists_membership hadmin] at can
  obtain ⟨-, m, hm, happlies, -⟩ := can
  rw [applies_none_iff] at happlies
  obtain ⟨o, own, hscope, hown, htenant⟩ := happlies
  apply MemberIn.of_scope hm
  simp [hscope, tenantOf, hown, htenant]

theorem memberIn_of_can_project (hs : s.WellFormed) {id scope : String} {project : Project}
    (hadmin : isPlatformAdmin admins (requestPrincipal headers) = false)
    (can : (context admins s headers (some id)).can scope = true)
    (found : s.getProject id = some project)
    : s.MemberIn (requestPrincipal headers) project.tenant := by
  rw [can_iff_exists_membership hadmin] at can
  obtain ⟨-, m, hm, happlies, -⟩ := can
  apply MemberIn.of_scope hm
  unfold applies at happlies
  split at happlies
  . next p hscope =>
    simp only [beq_iff_eq, Option.some.injEq] at happlies
    subst happlies
    simp [hscope, tenantOf, found]
  . next o hscope =>
    simp only [Option.isSome_some, if_true, Option.bind_some, found, Option.map_some, beq_iff_eq,
      Option.some.injEq] at happlies
    obtain ⟨org, horg, htenant⟩ := hs.project_org id project found
    simp [hscope, tenantOf, ← happlies, horg, htenant]

-- A request is confined when each organization or project it changes, as it was before or as it is
-- after the request, belongs to a tenant in which the principal is a member.
def Confined (admins : PlatformAdmins) (s : TenancyState) (headers : Headers) (r : Request) : Prop :=
  let s' := step admins s headers r
  ∀ scope, ¬ s.Unchanged s' scope →
    ∀ tenant, s.tenantOf scope = some tenant ∨ s'.tenantOf scope = some tenant →
      s.MemberIn (requestPrincipal headers) tenant

-- The request to create a project gets through: the principal administers projects in an
-- organization of the tenant of the request, `org` is the organization that the body names, and the
-- id of the project is free.
def CreatesProject (s : TenancyState) (headers : Headers) (name organization : String)
    (org : Organization) : Prop :=
  requestPrincipal headers ≠ ""
  ∧ (∃ m ∈ s.memberships, m.user = requestPrincipal headers ∧ m.role.grants "projects:admin" = true
      ∧ ∃ o own, m.scope = .organization o ∧ s.getOrg o = some own
        ∧ own.tenant = requestTenant headers)
  ∧ s.getOrg organization = some org
  ∧ s.getProject (Project.new org name).id = none

def ConfinedWhen (s : TenancyState) (headers : Headers) : Request → Prop
  | .createProject name organization =>
    ∀ org, CreatesProject s headers name organization org →
      s.MemberIn (requestPrincipal headers) org.tenant
  | _ => True

theorem createsProject_of_can {name organization : String} {org : Organization}
    (hadmin : isPlatformAdmin admins (requestPrincipal headers) = false)
    (can : (context admins s headers none).can "projects:admin" = true)
    (named : s.getOrg organization = some org)
    (fresh : s.getProject (Project.new org name).id = none)
    : CreatesProject s headers name organization org := by
  rw [can_iff_exists_membership hadmin] at can
  obtain ⟨hprincipal, m, hm, happlies, hgrants⟩ := can
  rw [applies_none_iff] at happlies
  simp only [membershipsForUser, List.mem_filter, beq_iff_eq] at hm
  exact ⟨hprincipal, ⟨m, hm.1, hm.2, hgrants, happlies⟩, named, fresh⟩

theorem eq_of_orgs_changed {id : String} {org : Organization} {scope : MemberScope}
    (h : ¬ s.Unchanged { s with orgs := s.orgs.insert id org } scope)
    : scope = .organization id := by
  by_contra hne
  apply h
  refine ⟨?_, rfl, rfl⟩
  cases scope with
  | project p => rfl
  | organization o =>
    have : id ≠ o := by
      rintro rfl
      exact hne rfl
    simp only [getOrg]
    rw [Map.getElem?_insert_of_ne _ _ this]

theorem eq_of_projects_changed {id : String} {project : Project} {scope : MemberScope}
    (h : ¬ s.Unchanged { s with projects := s.projects.insert id project } scope)
    : scope = .project id := by
  by_contra hne
  apply h
  refine ⟨?_, rfl, rfl⟩
  cases scope with
  | organization o => rfl
  | project p =>
    have : id ≠ p := by
      rintro rfl
      exact hne rfl
    simp only [TenancyState.getProject]
    rw [Map.getElem?_insert_of_ne _ _ this]

theorem eq_of_quotas_changed {id : String} {limits : QuotaLimits} {scope : MemberScope}
    (h : ¬ s.Unchanged { s with quotas := s.quotas.insert id limits } scope) : scope.id = id := by
  by_contra hne
  apply h
  refine ⟨?_, rfl, ?_⟩
  . cases scope <;> rfl
  . simp only [TenancyState.getQuota]
    rw [Map.getElem?_insert_of_ne _ _ (Ne.symm hne)]

theorem listMemberships_retainOthers {user : String} {scope other : MemberScope}
    (hne : other ≠ scope)
    : (s.retainOthers user scope).filter (fun m => m.scope == other)
        = s.listMemberships other := by
  unfold retainOthers listMemberships
  rw [List.filter_filter]
  apply List.filter_congr
  intro m _
  by_cases h : m.scope = other
  . simp [h, hne]
  . simp [h]

theorem eq_of_memberships_changed {user : String} {scope scope' : MemberScope}
    {added : List Membership} (hadded : ∀ m ∈ added, m.scope = scope)
    (h : ¬ s.Unchanged { s with memberships := s.retainOthers user scope ++ added } scope')
    : scope' = scope := by
  by_contra hne
  apply h
  refine ⟨?_, ?_, rfl⟩
  . cases scope' <;> rfl
  . have hnone : added.filter (fun m => m.scope == scope') = [] := by
      rw [List.filter_eq_nil_iff]
      intro m hm
      simp [hadded m hm, Ne.symm hne]
    conv => rhs; unfold listMemberships
    rw [List.filter_append, hnone, List.append_nil, listMemberships_retainOthers hne]

theorem tenantOf_insert_org (id : String) (org : Organization)
    : { s with orgs := s.orgs.insert id org : TenancyState }.tenantOf (.organization id)
        = some org.tenant := by
  simp [tenantOf, getOrg]

theorem tenantOf_insert_project (id : String) (project : Project)
    : { s with projects := s.projects.insert id project : TenancyState }.tenantOf (.project id)
        = some project.tenant := by
  simp [tenantOf, TenancyState.getProject]

theorem memberIn_of_tenantOf (hs : s.WellFormed) {id scope tenant : String}
    (hadmin : isPlatformAdmin admins (requestPrincipal headers) = false)
    (can : (context admins s headers (some id)).can scope = true)
    (htenant : s.tenantOf (.project id) = some tenant)
    : s.MemberIn (requestPrincipal headers) tenant := by
  simp only [tenantOf, Option.map_eq_some_iff] at htenant
  obtain ⟨project, found, rfl⟩ := htenant
  exact memberIn_of_can_project hs hadmin can found

theorem Change.memberIn (hs : s.WellFormed) {r : Request} {scope : MemberScope} {tenant : String}
    (hadmin : isPlatformAdmin admins (requestPrincipal headers) = false)
    (h : Change admins headers s r s') (hr : ConfinedWhen s headers r)
    (hchanged : ¬ s.Unchanged s' scope)
    (htenant : s.tenantOf scope = some tenant ∨ s'.tenantOf scope = some tenant)
    : s.MemberIn (requestPrincipal headers) tenant := by
  cases h with
  | same => exact absurd (Unchanged.refl s scope) hchanged
  | orgCreated org name can new fresh =>
    cases eq_of_orgs_changed hchanged
    have hbefore : s.tenantOf (.organization org.id) = none := by simp [tenantOf, fresh]
    rw [hbefore, tenantOf_insert_org] at htenant
    simp only [reduceCtorEq, Option.some.injEq, false_or] at htenant
    rw [← htenant, new]
    exact memberIn_of_can_tenant hadmin can
  | projectCreated org name organization project can named new fresh =>
    cases eq_of_projects_changed hchanged
    have hbefore : s.tenantOf (.project project.id) = none := by simp [tenantOf, fresh]
    rw [hbefore, tenantOf_insert_project] at htenant
    simp only [reduceCtorEq, Option.some.injEq, false_or] at htenant
    rw [← htenant, new]
    exact hr org (createsProject_of_can hadmin can named (new ▸ fresh))
  | projectUpdated _ id old project can found same_id same_org same_tenant =>
    cases eq_of_projects_changed hchanged
    have hbefore : s.tenantOf (.project id) = some old.tenant := by simp [tenantOf, found]
    rw [hbefore, tenantOf_insert_project, same_tenant, or_self] at htenant
    exact memberIn_of_tenantOf hs hadmin can (hbefore.trans htenant)
  | memberAdded id user role can =>
    cases eq_of_memberships_changed (by simp) hchanged
    exact memberIn_of_tenantOf hs hadmin can (or_self_iff.mp htenant)
  | memberRemoved id user can =>
    rw [← List.append_nil (s.retainOthers user (.project id))] at hchanged
    cases eq_of_memberships_changed (by simp) hchanged
    exact memberIn_of_tenantOf hs hadmin can (or_self_iff.mp htenant)
  | quotaSet id limits project can found =>
    have hid := eq_of_quotas_changed hchanged
    replace htenant : s.tenantOf scope = some tenant := or_self_iff.mp htenant
    cases scope with
    | organization o =>
      cases hid
      simp only [tenantOf, MemberScope.id] at htenant found
      rw [hs.org_of_project found] at htenant
      cases htenant
    | project p =>
      cases hid
      exact memberIn_of_tenantOf hs hadmin can htenant

structure Catalog where
  state : TenancyState
  wellFormed : state.WellFormed

namespace Catalog

def empty : Catalog := ⟨TenancyState.empty, wellFormed_empty⟩

def step (c : Catalog) (admins : PlatformAdmins) (headers : Headers) (r : Request) : Catalog where
  state := Tenancy.step admins c.state headers r
  wellFormed := (step_change c.wellFormed r).wellFormed c.wellFormed

end Catalog

theorem createProject_step {name organization : String} {org : Organization} (hs : s.WellFormed)
    (hadmin : isPlatformAdmin admins (requestPrincipal headers) = false)
    (h : CreatesProject s headers name organization org)
    : (step admins s headers (.createProject name organization)).getProject
        (Project.new org name).id = some (Project.new org name) := by
  obtain ⟨hprincipal, ⟨m, hm, huser, hgrants, hown⟩, named, fresh⟩ := h
  have can : (context admins s headers none).can "projects:admin" = true := by
    rw [can_iff_exists_membership hadmin]
    refine ⟨hprincipal, m, ?_, (applies_none_iff).mpr hown, hgrants⟩
    simp [membershipsForUser, hm, huser]
  have hid : org.id = organization := (hs.org_id organization org named).1
  have horg : organization ∈ s.orgs := by
    rw [Std.ExtTreeMap.mem_iff_isSome_getElem?]
    exact Option.isSome_iff_exists.mpr ⟨org, named⟩
  have hfree : (Project.new org name).id ∉ s.projects := by
    simpa [TenancyState.getProject] using fresh
  have hstore : s.createProject (Project.new org name) = .ok (Project.new org name,
      { s with projects := s.projects.insert (Project.new org name).id (Project.new org name) }) := by
    unfold TenancyState.createProject
    rw [if_neg, if_neg]
    . simpa using hfree
    . simpa [Project.new, hid] using horg
  simp only [step, routes, createProject, named, hstore,
    (TenantContext.authorize_eq_ok _ _ ()).mpr can]
  simp [liftM, monadLift, MonadLift.monadLift, bind, Except.bind, pure, Except.pure,
    TenancyState.getProject]

theorem confined_iff_confinedWhen (admins : PlatformAdmins) (c : Catalog) (headers : Headers)
    (r : Request) (hadmin : isPlatformAdmin admins (requestPrincipal headers) = false)
    : Confined admins c.state headers r ↔ ConfinedWhen c.state headers r := by
  constructor
  . intro hconfined
    cases r with
    | createProject name organization =>
      intro org hcreates
      have hafter := createProject_step c.wellFormed hadmin hcreates
      have hbefore := hcreates.2.2.2
      apply hconfined (.project (Project.new org name).id)
      . rintro ⟨hsame, -⟩
        have hnone := hafter.symm.trans (hsame.symm.trans hbefore)
        cases hnone
      . right
        simp only [tenantOf]
        rw [hafter]
        rfl
    | _ => trivial
  . intro hr scope hchanged tenant htenant
    exact (step_change c.wellFormed r).memberIn c.wellFormed hadmin hr hchanged htenant

def twoTenants : Catalog where
  state :=
    let acme := Organization.new "acme" "ops"
    let globex := Organization.new "globex" "lab"
    { TenancyState.empty with
      orgs := (TenancyState.empty.orgs.insert acme.id acme).insert globex.id globex
      memberships := [⟨"mallory", .orgAdmin, .organization acme.id⟩] }
  wellFormed := by
    have hacme := orgCreated_wellFormed wellFormed_empty "acme" "ops" (by decide)
    have hglobex := orgCreated_wellFormed hacme "globex" "lab" (by decide)
    exact ⟨hglobex.org_id, hglobex.project_id, hglobex.project_org⟩

def malloryHeaders : Headers :=
  ((∅ : Headers).insert "x-wovyr-tenant" "acme").insert "x-wovyr-principal" "mallory"

def oneProject : Catalog where
  state :=
    let acme := Organization.new "acme" "ops"
    let bot := Project.new acme "bot"
    { TenancyState.empty with
      orgs := TenancyState.empty.orgs.insert acme.id acme
      projects := TenancyState.empty.projects.insert bot.id bot
      memberships := [⟨"mallory", .projectAdmin, .project bot.id⟩] }
  wellFormed := by
    have horg := orgCreated_wellFormed wellFormed_empty "acme" "ops" (by decide)
    have hid : (Project.new (Organization.new "acme" "ops") "bot").id = "prj-" ++ "ops-bot" := by
      decide
    have hproject := insertProject_wellFormed horg (Organization.new "acme" "ops") ⟨_, hid⟩
      (by decide) rfl
    exact ⟨hproject.org_id, hproject.project_id, hproject.project_org⟩

theorem confined_own_organization
    : Confined none twoTenants.state malloryHeaders (.createProject "bot" "org-acme-ops") := by
  rw [confined_iff_confinedWhen none twoTenants malloryHeaders _ (by decide)]
  intro org h
  have horg : twoTenants.state.getOrg "org-acme-ops" = some org := h.2.2.1
  have htenant : (twoTenants.state.getOrg "org-acme-ops").map (·.tenant) = some "acme" := by
    decide
  rw [horg, Option.map_some, Option.some.injEq] at htenant
  rw [htenant]
  exact ⟨_, List.mem_singleton.mpr rfl, by decide, by decide⟩

theorem not_confined_foreign_organization
    : ¬ ∀ (admins : PlatformAdmins) (c : Catalog) (headers : Headers) (r : Request),
        isPlatformAdmin admins (requestPrincipal headers) = false
          → Confined admins c.state headers r := by
  intro h
  have hconfined := h none twoTenants malloryHeaders (.createProject "bot" "org-globex-lab")
    (by decide)
  have hmember := hconfined (.project "prj-lab-bot") ?_ "globex" (Or.inr (by decide))
  . obtain ⟨m, hm, -, htenant⟩ := hmember
    cases List.mem_singleton.mp hm
    revert htenant
    decide
  . rintro ⟨hsame, -⟩
    have := congrArg Option.isSome hsame
    revert this
    decide

end Wovyr.Server.Tenancy
