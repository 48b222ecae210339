import Wovyr.Tenancy.Model

/-!
This module contains the HTTP handlers of the control plane, from the catalog and what a request
carries to the response and the catalog after the request.
-/

namespace Wovyr.Server

abbrev Headers := Std.ExtTreeMap String String

def defaultTenant : String := "default"

def header (headers : Headers) (name : String) : Option String :=
  headers[name]?

def etag (version : Nat) : String :=
  "\"" ++ toString version ++ "\""

def ifMatch (headers : Headers) : Option Nat :=
  (header headers "if-match").bind fun s =>
    Text.parseUnsigned (2 ^ 64)
      (Text.trimMatches (· == '"') (Text.trimStartMatches "W/" (Text.trim s)))

namespace Tenancy

-- The value of the environment variable `WOVYR_PLATFORM_ADMINS`.
abbrev PlatformAdmins := Option String

def isPlatformAdmin (admins : PlatformAdmins) (principal : String) : Bool :=
  !principal.isEmpty
    && admins.any fun v => (Text.split ',' v).map Text.trim |>.any (· == principal)

def requestTenant (headers : Headers) : String :=
  (header headers "x-wovyr-tenant").getD defaultTenant

def requestPrincipal (headers : Headers) : String :=
  ((header headers "x-wovyr-principal").or
    ((header headers "authorization").bind (Text.stripPrefix "Bearer "))).getD ""

-- Whether the role of a membership counts for a request of `tenant` about `project`.
def applies (s : TenancyState) (tenant : String) (project : Option String) (m : Membership)
    : Bool :=
  match m.scope with
  | .project p => project == some p
  | .organization o =>
    if project.isSome then
      (project.bind s.getProject).map (·.organization) == some o
    else
      (s.getOrg o).any fun org => org.tenant == tenant

def context (admins : PlatformAdmins) (s : TenancyState) (headers : Headers)
    (project : Option String) : TenantContext :=
  let tenant := requestTenant headers
  let principal := requestPrincipal headers
  let adminRoles := if isPlatformAdmin admins principal then [Role.platformAdmin] else []
  let memberRoles :=
    if principal.isEmpty then
      []
    else
      ((s.membershipsForUser principal).filter (applies s tenant project)).map (·.role)
  { tenant, project, principal, roles := adminRoles ++ memberRoles }

-- The roles of a request about what belongs to its tenant as a whole.
def tenantContext (admins : PlatformAdmins) (s : TenancyState) (headers : Headers) : TenantContext :=
  let tenant := requestTenant headers
  let principal := requestPrincipal headers
  let tenantOrgs := (s.listOrgs tenant).map (·.id)
  let inTenant (m : Membership) : Bool :=
    match m.scope with
    | .organization o => tenantOrgs.contains o
    | .project p => (s.getProject p).any fun project => tenantOrgs.contains project.organization
  let adminRoles := if isPlatformAdmin admins principal then [Role.platformAdmin] else []
  let memberRoles :=
    if principal.isEmpty then
      []
    else
      ((s.membershipsForUser principal).filter inTenant).map (·.role)
  { tenant, project := none, principal, roles := adminRoles ++ memberRoles }

def tenantAuthorize (admins : PlatformAdmins) (s : TenancyState) (headers : Headers) (scope : String)
    : Except ApiError String := do
  let ctx := tenantContext admins s headers
  ctx.authorize scope
  return ctx.tenant

def runProject (headers : Headers) : Option String :=
  header headers "x-wovyr-project"

inductive Response where
  | organizations (items : List Organization)
  | organization (org : Organization)
  | projects (items : List Project)
  | project (etag : String) (project : Project)
  | members (items : List Membership)
  | member (membership : Membership)
  | quota (limits : QuotaLimits)
  | noContent

abbrev Handler := Except ApiError (Response × TenancyState)

variable (admins : PlatformAdmins) (s : TenancyState) (headers : Headers)

def projectNotFound : ApiError := ⟨404, "not_found", "project not found"⟩

def listOrgs : Handler := do
  let ctx := context admins s headers none
  ctx.authorize "projects:read"
  return (.organizations (s.listOrgs ctx.tenant), s)

def createOrg (name : String) : Handler := do
  let ctx := context admins s headers none
  ctx.authorize "org.admin"
  let (org, s) ← s.createOrg (Organization.new ctx.tenant name)
  return (.organization org, s)

def listProjects : Handler := do
  let ctx := context admins s headers none
  ctx.authorize "projects:read"
  return (.projects (s.listProjects ctx.tenant), s)

def createProject (name organization : String) : Handler := do
  let ctx := context admins s headers none
  ctx.authorize "projects:admin"
  let some org := s.getOrg organization
    | throw ⟨404, "not_found", "organization not found"⟩
  let (project, s) ← s.createProject (Project.new org name)
  return (.project (etag project.version) project, s)

def getProject (id : String) : Handler := do
  let ctx := context admins s headers (some id)
  ctx.authorize "projects:read"
  let some project := s.getProject id | throw projectNotFound
  return (.project (etag project.version) project, s)

-- A stale `If-Match` loses to a concurrent update.
def checkIfMatch (id : String) (project : Project) : Except ApiError Unit :=
  match ifMatch headers with
  | none => .ok ()
  | some expected =>
    if expected != project.version then
      .error ⟨409, "conflict",
        s!"project `{id}` is at version {project.version}, but If-Match was {expected}"⟩
    else
      .ok ()

def patchProject (id : String) (settings : Option (Std.ExtTreeMap String Value))
    (status : Option ProjectStatus) : Handler := do
  let ctx := context admins s headers (some id)
  ctx.authorize "projects:admin"
  let some project := s.getProject id | throw projectNotFound
  checkIfMatch headers id project
  let project := { project with
    settings := settings.getD project.settings
    status := status.getD project.status
    version := project.version + 1 }
  let s ← s.updateProject project
  return (.project (etag project.version) project, s)

def deleteProject (id : String) : Handler := do
  let ctx := context admins s headers (some id)
  ctx.authorize "projects:admin"
  let s ← s.deleteProject id
  return (.noContent, s)

def listMembers (id : String) : Handler := do
  let ctx := context admins s headers (some id)
  ctx.authorize "projects:read"
  return (.members (s.listMemberships (.project id)), s)

def addMember (id user : String) (role : Role) : Handler := do
  let ctx := context admins s headers (some id)
  ctx.authorize "projects:admin"
  let membership : Membership := { user, role, scope := .project id }
  let s ← s.addMembership membership
  return (.member membership, s)

def removeMember (id uid : String) : Handler := do
  let ctx := context admins s headers (some id)
  ctx.authorize "projects:admin"
  let s ← s.removeMembership uid (.project id)
  return (.noContent, s)

def requireProject (id : String) : Except ApiError Unit :=
  if (s.getProject id).isSome then .ok () else .error projectNotFound

def getQuota (id : String) : Handler := do
  let ctx := context admins s headers (some id)
  ctx.authorize "projects:read"
  requireProject s id
  return (.quota ((s.getQuota id).getD {}), s)

def setQuota (id : String) (limits : QuotaLimits) : Handler := do
  let ctx := context admins s headers (some id)
  ctx.authorize "org.admin"
  requireProject s id
  let s ← s.setQuota id limits
  return (.quota limits, s)

inductive Request where
  | listOrgs
  | createOrg (name : String)
  | listProjects
  | createProject (name organization : String)
  | getProject (id : String)
  | patchProject (id : String) (settings : Option (Std.ExtTreeMap String Value))
      (status : Option ProjectStatus)
  | deleteProject (id : String)
  | listMembers (id : String)
  | addMember (id user : String) (role : Role)
  | removeMember (id uid : String)
  | getQuota (id : String)
  | setQuota (id : String) (limits : QuotaLimits)

def routes : Request → Handler
  | .listOrgs => listOrgs admins s headers
  | .createOrg name => createOrg admins s headers name
  | .listProjects => listProjects admins s headers
  | .createProject name organization => createProject admins s headers name organization
  | .getProject id => getProject admins s headers id
  | .patchProject id settings status => patchProject admins s headers id settings status
  | .deleteProject id => deleteProject admins s headers id
  | .listMembers id => listMembers admins s headers id
  | .addMember id user role => addMember admins s headers id user role
  | .removeMember id uid => removeMember admins s headers id uid
  | .getQuota id => getQuota admins s headers id
  | .setQuota id limits => setQuota admins s headers id limits

-- The catalog after a request: a request that fails leaves it as it is.
def step (r : Request) : TenancyState :=
  match routes admins s headers r with
  | .ok (_, s) => s
  | .error _ => s

end Wovyr.Server.Tenancy
