import Std.Data.ExtTreeMap
import Wovyr.Common
import Wovyr.Json.Value

/-!
This module contains the built-in roles with the scopes they grant, the resources of the control
plane, the checks of the quotas and the catalog. An operation that returns an error leaves
`TenancyState` as it is.
-/

namespace Wovyr

inductive Role where
  | viewer
  | editor
  | projectAdmin
  | orgAdmin
  | platformAdmin
deriving Repr, DecidableEq, Inhabited

namespace Role

def isWellFormed (scope action : String) : Bool :=
  match Text.stripSuffix action scope with
  | some domain => domain.toList.getLast? == some ':' && decide (1 < domain.utf8ByteSize)
  | none => false

def isRead (scope : String) : Bool :=
  isWellFormed scope "read"

def isWrite (scope : String) : Bool :=
  isWellFormed scope "write" || scope == "workflows:run" || scope == "tools:invoke"
    || scope == "agents:run"

def grants (role : Role) (scope : String) : Bool :=
  match role with
  | .platformAdmin => true
  | .orgAdmin => scope != "platform.admin"
  | .projectAdmin => !(scope == "platform.admin" || scope == "org.admin" || scope == "users:admin")
  | .editor => isRead scope || isWrite scope
  | .viewer => isRead scope

end Role

def anyGrants (roles : List Role) (scope : String) : Bool :=
  roles.any fun r => r.grants scope

structure TenantContext where
  tenant : String
  project : Option String
  principal : String
  roles : List Role
deriving Repr, DecidableEq

namespace TenantContext

def can (ctx : TenantContext) (scope : String) : Bool :=
  anyGrants ctx.roles scope

def authorize (ctx : TenantContext) (scope : String) : Except Error Unit :=
  if ctx.can scope then
    .ok ()
  else
    .error (.forbidden s!"principal `{ctx.principal}` lacks required scope `{scope}`")

theorem can_iff (ctx : TenantContext) (scope : String) :
    ctx.can scope = true ↔ ∃ r ∈ ctx.roles, r.grants scope = true := by
  simp [can, anyGrants]

theorem authorize_eq_ok (ctx : TenantContext) (scope : String) (u : Unit)
    : ctx.authorize scope = .ok u ↔ ctx.can scope = true := by
  unfold authorize
  split <;> simp_all

end TenantContext

def slug (s : String) : String :=
  String.ofList ((go s.toList [] false).rdropWhile (· == '-'))
where
  go (cs out : List Char) (lastDash : Bool) : List Char :=
    match cs with
    | [] => out
    | c :: cs =>
      if c.isAlphanum then
        go cs (out ++ [c.toLower]) false
      else if !lastDash && !out.isEmpty then
        go cs (out ++ ['-']) true
      else
        go cs out lastDash

structure Organization where
  id : String
  name : String
  tenant : String
deriving Repr, DecidableEq, Inhabited

def Organization.new (tenant name : String) : Organization where
  id := "org-" ++ slug tenant ++ "-" ++ slug name
  name := name
  tenant := tenant

inductive ProjectStatus where
  | active
  | suspended
  | deleted
deriving Repr, DecidableEq, Inhabited

structure Project where
  id : String
  name : String
  organization : String
  tenant : String
  settings : Std.ExtTreeMap String Value
  status : ProjectStatus
  version : Nat

def Project.new (org : Organization) (name : String) : Project where
  id := "prj-" ++ slug org.name ++ "-" ++ slug name
  name := name
  organization := org.id
  tenant := org.tenant
  settings := ∅
  status := .active
  version := 1

inductive MemberScope where
  | organization (id : String)
  | project (id : String)
deriving Repr, DecidableEq, Inhabited

def MemberScope.id : MemberScope → String
  | .organization id => id
  | .project id => id

structure Membership where
  user : String
  role : Role
  scope : MemberScope
deriving Repr, DecidableEq, Inhabited

structure QuotaLimits where
  llmCostPerDayUsd : Option Rat := none
  llmTokensPerDay : Option Nat := none
  concurrentAgentRuns : Option Nat := none
  maxMcpConnections : Option Nat := none
  dayResetOffsetMinutes : Option Int := none
deriving Repr, DecidableEq, Inhabited

example : (Organization.new "acme" "Platform Team").id = "org-acme-platform-team" := by
  decide

def u64Max : Nat := 2 ^ 64 - 1

def saturatingAdd (a b : Nat) : Nat :=
  min (a + b) u64Max

-- The sum of two `f64`, and how an amount is written at the scale of a group of amounts.
structure Money where
  addF64 : Rat → Rat → Rat
  display : List Rat → Rat → String

def checkCount (metric : String) (limit : Option Nat) (current delta : Nat) : Except Error Unit :=
  match limit with
  | some limit =>
    if saturatingAdd current delta > limit then
      .error (.quotaExceeded s!"{metric}: {current} + {delta} exceeds limit {limit}")
    else
      .ok ()
  | none => .ok ()

namespace QuotaLimits

def checkConcurrentRuns (limits : QuotaLimits) (current : Nat) : Except Error Unit :=
  checkCount "concurrent_agent_runs" limits.concurrentAgentRuns current 1

def checkMcpConnections (limits : QuotaLimits) (current : Nat) : Except Error Unit :=
  checkCount "max_mcp_connections" limits.maxMcpConnections current 1

def checkLlmTokens (limits : QuotaLimits) (usedToday adding : Nat) : Except Error Unit :=
  checkCount "llm_tokens_per_day" limits.llmTokensPerDay usedToday adding

def checkLlmCost (money : Money) (limits : QuotaLimits) (spentToday adding : Rat)
    : Except Error Unit :=
  match limits.llmCostPerDayUsd with
  | some limit =>
    if money.addF64 spentToday adding > limit then
      let display := money.display [spentToday, adding, limit]
      .error (.quotaExceeded
        s!"llm_cost_per_day_usd: {display spentToday} + {display adding} exceeds limit {display limit}")
    else
      .ok ()
  | none => .ok ()

end QuotaLimits

theorem checkCount_eq_ok {metric : String} {limit current delta : Nat} {u : Unit}
    (h : checkCount metric (some limit) current delta = .ok u) : saturatingAdd current delta ≤ limit := by
  unfold checkCount at h
  dsimp only at h
  split at h
  . cases h
  . next hle => exact Nat.not_lt.mp hle

structure TenancyState where
  orgs : Std.ExtTreeMap String Organization
  projects : Std.ExtTreeMap String Project
  memberships : List Membership
  quotas : Std.ExtTreeMap String QuotaLimits

namespace TenancyState

def empty : TenancyState where
  orgs := ∅
  projects := ∅
  memberships := []
  quotas := ∅

def getOrg (s : TenancyState) (id : String) : Option Organization :=
  s.orgs[id]?

def getProject (s : TenancyState) (id : String) : Option Project :=
  s.projects[id]?

def listOrgs (s : TenancyState) (tenant : String) : List Organization :=
  s.orgs.values.filter fun o => o.tenant == tenant

def listProjects (s : TenancyState) (tenant : String) : List Project :=
  s.projects.values.filter fun p => p.tenant == tenant

def membershipsForUser (s : TenancyState) (user : String) : List Membership :=
  s.memberships.filter fun m => m.user == user

def listMemberships (s : TenancyState) (scope : MemberScope) : List Membership :=
  s.memberships.filter fun m => m.scope == scope

def getQuota (s : TenancyState) (target : String) : Option QuotaLimits :=
  s.quotas[target]?

def createOrg (s : TenancyState) (org : Organization)
    : Except Error (Organization × TenancyState) :=
  if s.orgs.contains org.id then
    .error (.conflict s!"organization `{org.name}` already exists")
  else
    .ok (org, { s with orgs := s.orgs.insert org.id org })

def createProject (s : TenancyState) (project : Project) : Except Error (Project × TenancyState) :=
  if !s.orgs.contains project.organization then
    .error (.notFound s!"organization `{project.organization}` does not exist")
  else if s.projects.contains project.id then
    .error (.conflict s!"project `{project.name}` already exists")
  else
    .ok (project, { s with projects := s.projects.insert project.id project })

def updateProject (s : TenancyState) (project : Project) : Except Error TenancyState :=
  if !s.projects.contains project.id then
    .error (.notFound s!"project `{project.id}` not found")
  else
    .ok { s with projects := s.projects.insert project.id project }

def deleteProject (s : TenancyState) (id : String) : Except Error TenancyState :=
  match s.projects[id]? with
  | none => .error (.notFound s!"project `{id}` not found")
  | some project =>
    .ok { s with projects := s.projects.insert id { project with status := .deleted } }

def retainOthers (s : TenancyState) (user : String) (scope : MemberScope) : List Membership :=
  s.memberships.filter fun x => !(x.user == user && x.scope == scope)

def addMembership (s : TenancyState) (m : Membership) : Except Error TenancyState :=
  .ok { s with memberships := s.retainOthers m.user m.scope ++ [m] }

def removeMembership (s : TenancyState) (user : String) (scope : MemberScope)
    : Except Error TenancyState :=
  let kept := s.retainOthers user scope
  if kept.length = s.memberships.length then
    .error (.notFound s!"no membership for user `{user}` in the given scope")
  else
    .ok { s with memberships := kept }

def setQuota (s : TenancyState) (target : String) (limits : QuotaLimits)
    : Except Error TenancyState :=
  .ok { s with quotas := s.quotas.insert target limits }

end Wovyr.TenancyState
