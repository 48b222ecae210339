import Wovyr.Server.Agents
import Wovyr.Server.Tenancy.Confinement

/-!
This module contains what the routes that run agents touch, and for whom.
-/

namespace Wovyr

open Keeping.Keeps

namespace Server.Agents

variable {γ ρ : Type}

structure Acts (tenant : String) (project : Option String) (s s' : AppState γ ρ) : Prop where
  tenancy : s'.tenancy = s.tenancy
  reached : ∀ r ∈ s'.reached, r ∈ s.reached ∨ r.tenant = tenant
  concurrent : ∀ p : String, project ≠ some p → s'.usage.concurrent[p]? = s.usage.concurrent[p]?
  cost : ∀ p : String, project ≠ some p → s'.usage.cost[p]? = s.usage.cost[p]?
  jobs : ∀ job ∈ s'.jobs, job ∈ s.jobs ∨ (job.tenant = tenant ∧ job.project = project)
  runs : ∀ runId record, s'.runs.get? runId = some record →
    record.tenant = tenant ∨ (s.runs.get? runId).map (·.tenant) = some record.tenant

def withMemberships (memberships : List Membership) (s : AppState γ ρ) : AppState γ ρ :=
  { s with tenancy := { s.tenancy with memberships } }

section

variable {tenant : String} {project : Option String}

theorem Acts.refl (s : AppState γ ρ) : Acts tenant project s s where
  tenancy := rfl
  reached _ hr := Or.inl hr
  concurrent _ _ := rfl
  cost _ _ := rfl
  jobs _ hjob := Or.inl hjob
  runs runId record hrun := by
    right
    rw [hrun, Option.map_some]

theorem Acts.trans {s t u : AppState γ ρ} (hst : Acts tenant project s t) (htu : Acts tenant project t u)
    : Acts tenant project s u where
  tenancy := htu.tenancy.trans hst.tenancy
  reached r hr := (htu.reached r hr).elim (hst.reached r) Or.inr
  concurrent p hp := (htu.concurrent p hp).trans (hst.concurrent p hp)
  cost p hp := (htu.cost p hp).trans (hst.cost p hp)
  jobs job hjob := (htu.jobs job hjob).elim (hst.jobs job) Or.inr
  runs runId record hrun := by
    rcases htu.runs runId record hrun with htenant | hbefore
    . exact Or.inl htenant
    . obtain ⟨mid, hmid, hmidtenant⟩ := Option.map_eq_some_iff.mp hbefore
      have hst' := hst.runs runId mid hmid
      rw [hmidtenant] at hst'
      exact hst'

theorem Acts.of_eq {s s' : AppState γ ρ} (htenancy : s'.tenancy = s.tenancy)
    (hreached : s'.reached = s.reached) (husage : s'.usage = s.usage) (hjobs : s'.jobs = s.jobs)
    (hruns : s'.runs = s.runs) : Acts tenant project s s' where
  tenancy := htenancy
  reached _ hr := Or.inl (hreached ▸ hr)
  concurrent p _ := by rw [husage]
  cost p _ := by rw [husage]
  jobs _ hjob := Or.inl (hjobs ▸ hjob)
  runs runId record hrun := by
    right
    rw [← hruns, hrun, Option.map_some]

theorem Acts.of_usage {s : AppState γ ρ} {usage : Tenancy.QuotaUsage}
    (hconcurrent : ∀ p : String, project ≠ some p → usage.concurrent[p]? = s.usage.concurrent[p]?)
    (hcost : ∀ p : String, project ≠ some p → usage.cost[p]? = s.usage.cost[p]?)
    : Acts tenant project s { s with usage } where
  tenancy := rfl
  reached _ hr := Or.inl hr
  concurrent := hconcurrent
  cost := hcost
  jobs _ hjob := Or.inl hjob
  runs := (Acts.refl s : Acts tenant project s s).runs

theorem acts_reach (name : String) (dialed : Bool) (s : AppState γ ρ)
    : Acts tenant project s (reach tenant name dialed s) := by
  refine { Acts.refl s with reached := ?_ }
  intro r hr
  unfold reach at hr
  rw [List.mem_append, List.mem_singleton] at hr
  rcases hr with hr | rfl
  . exact Or.inl hr
  . exact Or.inr rfl

theorem acts_release (metered : Bool) (s : AppState γ ρ)
    : Acts tenant project s (release project metered s) := by
  unfold release
  split
  . split
    . exact Acts.refl s
    . apply Acts.of_usage
      . intro p hp
        exact Map.getElem?_insert_of_ne _ _ (fun h => hp (congrArg some h))
      . intro _ _
        rfl
  . exact Acts.refl s

theorem acts_recordRunUsage (host : Host γ ρ) (out : RunOutput) (s : AppState γ ρ)
    : Acts tenant project s (recordRunUsage host project out s) := by
  unfold recordRunUsage
  split
  . exact Acts.refl s
  . unfold Tenancy.Meter.recordUsage
    apply Acts.of_usage
    . intro _ _
      rfl
    . intro p hp
      exact Map.getElem?_insert_of_ne _ _ (fun h => hp (congrArg some h))

theorem acts_finish (runId : String) (status : AsyncRunStatus) (s : AppState γ ρ)
    : Acts tenant project s (finish runId status s) := by
  unfold finish
  split
  . exact Acts.refl s
  . next record insertedAt hentry =>
    refine { Acts.refl s with runs := ?_ }
    intro id record' hrun
    right
    unfold Aging.get? at hrun ⊢
    dsimp only at hrun
    rw [Map.getElem?_insert] at hrun
    split at hrun
    . next heq =>
      subst heq
      cases hrun
      rw [hentry]
      rfl
    . rw [hrun, Option.map_some]

end

section

variable (host : Host γ ρ) (tenant : String) (project : Option String)

def acting : Keeping (AppState γ ρ) where
  inv _ := True
  le := Acts tenant project
  refl := Acts.refl
  trans _ _ _ := Acts.trans

variable {host tenant project} {ε : Type}

theorem keeps_modify {f : AppState γ ρ → AppState γ ρ} (h : ∀ s, Acts tenant project s (f s))
    : (acting tenant project).Keeps (fun _ => True) (Prog.modify f : Prog _ ε Unit) (fun _ _ => True) :=
  modify f (fun _ _ _ => trivial) (fun s _ _ => h s) (fun _ _ _ => trivial)

theorem keeps_reads {α : Type} (f : AppState γ ρ → α)
    : (acting tenant project).Keeps (fun _ => True) (Prog.gets f : Prog _ ε α) (fun _ _ => True) :=
  reads f

theorem keeps_pure {α : Type} (a : α)
    : (acting (γ := γ) (ρ := ρ) tenant project).Keeps (fun _ => True) (pure a : Prog _ ε α)
        (fun _ _ => True) :=
  pure a fun _ _ _ => trivial

theorem keeps_ofExcept {α : Type} (x : Except ε α)
    : (acting (γ := γ) (ρ := ρ) tenant project).Keeps (fun _ => True) (Prog.ofExcept x)
        (fun _ _ => True) :=
  ofExcept x fun _ _ _ _ _ => trivial

theorem keeps_getOrConnect (connection : McpConnection)
    : (acting tenant project).Keeps (fun _ => True) (getOrConnect host tenant connection)
        (fun _ _ => True) := by
  unfold getOrConnect
  have hset (entry : Option (γ × Nat)) (s : AppState γ ρ)
      : Acts tenant project s (setClient tenant connection.name entry s) :=
    Acts.of_eq rfl rfl rfl rfl rfl
  refine (keeps_reads _).bind fun now => (keeps_reads _).bind fun fresh => ?_
  cases fresh with
  | some entry =>
    refine (keeps_modify (hset _)).bind fun _ => ?_
    exact (keeps_modify (acts_reach _ _)).bind fun _ => keeps_pure _
  | none =>
    refine (keeps_modify (hset _)).bind fun _ => (keeps_modify (acts_reach _ _)).bind fun _ => ?_
    refine (keeps_ofExcept _).bind fun _ => ?_
    exact (keeps_modify (hset _)).bind fun _ => keeps_pure _

theorem keeps_resolveAgentMcpTools (names : List String) (registry : ρ)
    : (acting tenant project).Keeps (fun _ => True) (resolveAgentMcpTools host tenant names registry)
        (fun _ _ => True) := by
  induction names generalizing registry with
  | nil => exact keeps_pure _
  | cons name names ih =>
    unfold resolveAgentMcpTools
    refine (keeps_reads _).bind fun connection => ?_
    cases connection with
    | none => exact fail _
    | some connection =>
      refine (keeps_getOrConnect connection).bind fun _ => (keeps_ofExcept _).bind fun _ => ?_
      exact (ih _).bind fun _ => keeps_pure _

theorem keeps_resolveRunRegistry (d : AgentDefinition)
    : (acting tenant project).Keeps (fun _ => True) (resolveRunRegistry host tenant d)
        (fun _ _ => True) := by
  unfold resolveRunRegistry
  split
  . exact keeps_pure _
  . exact ((keeps_resolveAgentMcpTools _ _).mapErr _).bind fun _ => keeps_pure _

theorem admitRun_usage {money : Money} {usage usage' : Tenancy.QuotaUsage} {call : Tenancy.Admission}
    (h : (Tenancy.Meter.admitRun money usage call).mapError ApiError.ofError = .ok usage') (p : String)
    (hp : call.project ≠ p)
    : usage'.concurrent[p]? = usage.concurrent[p]? ∧ usage'.cost = usage.cost := by
  cases hadmitted : Tenancy.Meter.admitRun money usage call with
  | error e =>
    rw [hadmitted] at h
    cases h
  | ok admitted =>
    rw [hadmitted] at h
    cases h
    obtain ⟨-, -, husage⟩ := Tenancy.Meter.admitRun_eq_ok hadmitted
    rw [husage]
    exact ⟨Map.getElem?_insert_of_ne _ _ hp, rfl⟩

theorem keeps_admitRun
    : (acting tenant project).Keeps (fun _ => True) (admitRun host project) (fun _ _ => True) := by
  unfold admitRun
  cases project with
  | none => exact keeps_pure _
  | some p =>
    refine (keeps_reads _).bind fun limits => ?_
    cases limits with
    | none => exact keeps_pure _
    | some limits =>
      refine (keeps_reads _).bind fun now => ?_
      -- The usage that is checked is the usage that is changed.
      refine (gets _ (Q := fun usage s => s.usage = usage) fun _ _ _ => rfl).bind ?_
      intro usage
      refine (ofExcept _ (Q := fun usage' s => ∀ p' : String, some p ≠ some p' →
        usage'.concurrent[p']? = s.usage.concurrent[p']? ∧ usage'.cost = s.usage.cost) ?_).bind ?_
      . intro usage' s hok _ hs p' hp'
        rw [hs]
        exact admitRun_usage hok p' (fun h => hp' (congrArg some h))
      . intro usage'
        refine (modify _ (fun _ _ _ => trivial) ?_ (fun _ _ _ => trivial)).bind fun _ =>
          keeps_pure _
        intro s _ hs
        apply Acts.of_usage
        . intro p' hp'
          exact (hs p' hp').1
        . intro p' hp'
          rw [(hs p' hp').2]

theorem keeps_nextRunId
    : (acting (γ := γ) (ρ := ρ) tenant project).Keeps (fun _ => True) nextRunId (fun _ _ => True) := by
  unfold nextRunId
  refine (keeps_reads _).bind fun _ => ?_
  refine (keeps_modify ?_).bind fun _ => keeps_pure _
  intro s
  exact Acts.of_eq rfl rfl rfl rfl rfl

theorem keeps_runDefinition (d : AgentDefinition) (input : Value) (maxSteps : Option Nat)
    : (acting tenant project).Keeps (fun _ => True) (runDefinition host d input tenant project maxSteps)
        (fun _ _ => True) := by
  unfold runDefinition
  refine (keeps_resolveRunRegistry d).bind fun resolved => (keeps_admitRun).bind fun metered => ?_
  split
  . exact (keeps_modify (acts_release metered)).bind fun _ => fail _
  . refine (keeps_modify (acts_recordRunUsage host _)).bind fun _ => (keeps_nextRunId).bind fun _ => ?_
    exact (keeps_modify (acts_release metered)).bind fun _ => keeps_pure _

theorem keeps_spawn (req : RunRequest) (streamed : Bool)
    : (acting tenant project).Keeps (fun _ => True) (spawn host tenant project req streamed)
        (fun _ _ => True) := by
  unfold spawn
  refine (keeps_ofExcept _).bind fun d => (keeps_resolveRunRegistry d).bind fun resolved => ?_
  refine (keeps_admitRun).bind fun metered => (keeps_nextRunId).bind fun runId => ?_
  refine (keeps_modify ?_).bind fun _ => keeps_pure _
  intro s
  refine { Acts.refl s with jobs := ?_ }
  intro job hjob
  rw [List.mem_append, List.mem_singleton] at hjob
  rcases hjob with hjob | rfl
  . exact Or.inl hjob
  . exact Or.inr ⟨rfl, rfl⟩

theorem keeps_runAsyncInner (req : RunRequest)
    : (acting tenant project).Keeps (fun _ => True) (runAsyncInner host tenant project req)
        (fun _ _ => True) := by
  unfold runAsyncInner
  refine (keeps_spawn req false).bind fun runId => (keeps_modify ?_).bind fun _ => keeps_pure _
  intro s
  refine { Acts.refl s with runs := ?_ }
  intro id record hrun
  rcases Aging.get?_put_eq_some hrun with ⟨-, rfl⟩ | hbefore
  . exact Or.inl rfl
  . right
    rw [hbefore, Option.map_some]

end

section

variable {host : Host γ ρ} {headers : Headers} {s : AppState γ ρ}

theorem tenantAuthorize_eq_ok {admins : Tenancy.PlatformAdmins} {tenancy : TenancyState}
    {scope tenant : String} (h : Tenancy.tenantAuthorize admins tenancy headers scope = .ok tenant)
    : tenant = Tenancy.requestTenant headers
        ∧ (Tenancy.tenantContext admins tenancy headers).can scope = true := by
  unfold Tenancy.tenantAuthorize at h
  simp only [bind_eq_ok, liftM_eq_ok, TenantContext.authorize_eq_ok] at h
  obtain ⟨_, hcan, hret⟩ := h
  exact ⟨(Except.ok.inj hret).symm, hcan⟩

theorem keeps_routes (r : Request)
    : (acting (Tenancy.requestTenant headers) (Tenancy.runProject headers)).Keeps (fun _ => True)
        (routes host headers r) (fun _ _ => True) := by
  cases r with
  | run req =>
    show Keeping.Keeps _ _ (runHandler host headers req) _
    unfold runHandler
    dsimp only
    split
    . exact keeps_runAsyncInner req
    . exact (keeps_ofExcept _).bind fun d => keeps_runDefinition d _ _
  | stream req => exact (keeps_spawn req true).bind fun _ => keeps_pure _
  | runStored id req =>
    show Keeping.Keeps _ _ (runStoredHandler host headers id req) _
    unfold runStoredHandler
    refine (keeps_reads _).bind fun tenancy => ?_
    refine (ofExcept _ (Q := fun tenant _ => tenant = Tenancy.requestTenant headers)
      fun _ _ hok _ _ => (tenantAuthorize_eq_ok hok).1).bind fun tenant => ?_
    refine given (fun _ _ htenant => htenant) ?_
    rintro rfl
    refine pre (fun _ _ _ => trivial) ((keeps_reads _).bind fun d => ?_)
    cases d with
    | none => exact fail _
    | some d => exact keeps_runDefinition d _ _
  | getRun runId =>
    show Keeping.Keeps _ _ (getRunHandler headers runId) _
    unfold getRunHandler
    refine (keeps_reads _).bind fun record => ?_
    cases record with
    | none => exact fail _
    | some record =>
      dsimp only
      split
      . exact fail _
      . exact keeps_pure _

theorem acts_endJob (host : Host γ ρ) (job : Job ρ) (s : AppState γ ρ)
    : Acts job.tenant job.project s (endJob host job s) := by
  have hsend (frame : Except String Value) (s : AppState γ ρ)
      : Acts job.tenant job.project s (send job.runId frame s) :=
    Acts.of_eq rfl rfl rfl rfl rfl
  unfold endJob
  split
  . next out _ =>
    refine (acts_recordRunUsage host out s).trans (Acts.trans ?_ (acts_release job.metered _))
    split
    . exact hsend _ _
    . exact acts_finish _ _ _
  . refine Acts.trans ?_ (acts_release job.metered _)
    split
    . exact hsend _ _
    . exact acts_finish _ _ _

end

section

open Prog

variable {host : Host γ ρ} {headers : Headers} {tenant : String} {memberships : List Membership}

theorem commutes_getOrConnect (connection : McpConnection)
    : Commutes (withMemberships memberships) (getOrConnect host tenant connection) := by
  unfold getOrConnect
  refine (Commutes.gets fun _ => by rfl).bind fun now => (Commutes.gets fun _ => by rfl).bind fun fresh => ?_
  cases fresh with
  | some entry =>
    refine (Commutes.modify fun _ => by rfl).bind fun _ => ?_
    exact (Commutes.modify fun _ => by rfl).bind fun _ => Commutes.pure _
  | none =>
    refine (Commutes.modify fun _ => by rfl).bind fun _ => (Commutes.modify fun _ => by rfl).bind fun _ => ?_
    refine (Commutes.ofExcept _).bind fun _ => ?_
    exact (Commutes.modify fun _ => by rfl).bind fun _ => Commutes.pure _

theorem commutes_resolveAgentMcpTools (names : List String) (registry : ρ)
    : Commutes (withMemberships memberships) (resolveAgentMcpTools host tenant names registry) := by
  induction names generalizing registry with
  | nil => exact Commutes.pure _
  | cons name names ih =>
    unfold resolveAgentMcpTools
    refine (Commutes.gets fun _ => by rfl).bind fun connection => ?_
    cases connection with
    | none => exact Commutes.fail _
    | some connection =>
      refine (commutes_getOrConnect connection).bind fun _ => (Commutes.ofExcept _).bind fun _ => ?_
      exact (ih _).bind fun _ => Commutes.pure _

theorem commutes_resolveRunRegistry (d : AgentDefinition)
    : Commutes (withMemberships memberships) (resolveRunRegistry host tenant d) := by
  unfold resolveRunRegistry
  split
  . exact Commutes.pure _
  . exact ((commutes_resolveAgentMcpTools _ _).mapErr _).bind fun _ => Commutes.pure _

theorem commutes_admitRun (project : Option String)
    : Commutes (withMemberships memberships) (admitRun host project) := by
  unfold admitRun
  cases project with
  | none => exact Commutes.pure _
  | some p =>
    refine (Commutes.gets fun _ => by rfl).bind fun limits => ?_
    cases limits with
    | none => exact Commutes.pure _
    | some limits =>
      refine (Commutes.gets fun _ => by rfl).bind fun now => (Commutes.gets fun _ => by rfl).bind fun usage => ?_
      refine (Commutes.ofExcept _).bind fun _ => ?_
      exact (Commutes.modify fun _ => by rfl).bind fun _ => Commutes.pure _

theorem commutes_nextRunId
    : Commutes (withMemberships memberships) (nextRunId : Handler γ ρ String) := by
  unfold nextRunId
  refine (Commutes.gets fun _ => by rfl).bind fun _ => ?_
  exact (Commutes.modify fun _ => by rfl).bind fun _ => Commutes.pure _

theorem commutes_release (project : Option String) (metered : Bool)
    : Commutes (withMemberships memberships)
        (modify (release project metered) : Handler γ ρ Unit) := by
  apply Commutes.modify
  intro s
  unfold release withMemberships
  split
  . dsimp only
    split <;> rfl
  . rfl

theorem commutes_runDefinition (d : AgentDefinition) (input : Value) (project : Option String)
    (maxSteps : Option Nat)
    : Commutes (withMemberships memberships)
        (runDefinition host d input tenant project maxSteps) := by
  unfold runDefinition
  refine (commutes_resolveRunRegistry d).bind fun resolved => ?_
  refine (commutes_admitRun project).bind fun metered => ?_
  split
  . exact (commutes_release project metered).bind fun _ => Commutes.fail _
  . have hrecord (out : RunOutput) : Commutes (withMemberships memberships)
        (modify (recordRunUsage host project out) : Handler γ ρ Unit) := by
      apply Commutes.modify
      intro s
      cases project <;> rfl
    refine (hrecord _).bind fun _ => (commutes_nextRunId).bind fun _ => ?_
    exact (commutes_release project metered).bind fun _ => Commutes.pure _

theorem commutes_spawn (project : Option String) (req : RunRequest) (streamed : Bool)
    : Commutes (withMemberships memberships) (spawn host tenant project req streamed) := by
  unfold spawn
  refine (Commutes.ofExcept _).bind fun d => (commutes_resolveRunRegistry d).bind fun resolved => ?_
  refine (commutes_admitRun project).bind fun metered => (commutes_nextRunId).bind fun runId => ?_
  exact (Commutes.modify fun _ => by rfl).bind fun _ => Commutes.pure _

theorem commutes_inline {r : Request} (hr : r matches .run _ | .stream _)
    : Commutes (withMemberships memberships) (routes host headers r) := by
  cases r with
  | run req =>
    show Commutes _ (runHandler host headers req)
    unfold runHandler
    dsimp only
    split
    . refine (commutes_spawn _ req false).bind fun runId => ?_
      exact (Commutes.modify fun _ => by rfl).bind fun _ => Commutes.pure _
    . exact (Commutes.ofExcept _).bind fun d => commutes_runDefinition d _ _ _
  | stream req => exact (commutes_spawn _ req true).bind fun _ => Commutes.pure _
  | runStored id req => cases hr
  | getRun runId => cases hr

end

theorem runStored_forbidden {host : Host γ ρ} {headers : Headers} {s : AppState γ ρ} (id : String)
    (req : RunStoredRequest)
    (h : (Tenancy.tenantContext host.admins s.tenancy headers).can "agents:run" = false)
    : ∃ e, routes host headers (.runStored id req) s = (.err e, s) := by
  cases hauth : Tenancy.tenantAuthorize host.admins s.tenancy headers "agents:run" with
  | ok tenant =>
    rw [(tenantAuthorize_eq_ok hauth).2] at h
    cases h
  | error e =>
    refine ⟨e, ?_⟩
    show (Prog.ofExcept (Tenancy.tenantAuthorize host.admins s.tenancy headers "agents:run") >>= _) s = _
    rw [hauth]
    rfl

theorem getRun_eq_ok {host : Host γ ρ} {headers : Headers} {s t : AppState γ ρ} {runId : String}
    {resp : Response} (h : routes host headers (.getRun runId) s = (.ok resp, t))
    : ∃ record, s.runs.get? runId = some record ∧ record.tenant = Tenancy.requestTenant headers
        ∧ resp = .json (.object (("run_id", .string runId) :: statusFields record.status)) := by
  unfold routes getRunHandler at h
  dsimp only at h
  rw [Prog.bind_of_ok (show Prog.gets _ s = (.ok (s.runs.get? runId), s) from rfl)] at h
  cases hrun : s.runs.get? runId with
  | none =>
    rw [hrun] at h
    cases h
  | some record =>
    rw [hrun] at h
    dsimp only at h
    split at h
    . cases h
    . next htenant =>
      cases h
      exact ⟨record, rfl, by simpa using htenant, rfl⟩

/--
A stored agent is run, or anything is done for such a request, only with a role that grants
`agents:run` in the tenant of the request. A run of an inline manifest asks for no role: its answer and
what it does are the same whatever the memberships are. All routes use only connections of the tenant
that the headers name, start runs only for that tenant, return only runs that were started for it, and
charge only the project that the headers name, also when the run ends in the background.
-/
theorem acts_for_headers (host : Host γ ρ) (s : AppState γ ρ) (headers : Headers) (r : Request)
    : (∀ id req, r = .runStored id req →
          (Tenancy.tenantContext host.admins s.tenancy headers).can "agents:run" = false →
          ∃ e, routes host headers r s = (.err e, s))
        ∧ (r matches .run _ | .stream _ → ∀ memberships,
          routes host headers r (withMemberships memberships s)
            = ((routes host headers r s).1, withMemberships memberships (routes host headers r s).2))
        ∧ Acts (Tenancy.requestTenant headers) (Tenancy.runProject headers) s
            (routes host headers r s).2
        ∧ (∀ runId resp t, r = .getRun runId → routes host headers r s = (.ok resp, t) →
          ∃ record, s.runs.get? runId = some record ∧ record.tenant = Tenancy.requestTenant headers
            ∧ resp = .json (.object (("run_id", .string runId) :: statusFields record.status)))
        ∧ ∀ job ∈ s.jobs, Acts job.tenant job.project s (endJob host job s) := by
  refine ⟨?_, ?_, ?_, ?_, ?_⟩
  . rintro id req rfl hcan
    exact runStored_forbidden id req hcan
  . intro hr memberships
    exact commutes_inline hr s
  . exact (keeps_routes r s trivial trivial).2.1
  . rintro runId resp t rfl hok
    exact getRun_eq_ok hok
  . intro job _
    exact acts_endJob host job s

def scopeOf : Request → String
  | .getRun _ => "agents:read"
  | _ => "agents:run"

def May (admins : Tenancy.PlatformAdmins) (tenancy : TenancyState) (headers : Headers) (r : Request) : Prop :=
  (Tenancy.tenantContext admins tenancy headers).can (scopeOf r) = true

def Own (tenancy : TenancyState) (headers : Headers) (project : String) : Prop :=
  tenancy.tenantOf (.project project) = some (Tenancy.requestTenant headers)

/--
A request that is answered, uses connections, charges a project or starts a run only with a role that grants its scope
in the tenant, and whose connections, runs and projects are those of that tenant.
-/
structure Membered (host : Host γ ρ) (headers : Headers) (r : Request) (s : AppState γ ρ) : Prop where
  answers : ∀ resp t, routes host headers r s = (.ok resp, t) → May host.admins s.tenancy headers r
  reached : ∀ x ∈ (routes host headers r s).2.reached, x ∈ s.reached
    ∨ (May host.admins s.tenancy headers r ∧ x.tenant = Tenancy.requestTenant headers)
  returns : ∀ runId resp t, r = .getRun runId → routes host headers r s = (.ok resp, t) →
    ∃ record, s.runs.get? runId = some record ∧ record.tenant = Tenancy.requestTenant headers
  charges : ∀ p : String, ((routes host headers r s).2.usage.concurrent[p]? = s.usage.concurrent[p]?
      ∧ (routes host headers r s).2.usage.cost[p]? = s.usage.cost[p]?)
    ∨ (May host.admins s.tenancy headers r ∧ Own s.tenancy headers p)
  jobs : ∀ job ∈ (routes host headers r s).2.jobs, job ∈ s.jobs
    ∨ (May host.admins s.tenancy headers r ∧ job.tenant = Tenancy.requestTenant headers
      ∧ ∀ p, job.project = some p → Own s.tenancy headers p)

/--
The headers name no project of another tenant, and the caller has the role where the route does not ask for it.
-/
def Entitled (admins : Tenancy.PlatformAdmins) (tenancy : TenancyState) (headers : Headers) (r : Request) : Prop :=
  match r with
  | .run _ | .stream _ => May admins tenancy headers r ∧ ∀ p, Tenancy.runProject headers = some p → Own tenancy headers p
  | .runStored _ _ => May admins tenancy headers r → ∀ p, Tenancy.runProject headers = some p → Own tenancy headers p
  | .getRun _ => May admins tenancy headers r

section Members

variable {host : Host γ ρ} {headers : Headers} {r : Request} {s : AppState γ ρ}

theorem membered_of_same (hsame : (routes host headers r s).2 = s)
    (hanswers : ∀ resp t, routes host headers r s = (.ok resp, t) → May host.admins s.tenancy headers r)
    : Membered host headers r s := by
  refine ⟨hanswers, ?_, ?_, ?_, ?_⟩
  . exact fun x hx => .inl (hsame ▸ hx)
  . intro runId resp t hr hok
    obtain ⟨record, hrecord, htenant, -⟩ := (acts_for_headers host s headers r).2.2.2.1 runId resp t hr hok
    exact ⟨record, hrecord, htenant⟩
  . exact fun p => .inl ⟨by rw [hsame], by rw [hsame]⟩
  . exact fun job hjob => .inl (hsame ▸ hjob)

theorem membered_of_own (hmay : May host.admins s.tenancy headers r)
    (hown : ∀ p, Tenancy.runProject headers = some p → Own s.tenancy headers p) : Membered host headers r s := by
  obtain ⟨-, -, hacts, hruns, -⟩ := acts_for_headers host s headers r
  refine ⟨fun _ _ _ => hmay, ?_, ?_, ?_, ?_⟩
  . exact fun x hx => (hacts.reached x hx).imp id fun htenant => ⟨hmay, htenant⟩
  . intro runId resp t hr hok
    obtain ⟨record, hrecord, htenant, -⟩ := hruns runId resp t hr hok
    exact ⟨record, hrecord, htenant⟩
  . intro p
    by_cases hp : Tenancy.runProject headers = some p
    . exact .inr ⟨hmay, hown p hp⟩
    . exact .inl ⟨hacts.concurrent p hp, hacts.cost p hp⟩
  . intro job hjob
    rcases hacts.jobs job hjob with hold | ⟨htenant, hproject⟩
    . exact .inl hold
    . exact .inr ⟨hmay, htenant, fun p hp => hown p (hproject ▸ hp)⟩

theorem membered_of_entitled (h : Entitled host.admins s.tenancy headers r) : Membered host headers r s := by
  cases r with
  | run req => exact membered_of_own h.1 h.2
  | stream req => exact membered_of_own h.1 h.2
  | runStored id req =>
    by_cases hmay : May host.admins s.tenancy headers (.runStored id req)
    . exact membered_of_own hmay (h hmay)
    . obtain ⟨e, he⟩ := runStored_forbidden id req (Bool.eq_false_iff.mpr hmay)
      apply membered_of_same (by rw [he])
      intro resp t hok
      rw [he] at hok
      cases hok
  | getRun runId =>
    refine membered_of_same ?_ fun _ _ _ => h
    show (getRunHandler headers runId s).2 = s
    unfold getRunHandler
    rw [Prog.bind_of_ok (show Prog.gets _ s = (.ok (s.runs.get? runId), s) from rfl)]
    cases s.runs.get? runId with
    | none => rfl
    | some record =>
      dsimp only
      split <;> rfl

end Members

def crmHost : Host Unit Unit where
  admins := none
  money := Tenancy.Meter.exactMoney
  parseYaml _ := .ok { name := "bot", instructions := "hi", mcpServers := ["crm"] }
  registry := ()
  connect _ _ := .ok ()
  registerInto _ _ := .ok ((), ["mcp__crm__list"])
  runAgent _ _ _ := .ok ⟨"done", 1, 10, 0⟩
  idleTimeout := 600000
  runBounds := ⟨3600000, 1000⟩

def acmeState : AppState Unit Unit where
  tenancy := { Tenancy.twoTenants.state with memberships := [] }
  connections tenant name := if tenant = "acme" ∧ name = "crm" then some { name := "crm" } else none

section Probe

variable {admins : Tenancy.PlatformAdmins} {tenancy : TenancyState} {headers : Headers} {r : Request} {runId : String}

def openHost (admins : Tenancy.PlatformAdmins) : Host Unit Unit :=
  { crmHost with admins, parseYaml := fun _ => .ok { name := "bot", instructions := "hi" } }

-- No quota, every stored agent and one run of the tenant.
def openState (tenancy : TenancyState) (tenant runId : String) : AppState Unit Unit where
  tenancy := { tenancy with quotas := ∅ }
  agents := fun _ _ => some ""
  runs := { entries := (∅ : Std.ExtTreeMap String (RunRecord × Nat)).insert runId (⟨tenant, .running⟩, 0), order := [runId] }

def Charged (project : Option String) (s : AppState Unit Unit) : Prop :=
  ∀ p, project = some p → s.usage.cost[p]? ≠ none ∨ ∃ job ∈ s.jobs, job.project = some p

theorem charged_runDefinition (input : Value) (tenant : String) (project : Option String) (maxSteps : Option Nat)
    : ∃ resp t, runDefinition (openHost admins) { name := "bot", instructions := "hi" } input tenant project maxSteps
          (openState tenancy tenant runId) = (.ok resp, t) ∧ Charged project t := by
  cases project with
  | none => exact ⟨_, _, rfl, nofun⟩
  | some p =>
    refine ⟨_, _, rfl, ?_⟩
    rintro _ ⟨⟩
    left
    simp [release, recordRunUsage, Tenancy.Meter.recordUsage]

theorem charged_routes (hr : ∀ runId, r ≠ .getRun runId)
    (hstored : ∀ id req, r = .runStored id req → May admins tenancy headers r)
    : ∃ resp t, routes (openHost admins) headers r (openState tenancy (Tenancy.requestTenant headers) runId) = (.ok resp, t)
        ∧ Charged (Tenancy.runProject headers) t := by
  cases r with
  | run req =>
    by_cases hasync : wantsAsync headers = true
    . have heq : routes (openHost admins) headers (.run req) = runAsyncInner _ _ _ req := if_pos hasync
      rw [heq]
      cases Tenancy.runProject headers with
      | none => exact ⟨_, _, rfl, nofun⟩
      | some p => exact ⟨_, _, rfl, fun _ hp => .inr ⟨_, List.mem_singleton_self _, hp⟩⟩
    . have heq : routes (openHost admins) headers (.run req) = runInner _ _ _ req := if_neg hasync
      rw [heq]
      exact charged_runDefinition req.input _ _ req.maxSteps
  | stream req =>
    show ∃ resp t, runStreamHandler (openHost admins) headers req _ = (.ok resp, t) ∧ _
    unfold runStreamHandler
    cases Tenancy.runProject headers with
    | none => exact ⟨_, _, rfl, nofun⟩
    | some p => exact ⟨_, _, rfl, fun _ hp => .inr ⟨_, List.mem_singleton_self _, hp⟩⟩
  | runStored id req =>
    have hauth : Tenancy.tenantAuthorize admins { tenancy with quotas := ∅ } headers "agents:run"
        = .ok (Tenancy.requestTenant headers) := by
      have hok := (TenantContext.authorize_eq_ok _ _ ()).mpr (hstored id req rfl)
      unfold Tenancy.tenantAuthorize
      exact (congrArg (· >>= fun _ => _) (congrArg liftM hok)).trans rfl
    obtain ⟨resp, t, hrun, hcharged⟩ := @charged_runDefinition admins tenancy runId req.input (Tenancy.requestTenant headers) (Tenancy.runProject headers) req.maxSteps
    refine ⟨resp, t, ?_, hcharged⟩
    rw [← hrun]
    show (Prog.ofExcept (Tenancy.tenantAuthorize admins { tenancy with quotas := ∅ } headers "agents:run") >>= _) _ = _
    rw [hauth]
    rfl
  | getRun runId => exact absurd rfl (hr runId)

theorem answered_getRun : ∃ resp t, routes (openHost admins) headers (.getRun runId)
    (openState tenancy (Tenancy.requestTenant headers) runId) = (.ok resp, t) := by
  let s := openState tenancy (Tenancy.requestTenant headers) runId
  have hrun : s.runs.get? runId = some ⟨Tenancy.requestTenant headers, .running⟩ := by
    simp [s, openState, Aging.get?]
  show ∃ resp t, getRunHandler headers runId s = (.ok resp, t)
  unfold getRunHandler
  rw [Prog.bind_of_ok (show Prog.gets _ s = (.ok (s.runs.get? runId), s) from rfl), hrun]
  dsimp only
  rw [if_neg (by simp)]
  exact ⟨_, _, rfl⟩

/--
With some organizations, projects and memberships, whatever the host and the rest of the state is, a request does only
what a member may do exactly if its headers entitle it to that.
-/
theorem membered_iff_entitled (admins : Tenancy.PlatformAdmins) (tenancy : TenancyState) (headers : Headers) (r : Request)
    : (∀ (γ ρ : Type) (host : Host γ ρ) (s : AppState γ ρ), host.admins = admins →
          s.tenancy = { tenancy with quotas := s.tenancy.quotas } → Membered host headers r s)
        ↔ Entitled admins tenancy headers r := by
  constructor
  . intro h
    have hopen (runId : String) : Membered (openHost admins) headers r
        (openState tenancy (Tenancy.requestTenant headers) runId) := h Unit Unit _ _ rfl rfl
    have hcharge (hr : ∀ runId, r ≠ .getRun runId)
        (hstored : ∀ id req, r = .runStored id req → May admins tenancy headers r)
        : May admins tenancy headers r ∧ ∀ p, Tenancy.runProject headers = some p → Own tenancy headers p := by
      obtain ⟨resp, t, hrun, hcharged⟩ := @charged_routes admins tenancy headers r "" hr hstored
      refine ⟨(hopen "").answers resp t hrun, fun p hp => ?_⟩
      rcases hcharged p hp with hcost | ⟨job, hjob, hproject⟩
      . rcases (hopen "").charges p with ⟨-, hsame⟩ | ⟨-, hown⟩
        . rw [hrun] at hsame
          exact absurd (hsame.trans (by simp [openState])) hcost
        . exact hown
      . rcases (hopen "").jobs job (by rwa [hrun]) with hold | ⟨-, -, hown⟩
        . exact absurd hold List.not_mem_nil
        . exact hown p hproject
    cases r with
    | run req => exact hcharge nofun nofun
    | stream req => exact hcharge nofun nofun
    | runStored id req => exact fun hmay => (hcharge nofun fun _ _ _ => hmay).2
    | getRun runId =>
      obtain ⟨resp, t, hrun⟩ := @answered_getRun admins tenancy headers runId
      exact (hopen runId).answers resp t hrun
  . intro h γ ρ host s hadmins htenancy
    apply membered_of_entitled
    rw [hadmins, htenancy]
    exact h

end Probe

-- A request in the tenant `acme` succeeds only with some role of an agents scope there.
theorem not_member_runs
    : ¬(∀ (host : Host Unit Unit) (s : AppState Unit Unit) (headers : Headers) (r : Request),
          Tenancy.isPlatformAdmin host.admins (Tenancy.requestPrincipal headers) = false →
          (∃ resp t, routes host headers r s = (.ok resp, t)) →
          ∃ scope ∈ ["agents:run", "agents:read"],
            (Tenancy.tenantContext host.admins s.tenancy headers).can scope = true)
        ∧ (routes crmHost Tenancy.malloryHeaders (.run ⟨"", .null, none⟩) acmeState).2.reached
          = [⟨"acme", "crm", true⟩] := by
  refine ⟨?_, by decide⟩
  intro h
  have hrole := h crmHost acmeState Tenancy.malloryHeaders (.run ⟨"", .null, none⟩) (by decide) ?_
  . revert hrole
    decide
  . have hok : (routes crmHost Tenancy.malloryHeaders (.run ⟨"", .null, none⟩) acmeState).1.ok?.isSome := by
      decide
    cases hrun : routes crmHost Tenancy.malloryHeaders (.run ⟨"", .null, none⟩) acmeState with
    | mk o t =>
      rw [hrun] at hok
      cases o with
      | ok resp => exact ⟨resp, t, rfl⟩
      | err e | halted => cases hok

end Wovyr.Server.Agents
