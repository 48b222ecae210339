import Wovyr.Agent.Spending
import Wovyr.Server.Agents.Access

/-!
This module contains what a run adds to the usage of its project.
-/

namespace Wovyr.Server.Agents

open Keeping.Keeps

variable {γ ρ : Type}

-- The gateway and what else the loop finds in its environment. `answers` is what the gateway answers
-- to the requests of a run.
structure Runtime (ρ : Type) where
  tools : ρ → Tools.ToolRegistry
  rest : Value → Agent.AgentDefinition
  guardrails : Agent.Guardrails := []
  providerName : String
  unicode : Unicode
  fmt : Provider.Formats
  parseJson : String → Except String Value
  addCost : Rat → Rat → Rat
  unrestrictedToolsEscapeHatch : Bool := false
  answers : AgentDefinition → ρ → RunOptions → Nat → Agent.Stream

namespace Runtime

variable (runtime : Runtime ρ) (d : AgentDefinition) (registry : ρ) (opts : RunOptions)

def setup : Agent.Setup where
  definition := { runtime.rest d.rest with
    name := d.name
    instructions := d.instructions
    prompt := d.prompt.map (·.template)
    maxSteps := d.maxSteps
    tools := d.tools }
  registry := runtime.tools registry
  opts := {
    input := opts.input
    maxSteps := opts.maxSteps
    tenant := opts.tenant
    hosted := opts.hosted
    guardrails := runtime.guardrails }
  providerName := runtime.providerName
  unicode := runtime.unicode
  fmt := runtime.fmt
  parseJson := runtime.parseJson
  addCost := runtime.addCost
  unrestrictedToolsEscapeHatch := runtime.unrestrictedToolsEscapeHatch

def streams : List Agent.Stream :=
  (List.range (runtime.setup d registry opts).answersEnough).map (runtime.answers d registry opts)

def run : Agent.RunState :=
  (runtime.setup d registry opts).run (runtime.streams d registry opts)

def runAgent : Except Error RunOutput :=
  match (runtime.run d registry opts).phase with
  | .ended (.ok out) =>
    .ok { text := out.text, steps := out.steps, totalTokens := out.usage.totalTokens
          costUsd := out.usage.costUsd }
  | .ended (.error e) => .error e
  -- A run with that many answers has ended.
  | .asking _ _ => .error (.runtime "")

def drive (host : Host γ ρ) : Host γ ρ :=
  { host with runAgent := runtime.runAgent }

theorem ended_run : ∃ result, (runtime.run d registry opts).phase = .ended result := by
  apply Agent.Setup.ended_of_length
  rw [streams, List.length_map, List.length_range]

theorem charged_of_runAgent_ok {out : RunOutput} (h : runtime.runAgent d registry opts = .ok out)
    : (runtime.run d registry opts).charged = out.totalTokens := by
  unfold runAgent at h
  unfold Agent.RunState.charged
  split at h
  . rename_i output hphase
    cases h
    rw [hphase]
  . cases h
  . cases h

theorem charged_of_runAgent_error {e : Error} (h : runtime.runAgent d registry opts = .error e)
    : (runtime.run d registry opts).charged = 0 := by
  obtain ⟨result, hphase⟩ := runtime.ended_run d registry opts
  unfold runAgent at h
  unfold Agent.RunState.charged
  rw [hphase] at h ⊢
  cases result with
  | ok output => cases h
  | error e => rfl

end Runtime

def tokensOn (s : AppState γ ρ) (project : String) (day : Nat) : Nat :=
  (Tenancy.Meter.spentOn s.usage project day).2

def today (s : AppState γ ρ) (project : String) : Nat :=
  Tenancy.dayBucket (s.clockMs / 1000)
    (((s.tenancy.getQuota project).bind (·.dayResetOffsetMinutes)).getD 0)

def Charges (project : String) (s s' : AppState γ ρ) (tokens : Nat) : Prop :=
  tokensOn s' project (today s' project) = tokensOn s project (today s' project) + tokens

inductive Ended (host : Host γ ρ) (project : String) (s : AppState γ ρ)
    : AgentDefinition → ρ → RunOptions → AppState γ ρ → Prop where
  | within {d d' : AgentDefinition} {registry : ρ} {tenant : String} {input : Value}
    {maxSteps : Option Nat} {metered : Bool} {s₁ s₂ : AppState γ ρ} :
    resolveRunRegistry host tenant d s = (.ok (registry, d'), s₁) →
    admitRun host (some project) s₁ = (.ok metered, s₂) →
    Ended host project s d' registry (options d' tenant input maxSteps)
      (runDefinition host d input tenant (some project) maxSteps s).2
  | background {job : Job ρ} :
    job.project = some project →
    Ended host project s job.definition job.registry job.options (endJob host job s)

section

variable (host : Host γ ρ) (s : AppState γ ρ) (project : String)

theorem cost_resolveRunRegistry (tenant : String) (d : AgentDefinition) (p : String)
    : (resolveRunRegistry host tenant d s).2.usage.cost[p]? = s.usage.cost[p]? := by
  have hresolves : (acting tenant none).Keeps (fun _ => True) (resolveRunRegistry host tenant d)
      (fun _ _ => True) := keeps_resolveRunRegistry d
  have hkeeps := hresolves s trivial trivial
  exact hkeeps.2.1.cost p nofun

theorem cost_of_admitRun {money : Money} {usage usage' : Tenancy.QuotaUsage} {call : Tenancy.Admission}
    (h : (Tenancy.Meter.admitRun money usage call).mapError ApiError.ofError = .ok usage')
    : usage'.cost = usage.cost := by
  cases hadmitted : Tenancy.Meter.admitRun money usage call with
  | error e =>
    rw [hadmitted] at h
    cases h
  | ok admitted =>
    rw [hadmitted] at h
    cases h
    obtain ⟨-, -, husage⟩ := Tenancy.Meter.admitRun_eq_ok hadmitted
    rw [husage]

def spending : Keeping (AppState γ ρ) where
  inv _ := True
  le s s' := s'.usage.cost = s.usage.cost
  refl _ := rfl
  trans _ _ _ hst htu := htu.trans hst

theorem cost_admitRun (project : Option String)
    : (admitRun host project s).2.usage.cost = s.usage.cost := by
  have hkeeps : spending.Keeps (fun _ => True) (admitRun host project) (fun _ _ => True) := by
    unfold admitRun
    cases project with
    | none => exact pure _ fun _ _ _ => trivial
    | some p =>
      refine (reads _).bind fun limits => ?_
      cases limits with
      | none => exact pure _ fun _ _ _ => trivial
      | some limits =>
        refine (reads _).bind fun now => ?_
        refine (gets _ (Q := fun usage s => s.usage = usage) fun _ _ _ => rfl).bind ?_
        intro usage
        refine (ofExcept _ (Q := fun usage' s => usage'.cost = s.usage.cost) ?_).bind ?_
        . intro usage' s hok _ hs
          rw [hs]
          exact cost_of_admitRun hok
        . intro usage'
          refine (modify _ (Q := fun _ _ => True) (fun _ _ _ => trivial) ?_
            (fun _ _ _ => trivial)).bind fun _ => pure _ fun _ _ _ => trivial
          exact fun _ _ hs => hs
  exact (hkeeps s trivial trivial).2.1

theorem tokensOn_congr {s s' : AppState γ ρ} {project : String} {day : Nat}
    (h : s'.usage.cost[project]? = s.usage.cost[project]?)
    : tokensOn s' project day = tokensOn s project day := by
  unfold tokensOn Tenancy.Meter.spentOn
  rw [h]

structure Settles (s s' : AppState γ ρ) : Prop where
  cost : s'.usage.cost = s.usage.cost
  tenancy : s'.tenancy = s.tenancy
  clockMs : s'.clockMs = s.clockMs

theorem Settles.refl (s : AppState γ ρ) : Settles s s :=
  ⟨rfl, rfl, rfl⟩

theorem Settles.trans {s t u : AppState γ ρ} (hst : Settles s t) (htu : Settles t u) : Settles s u :=
  ⟨htu.cost.trans hst.cost, htu.tenancy.trans hst.tenancy, htu.clockMs.trans hst.clockMs⟩

theorem Settles.tokensOn {s s' : AppState γ ρ} (h : Settles s s') (project : String) (day : Nat)
    : tokensOn s' project day = tokensOn s project day :=
  tokensOn_congr (congrArg (fun cost => cost[project]?) h.cost)

theorem Settles.today {s s' : AppState γ ρ} (h : Settles s s') (project : String)
    : today s' project = today s project := by
  unfold Agents.today
  rw [h.tenancy, h.clockMs]

theorem settles_release (metered : Bool) (p : Option String) : Settles s (release p metered s) := by
  unfold release
  split
  . split
    . exact .refl s
    . exact ⟨rfl, rfl, rfl⟩
  . exact .refl s

theorem settles_finish (runId : String) (status : AsyncRunStatus) : Settles s (finish runId status s) := by
  unfold finish
  split
  . exact .refl s
  . exact ⟨rfl, rfl, rfl⟩

theorem settles_send (runId : String) (frame : Except String Value) : Settles s (send runId frame s) :=
  ⟨rfl, rfl, rfl⟩

theorem tokensOn_recordRunUsage (out : RunOutput)
    : tokensOn (recordRunUsage host (some project) out s) project (today s project)
        = saturatingAdd (tokensOn s project (today s project)) out.totalTokens := by
  unfold tokensOn recordRunUsage Tenancy.Meter.recordUsage today
  dsimp only
  rw [Tenancy.Meter.spentOn, Map.getElem?_insert, if_pos rfl]
  dsimp only
  rw [if_pos rfl]

end

section

variable (runtime : Runtime ρ) (host : Host γ ρ) (d : AgentDefinition) (registry : ρ) (opts : RunOptions)

theorem charged_le
    : (runtime.run d registry opts).charged ≤ (runtime.run d registry opts).receivedTokens :=
  Agent.Setup.charged_run_le _

variable {project : String} {s s' t : AppState γ ρ} {runtime host d registry opts}

theorem charges_of_recorded {out : RunOutput} (hok : runtime.runAgent d registry opts = .ok out)
    (hcost : t.usage.cost[project]? = s.usage.cost[project]?)
    (hsettles : Settles (recordRunUsage host (some project) out t) s')
    (hroom : tokensOn s project (today s' project)
      + (runtime.run d registry opts).receivedTokens ≤ u64Max)
    : Charges project s s' (runtime.run d registry opts).charged := by
  have hle := charged_le runtime d registry opts
  have hday : today s' project = today t project := hsettles.today project
  unfold Charges
  rw [hday] at hroom ⊢
  rw [hsettles.tokensOn, tokensOn_recordRunUsage, tokensOn_congr hcost,
    ← runtime.charged_of_runAgent_ok d registry opts hok]
  unfold saturatingAdd
  omega

theorem charges_of_error {e : Error} (herror : runtime.runAgent d registry opts = .error e)
    (hcost : t.usage.cost[project]? = s.usage.cost[project]?) (hsettles : Settles t s')
    : Charges project s s' (runtime.run d registry opts).charged := by
  unfold Charges
  rw [runtime.charged_of_runAgent_error d registry opts herror, hsettles.tokensOn, tokensOn_congr hcost,
    Nat.add_zero]

theorem charges_endJob {job : Job ρ} (hproject : job.project = some project)
    (hroom : tokensOn s project (today (endJob (runtime.drive host) job s) project)
      + (runtime.run job.definition job.registry job.options).receivedTokens ≤ u64Max)
    : Charges project s (endJob (runtime.drive host) job s)
        (runtime.run job.definition job.registry job.options).charged := by
  have hends : ∀ (t : AppState γ ρ) (frame : Except String Value) (status : AsyncRunStatus),
      Settles t (release job.project job.metered
        (if job.streamed then send job.runId frame t else finish job.runId status t)) := by
    intro t frame status
    refine Settles.trans ?_ (settles_release _ _ _)
    split
    . exact settles_send t _ _
    . exact settles_finish t _ _
  unfold endJob at hroom ⊢
  cases hrun : runtime.runAgent job.definition job.registry job.options with
  | ok out =>
    simp only [Runtime.drive, hrun] at hroom ⊢
    apply @charges_of_recorded _ _ _ (runtime.drive host) _ _ _ _ _ _ _ _ hrun rfl ?_ hroom
    rw [← hproject]
    exact hends _ _ _
  | error e =>
    simp only [Runtime.drive, hrun] at hroom ⊢
    exact charges_of_error hrun rfl (hends _ _ _)

theorem charges_runDefinition {tenant : String} {d' : AgentDefinition} {input : Value}
    {maxSteps : Option Nat} {metered : Bool} {s₁ s₂ : AppState γ ρ}
    (hresolve : resolveRunRegistry (runtime.drive host) tenant d s = (.ok (registry, d'), s₁))
    (hadmits : admitRun (runtime.drive host) (some project) s₁ = (.ok metered, s₂))
    (hroom : tokensOn s project (today (runDefinition (runtime.drive host) d input tenant (some project)
        maxSteps s).2 project)
      + (runtime.run d' registry (options d' tenant input maxSteps)).receivedTokens ≤ u64Max)
    : Charges project s
        (runDefinition (runtime.drive host) d input tenant (some project) maxSteps s).2
        (runtime.run d' registry (options d' tenant input maxSteps)).charged := by
  have hresolved := cost_resolveRunRegistry (runtime.drive host) s tenant d project
  have hadmitted := cost_admitRun (runtime.drive host) s₁ (some project)
  rw [hresolve] at hresolved
  rw [hadmits] at hadmitted
  have hcost : s₂.usage.cost[project]? = s.usage.cost[project]? := by
    rw [hadmitted]
    exact hresolved
  unfold runDefinition at hroom ⊢
  rw [Prog.bind_of_ok hresolve] at hroom ⊢
  dsimp only at hroom ⊢
  rw [Prog.bind_of_ok hadmits] at hroom ⊢
  cases hrun : runtime.runAgent d' registry (options d' tenant input maxSteps) with
  | ok out =>
    simp only [Runtime.drive, hrun] at hroom ⊢
    apply @charges_of_recorded _ _ _ (runtime.drive host) _ _ _ _ _ _ _ _ hrun hcost ?_ hroom
    exact Settles.trans
      (t := { recordRunUsage (runtime.drive host) (some project) out s₂ with runCounter := s₂.runCounter + 1 })
      ⟨rfl, rfl, rfl⟩ (settles_release _ _ _)
  | error e =>
    simp only [Runtime.drive, hrun] at hroom ⊢
    apply charges_of_error hrun hcost
    exact settles_release _ _ _

-- A run charges its project for all tokens that it has received exactly if none of its answers loses
-- any.
theorem charges_iff_keeps (runtime : Runtime ρ) (host : Host γ ρ) {project : String} {s s' : AppState γ ρ}
    {d : AgentDefinition} {registry : ρ} {opts : RunOptions}
    (h : Ended (runtime.drive host) project s d registry opts s')
    (hroom : tokensOn s project (today s' project)
      + (runtime.run d registry opts).receivedTokens ≤ u64Max)
    : Charges project s s' (runtime.run d registry opts).receivedTokens
        ↔ Run (Guarded (runtime.setup d registry opts).Keeps (runtime.setup d registry opts).answer)
            (runtime.setup d registry opts).start (runtime.streams d registry opts)
            (runtime.run d registry opts) := by
  have hcharges : Charges project s s' (runtime.run d registry opts).charged := by
    cases h with
    | within hresolve hadmits => exact charges_runDefinition hresolve hadmits hroom
    | background hproject => exact charges_endJob hproject hroom
  have hiff : Charges project s s' (runtime.run d registry opts).receivedTokens
      ↔ (runtime.run d registry opts).charged = (runtime.run d registry opts).receivedTokens := by
    unfold Charges at hcharges ⊢
    omega
  rw [hiff]
  exact Agent.Setup.charged_eq_iff_keeps _

end

def scripted (answers : List Agent.Stream) : Runtime Unit where
  tools := fun _ => .new
  rest := fun _ => { name := "" }
  providerName := "mock"
  unicode := .asciiOnly
  fmt := { float := fun _ => "", str := id, value := fun _ => "", json := fun _ => [] }
  parseJson := fun _ => .ok .null
  addCost := fun a b => a + b
  answers := fun _ _ _ i => answers.getD i (.error (.invalid "bad request"))

def greeting : Job Unit where
  runId := "run_1"
  tenant := "acme"
  project := some "proj_1"
  metered := false
  definition := { name := "hello", instructions := "Greet the user." }
  registry := ()
  options := { input := .string "Hello", maxSteps := some 2, tenant := "acme", hosted := true }
  streamed := false

def noAgents : AppState Unit Unit where
  tenancy := Tenancy.twoTenants.state

def echoed : Runtime Unit :=
  scripted [.ok [.ok (.done (Agent.toolRequest "echo" "" 10))], .ok [.ok (.done (Agent.finalAnswer "Hello!" 5))]]

-- The round with the tool and the answer after it are charged.
theorem charges_iff_keeps_answered
    : (echoed.run greeting.definition () greeting.options).receivedTokens = 15
        ∧ Charges "proj_1" noAgents (endJob (echoed.drive crmHost) greeting noAgents)
          (echoed.run greeting.definition () greeting.options).receivedTokens := by
  refine ⟨by decide, ?_⟩
  apply (charges_iff_keeps echoed crmHost (@Ended.background _ _ _ _ _ greeting rfl) (by decide)).mpr
  exact Agent.Setup.charged_eq_iff_keeps _ |>.mp (by decide)

-- The model asks for a tool, and its next answer is refused.
theorem not_charges_failed
    : ¬Charges "proj_1" noAgents
        (endJob ((scripted [.ok [.ok (.done (Agent.toolRequest "echo" "" 10))]]).drive crmHost) greeting noAgents)
        ((scripted [.ok [.ok (.done (Agent.toolRequest "echo" "" 10))]]).run greeting.definition ()
          greeting.options).receivedTokens := by
  unfold Charges
  decide

end Wovyr.Server.Agents
