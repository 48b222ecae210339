import Wovyr.Lib.Map
import Wovyr.Lib.Run
import Wovyr.Server.Tenancy

/-!
This module contains the admission of agent runs under the quota of a project. A call reads the
quota and the clock before it takes the lock of the usage.
-/

namespace Wovyr.Server.Tenancy

structure QuotaUsage where
  concurrent : Std.ExtTreeMap String Nat := ∅
  cost : Std.ExtTreeMap String (Nat × Rat × Nat) := ∅

def dayBucket (epochSecs : Nat) (offsetMinutes : Int) : Nat :=
  let offsetSecs := max (-1440) (min 1440 offsetMinutes) * 60
  (((epochSecs : Int) + offsetSecs) / 86400).toNat

-- A call of `admit_run` that has read the quota.
structure Admission where
  project : String
  limits : QuotaLimits
  day : Nat
deriving DecidableEq

-- A call of `record_run_usage` that has read the offset of the day.
structure Recording where
  project : String
  day : Nat
  cost : Rat
  tokens : Nat

structure Meter where
  quotas : Std.ExtTreeMap String QuotaLimits := ∅
  clock : Nat := 0
  usage : QuotaUsage := {}
  admissions : List Admission := []
  recordings : List Recording := []
  -- The projects of the metered permits that have not been dropped.
  permits : List String := []
  recorded : String → Nat → Nat := fun _ _ => 0

namespace Meter

variable (money : Money)

def offset (s : Meter) (project : String) : Int :=
  ((s.quotas[project]?).bind (·.dayResetOffsetMinutes)).getD 0

-- The day in which a call finds itself that looks at the clock now.
def today (s : Meter) (project : String) : Nat :=
  dayBucket s.clock (s.offset project)

-- Without a project or a quota the run is not metered.
def beginAdmit (s : Meter) (project : Option String) : Meter :=
  match project with
  | none => s
  | some project =>
    match s.quotas[project]? with
    | none => s
    | some limits =>
      let day := dayBucket s.clock (limits.dayResetOffsetMinutes.getD 0)
      { s with admissions := s.admissions ++ [⟨project, limits, day⟩] }

def spentOn (usage : QuotaUsage) (project : String) (day : Nat) : Rat × Nat :=
  match usage.cost[project]? with
  | some (d, cost, tokens) => if d = day then (cost, tokens) else (0, 0)
  | none => (0, 0)

def admitRun (usage : QuotaUsage) (call : Admission) : Except Error QuotaUsage := do
  let current := (usage.concurrent[call.project]?).getD 0
  call.limits.checkConcurrentRuns current
  let (spent, tokensUsed) := spentOn usage call.project call.day
  call.limits.checkLlmCost money spent 0
  call.limits.checkLlmTokens tokensUsed 0
  return { usage with
    concurrent := usage.concurrent.insert call.project ((current + 1) % 2 ^ 64) }

def finishAdmit (s : Meter) (i : Nat) : Meter :=
  match s.admissions[i]? with
  | none => s
  | some call =>
    let s := { s with admissions := s.admissions.eraseIdx i }
    match admitRun money s.usage call with
    | .ok usage => { s with usage, permits := s.permits ++ [call.project] }
    | .error _ => s

def dropPermit (s : Meter) (i : Nat) : Meter :=
  match s.permits[i]? with
  | none => s
  | some project =>
    let s := { s with permits := s.permits.eraseIdx i }
    match s.usage.concurrent[project]? with
    | some c =>
      { s with usage := { s.usage with concurrent := s.usage.concurrent.insert project (c - 1) } }
    | none => s

def beginRecord (s : Meter) (project : Option String) (cost : Rat) (tokens : Nat) : Meter :=
  match project with
  | none => s
  | some project =>
    { s with recordings := s.recordings ++ [⟨project, s.today project, cost, tokens⟩] }

def recordUsage (usage : QuotaUsage) (call : Recording) : QuotaUsage :=
  let (cost, tokens) := spentOn usage call.project call.day
  { usage with
    cost := usage.cost.insert call.project
      (call.day, money.addF64 cost call.cost, saturatingAdd tokens call.tokens) }

def finishRecord (s : Meter) (i : Nat) : Meter :=
  match s.recordings[i]? with
  | none => s
  | some call =>
    { s with
      recordings := s.recordings.eraseIdx i
      usage := recordUsage money s.usage call
      recorded := fun project day =>
        if project = call.project ∧ day = call.day then
          s.recorded project day + call.tokens
        else
          s.recorded project day }

inductive Move where
  | beginAdmit (project : Option String)
  | finishAdmit (i : Nat)
  | dropPermit (i : Nat)
  | beginRecord (project : Option String) (cost : Rat) (tokens : Nat)
  | finishRecord (i : Nat)
  | setQuota (project : String) (limits : QuotaLimits)
  | setClock (clock : Nat)

def move (s : Meter) : Move → Meter
  | .beginAdmit project => s.beginAdmit project
  | .finishAdmit i => s.finishAdmit money i
  | .dropPermit i => s.dropPermit i
  | .beginRecord project cost tokens => s.beginRecord project cost tokens
  | .finishRecord i => s.finishRecord money i
  | .setQuota project limits => { s with quotas := s.quotas.insert project limits }
  | .setClock clock => { s with clock }

-- The usage still has what was recorded on the day, if anything was.
def Kept (s : Meter) (project : String) (day : Nat) : Prop :=
  (s.usage.cost[project]?).map Prod.fst = some day ∨ s.recorded project day = 0

def Settled (s : Meter) : Move → Prop
  | .finishAdmit i => ∀ call ∈ s.admissions[i]?,
    s.quotas[call.project]? = some call.limits ∧ s.today call.project = call.day
      ∧ s.Kept call.project call.day ∧ s.recorded call.project call.day ≤ u64Max
      ∧ s.permits.count call.project < u64Max
  | .finishRecord i => ∀ call ∈ s.recordings[i]?, s.Kept call.project call.day
  | _ => True

instance (s : Meter) (project : String) (day : Nat) : Decidable (s.Kept project day) :=
  inferInstanceAs (Decidable (_ ∨ _))

instance (s : Meter) : DecidablePred s.Settled
  | .finishAdmit i => inferInstanceAs (Decidable (∀ call ∈ s.admissions[i]?, _ ∧ _ ∧ _ ∧ _ ∧ _))
  | .finishRecord i => inferInstanceAs (Decidable (∀ call ∈ s.recordings[i]?, s.Kept call.project call.day))
  | .beginAdmit _ | .dropPermit _ | .beginRecord _ _ _ | .setQuota _ _ | .setClock _ => inferInstanceAs (Decidable True)

structure WithinQuota (s : Meter) (project : String) : Prop where
  runs : ∀ limits limit, s.quotas[project]? = some limits → limits.concurrentAgentRuns = some limit →
    s.permits.count project < limit
  tokens : ∀ limits limit, s.quotas[project]? = some limits → limits.llmTokensPerDay = some limit →
    s.recorded project (s.today project) ≤ limit

def Admits (s : Meter) : Move → Prop
  | .finishAdmit i => ∀ call usage, s.admissions[i]? = some call →
    admitRun money s.usage call = .ok usage → s.WithinQuota call.project
  | _ => True

def Counted (s : Meter) : Prop :=
  ∀ project, (s.usage.concurrent[project]?).getD 0 = s.permits.count project

def Totalled (s : Meter) : Prop :=
  ∀ project day cost tokens, s.usage.cost[project]? = some (day, cost, tokens) →
    tokens = min (s.recorded project day) u64Max

section

variable {money : Money} {s : Meter}

theorem spentOn_tokens (htotal : s.Totalled) {project : String} {day : Nat} (hkept : s.Kept project day)
    : (spentOn s.usage project day).2 = min (s.recorded project day) u64Max := by
  unfold spentOn
  cases hcost : s.usage.cost[project]? with
  | none =>
    unfold Kept at hkept
    rw [hcost] at hkept
    rcases hkept with hkept | hzero
    . cases hkept
    . rw [hzero]
      rfl
  | some entry =>
    obtain ⟨d, cost, tokens⟩ := entry
    dsimp only
    split
    . next heq =>
      subst heq
      exact htotal project d cost tokens hcost
    . next hne =>
      unfold Kept at hkept
      rw [hcost] at hkept
      rcases hkept with hkept | hzero
      . exact absurd (Option.some.inj hkept) hne
      . rw [hzero]
        rfl

theorem admitRun_eq_ok {usage usage' : QuotaUsage} {call : Admission}
    (h : admitRun money usage call = .ok usage')
    : (∀ limit, call.limits.concurrentAgentRuns = some limit →
          saturatingAdd ((usage.concurrent[call.project]?).getD 0) 1 ≤ limit)
        ∧ (∀ limit, call.limits.llmTokensPerDay = some limit →
          saturatingAdd (spentOn usage call.project call.day).2 0 ≤ limit)
        ∧ usage' = { usage with
            concurrent := usage.concurrent.insert call.project
              (((usage.concurrent[call.project]?).getD 0 + 1) % 2 ^ 64) } := by
  unfold admitRun at h
  simp only [bind_eq_ok] at h
  obtain ⟨u, hruns, v, -, w, htokens, hret⟩ := h
  refine ⟨?_, ?_, (Except.ok.inj hret).symm⟩
  . intro limit hlimit
    unfold QuotaLimits.checkConcurrentRuns at hruns
    rw [hlimit] at hruns
    exact checkCount_eq_ok hruns
  . intro limit hlimit
    unfold QuotaLimits.checkLlmTokens at htokens
    rw [hlimit] at htokens
    exact checkCount_eq_ok htokens

theorem admits_of_settled (hcounted : s.Counted) (htotal : s.Totalled) {m : Move}
    (hsettled : s.Settled m) : s.Admits money m := by
  cases m with
  | finishAdmit i =>
    intro call usage hcall hok
    obtain ⟨hquota, htoday, hkept, hrecorded, hpermits⟩ := hsettled call hcall
    obtain ⟨hruns, htokens, -⟩ := admitRun_eq_ok hok
    rw [hcounted] at hruns
    rw [spentOn_tokens htotal hkept] at htokens
    constructor
    . intro limits limit hlimits hlimit
      rw [hquota] at hlimits
      cases hlimits
      have hle := hruns limit hlimit
      unfold saturatingAdd at hle
      omega
    . intro limits limit hlimits hlimit
      rw [hquota] at hlimits
      cases hlimits
      have hle := htokens limit hlimit
      unfold saturatingAdd at hle
      rw [htoday]
      omega
  | beginAdmit | dropPermit | beginRecord | finishRecord | setQuota | setClock => trivial

theorem counted_admit (hcounted : s.Counted) {usage : QuotaUsage} {call : Admission}
    (hok : admitRun money s.usage call = .ok usage) (hpermits : s.permits.count call.project < u64Max)
    {s' : Meter} (husage : s'.usage = usage) (hlive : s'.permits = s.permits ++ [call.project])
    : s'.Counted := by
  intro project
  obtain ⟨-, -, hconcurrent⟩ := admitRun_eq_ok hok
  rw [husage, hconcurrent, hlive]
  dsimp only
  rw [Map.getElem?_insert, List.count_append]
  split
  . next heq =>
    subst heq
    rw [Option.getD_some, hcounted, List.count_singleton_self]
    apply Nat.mod_eq_of_lt
    unfold u64Max at hpermits
    omega
  . next hne =>
    rw [hcounted, List.count_singleton, if_neg (by simpa using hne)]
    omega

theorem count_eraseIdx {l : List String} {i : Nat} {x : String} (h : l[i]? = some x) (y : String)
    : l.count y = (l.eraseIdx i).count y + if x = y then 1 else 0 := by
  obtain ⟨hlt, rfl⟩ := List.getElem?_eq_some_iff.mp h
  rw [← (List.getElem_cons_eraseIdx_perm hlt).count_eq, List.count_cons]
  simp only [beq_iff_eq]

theorem counted_drop (hcounted : s.Counted) (i : Nat) : (s.dropPermit i).Counted := by
  unfold dropPermit
  cases hpermit : s.permits[i]? with
  | none => exact hcounted
  | some project =>
    have hcount := count_eraseIdx hpermit
    dsimp only
    cases hconcurrent : s.usage.concurrent[project]? with
    | none =>
      -- The project has a permit, so that it has a count.
      have hzero := hcounted project
      have hsome := hcount project
      rw [hconcurrent, Option.getD_none] at hzero
      rw [← hzero, if_pos rfl] at hsome
      omega
    | some c =>
      intro other
      dsimp only
      rw [Map.getElem?_insert]
      have hother := hcounted other
      rw [hcount other] at hother
      split
      . next heq =>
        subst heq
        rw [hconcurrent, Option.getD_some, if_pos rfl] at hother
        rw [Option.getD_some]
        omega
      . next hne =>
        rw [if_neg hne] at hother
        exact hother

theorem totalled_record (htotal : s.Totalled) {i : Nat} (hsettled : s.Settled (.finishRecord i))
    : (s.finishRecord money i).Totalled := by
  unfold finishRecord
  cases hcall : s.recordings[i]? with
  | none => exact htotal
  | some call =>
    have hkept := spentOn_tokens htotal (hsettled call hcall)
    intro project day cost tokens hentry
    unfold recordUsage at hentry
    dsimp only at hentry ⊢
    rw [Map.getElem?_insert] at hentry
    split at hentry
    . next heq =>
      cases hentry
      rw [if_pos ⟨heq.symm, rfl⟩, hkept, ← heq]
      unfold saturatingAdd
      omega
    . next hne =>
      rw [if_neg (fun h => hne h.1.symm)]
      exact htotal project day cost tokens hentry

theorem counted_move (hcounted : s.Counted) {m : Move} (hsettled : s.Settled m)
    : (s.move money m).Counted := by
  cases m with
  | beginAdmit project =>
    unfold move beginAdmit
    dsimp only
    split
    . exact hcounted
    . split <;> exact hcounted
  | finishAdmit i =>
    unfold move finishAdmit
    dsimp only
    cases hcall : s.admissions[i]? with
    | none => exact hcounted
    | some call =>
      dsimp only
      cases hok : admitRun money s.usage call with
      | error e => exact hcounted
      | ok usage => exact counted_admit hcounted hok (hsettled call hcall).2.2.2.2 rfl rfl
  | dropPermit i => exact counted_drop hcounted i
  | beginRecord project cost tokens =>
    unfold move beginRecord
    dsimp only
    split <;> exact hcounted
  | finishRecord i =>
    unfold move finishRecord
    dsimp only
    split <;> exact hcounted
  | setQuota project limits => exact hcounted
  | setClock clock => exact hcounted

theorem totalled_move (htotal : s.Totalled) {m : Move} (hsettled : s.Settled m)
    : (s.move money m).Totalled := by
  cases m with
  | beginAdmit project =>
    unfold move beginAdmit
    dsimp only
    split
    . exact htotal
    . split <;> exact htotal
  | finishAdmit i =>
    unfold move finishAdmit
    dsimp only
    cases hcall : s.admissions[i]? with
    | none => exact htotal
    | some call =>
      dsimp only
      cases hok : admitRun money s.usage call with
      | error e => exact htotal
      | ok usage =>
        obtain ⟨-, -, husage⟩ := admitRun_eq_ok hok
        subst husage
        exact htotal
  | dropPermit i =>
    unfold move dropPermit
    dsimp only
    split
    . exact htotal
    . split <;> exact htotal
  | beginRecord project cost tokens =>
    unfold move beginRecord
    dsimp only
    split <;> exact htotal
  | finishRecord i => exact totalled_record htotal hsettled
  | setQuota project limits => exact htotal
  | setClock clock => exact htotal

end

/--
In every interleaving of admissions, drops of permits, recordings and changes of quotas: the counter
of a project is the number of its live metered permits, and a run is admitted only below the limit of
runs and within the tokens of the day, if an admission still has the quota and the day that it read
when it takes the lock, and no call works on a day whose usage has been given up for another one.
-/
theorem admits_of_run (money : Money) (quotas : Std.ExtTreeMap String QuotaLimits) (clock : Nat)
    (moves : List Move) (s : Meter)
    (hrun : Run (Guarded Settled (move money)) { quotas, clock } moves s)
    : s.Counted ∧ ∀ m, s.Settled m → s.Admits money m := by
  have hinv : s.Counted ∧ s.Totalled := by
    apply Run.invariant (P := fun s => s.Counted ∧ s.Totalled) _ hrun
    . constructor
      . intro project
        simp
      . intro project day cost tokens hentry
        exact absurd hentry (by simp)
    . rintro s m _ ⟨hcounted, htotal⟩ ⟨hsettled, rfl⟩
      exact ⟨counted_move hcounted hsettled, totalled_move htotal hsettled⟩
  exact ⟨hinv.1, fun m hsettled => admits_of_settled hinv.1 hinv.2 hsettled⟩

def exactMoney : Money where
  addF64 x y := x + y
  display _ x := toString x.num

def oneRun : QuotaLimits where
  concurrentAgentRuns := some 1
  llmTokensPerDay := some 100

def botQuota : Std.ExtTreeMap String QuotaLimits :=
  (∅ : Std.ExtTreeMap String QuotaLimits).insert "bot" oneRun

def botRuns (moves : List Move) : Meter :=
  moves.foldl (move exactMoney) { quotas := botQuota, clock := 0 }

-- The second call is refused while the first run lasts.
def oneDay : List Move :=
  [.beginAdmit (some "bot"), .beginAdmit (some "bot"), .finishAdmit 0, .finishAdmit 0, .beginRecord (some "bot") 0 40,
    .finishRecord 0, .dropPermit 0, .beginAdmit (some "bot")]

theorem admits_one_day
    : (botRuns (oneDay.take 3)).permits = ["bot"] ∧ (botRuns (oneDay.take 4)).permits = ["bot"]
        ∧ (botRuns oneDay).permits = [] ∧ (botRuns (oneDay ++ [.finishAdmit 0])).permits = ["bot"]
        ∧ (botRuns oneDay).Counted ∧ (botRuns oneDay).Admits exactMoney (.finishAdmit 0) := by
  have hrun : Run (Guarded Settled (move exactMoney)) { quotas := botQuota, clock := 0 } oneDay (botRuns oneDay) := by
    apply Run.of_take
    decide
  obtain ⟨hcounted, hadmits⟩ := admits_of_run exactMoney botQuota 0 oneDay _ hrun
  exact ⟨by decide, by decide, by decide, by decide, hcounted, hadmits _ (by decide)⟩

def dayMoved : Meter :=
  let limits : QuotaLimits := { llmTokensPerDay := some 100 }
  [.setQuota "bot" limits,
    .beginRecord (some "bot") 0 150, .finishRecord 0,
    .setQuota "bot" { limits with dayResetOffsetMinutes := some 1440 },
    .beginRecord (some "bot") 0 1, .finishRecord 0,
    .setQuota "bot" limits,
    .beginAdmit (some "bot")].foldl (move exactMoney) {}

theorem not_admits_day_moved : ¬dayMoved.Admits exactMoney (.finishAdmit 0) := by
  intro h
  have hadmission : dayMoved.admissions[0]? = some ⟨"bot", { llmTokensPerDay := some 100 }, 0⟩ := by
    decide
  have hok : (admitRun exactMoney dayMoved.usage
      ⟨"bot", { llmTokensPerDay := some 100 }, 0⟩).toOption.isSome = true := by
    decide
  cases hrun : admitRun exactMoney dayMoved.usage ⟨"bot", { llmTokensPerDay := some 100 }, 0⟩ with
  | error e =>
    rw [hrun] at hok
    cases hok
  | ok usage =>
    have hwithin := h _ usage hadmission hrun
    have hle := hwithin.tokens { llmTokensPerDay := some 100 } 100 (by decide) rfl
    revert hle
    decide

end Wovyr.Server.Tenancy.Meter
