import Wovyr.Workflow.Cron
import Wovyr.Workflow.Operation
import Wovyr.Workflow.Saga

/-!
This module contains the recurring schedules, and the dispatcher that starts an execution for each
one that is due.
-/

namespace Wovyr.Workflow

open List

inductive OverlapPolicy where
  | skip
  | allow
deriving Repr, DecidableEq, Inhabited

structure Schedule where
  id : String
  workflowName : String
  input : Value := .null
  intervalMs : Nat
  cron : Option String := none
  nextFireMs : Nat
  paused : Bool := false
  overlap : OverlapPolicy := .skip
  lastExecutionId : Option String := none
deriving Repr, DecidableEq, Inhabited

namespace Schedule

def saturatingAdd (m n : Nat) : Nat :=
  min (m + n) (2 ^ 64 - 1)

def skipTicks (intervalMs now : Nat) : Nat → Nat → Option Nat
  | 0, _ => none
  | rounds + 1, next =>
    if next ≤ now then
      skipTicks intervalMs now rounds (saturatingAdd next intervalMs)
    else
      some next

-- With an interval of zero the loop over the missed ticks does not end, nor at the end of the clock.
def advancePast (s : Schedule) (now : Nat) : Option (Except Error Schedule) :=
  match s.cron with
  | some expr =>
    some do
      let cron ← Cron.parse expr
      match cron.nextAfter now with
      | some next => .ok { s with nextFireMs := next }
      | none => .error (.invalid s!"cron `{expr}` has no further fire time")
  | none =>
    (skipTicks s.intervalMs now (now + 2) (saturatingAdd s.nextFireMs s.intervalMs)).map fun next =>
      .ok { s with nextFireMs := next }

def executionId (s : Schedule) : String :=
  s!"{s.id}-{s.nextFireMs}"

def isDue (s : Schedule) (now : Nat) : Bool :=
  !s.paused && s.nextFireMs ≤ now

theorem skipTicks_isSome {intervalMs now : Nat} (hinterval : 0 < intervalMs) (hnow : now < 2 ^ 64 - 1)
    {rounds next : Nat} (hrounds : now + 1 - next < rounds)
    : (skipTicks intervalMs now rounds next).isSome = true := by
  induction rounds generalizing next with
  | zero => omega
  | succ rounds ih =>
    unfold skipTicks
    split
    . apply ih
      unfold saturatingAdd
      omega
    . rfl

theorem lt_skipTicks {intervalMs now rounds next t : Nat} (h : skipTicks intervalMs now rounds next = some t)
    : now < t := by
  induction rounds generalizing next with
  | zero => cases h
  | succ rounds ih =>
    unfold skipTicks at h
    split at h
    . exact ih h
    . cases h
      omega

-- The schedule can be advanced to a tick that is still to come.
def GoesOn (s : Schedule) (now : Nat) : Prop :=
  ∃ s', s.advancePast now = some (.ok s') ∧ now < s'.nextFireMs

theorem goesOn_interval {s : Schedule} {now : Nat} (hcron : s.cron = none) (hinterval : 0 < s.intervalMs)
    (hnow : now < 2 ^ 64 - 1) : s.GoesOn now := by
  have hsome : (skipTicks s.intervalMs now (now + 2) (saturatingAdd s.nextFireMs s.intervalMs)).isSome = true :=
    skipTicks_isSome hinterval hnow (by omega)
  obtain ⟨next, hnext⟩ := Option.isSome_iff_exists.mp hsome
  refine ⟨{ s with nextFireMs := next }, ?_, lt_skipTicks hnext⟩
  unfold advancePast
  rw [hcron, hnext]
  rfl

theorem GoesOn.started {s : Schedule} {now : Nat} (h : s.GoesOn now) (last : Option String)
    : ∃ s', ({ s with lastExecutionId := last } : Schedule).advancePast now = some (.ok s')
        ∧ s'.id = s.id ∧ now < s'.nextFireMs := by
  obtain ⟨s', hs', hlater⟩ := h
  refine ⟨{ s with lastExecutionId := last, nextFireMs := s'.nextFireMs }, ?_, rfl, hlater⟩
  unfold advancePast at hs' ⊢
  dsimp only
  cases hcron : s.cron with
  | none =>
    rw [hcron] at hs'
    obtain ⟨next, hnext, heq⟩ := Option.map_eq_some_iff.mp hs'
    cases heq
    rw [hnext]
    rfl
  | some expr =>
    rw [hcron] at hs'
    dsimp only at hs' ⊢
    cases hparse : Cron.parse expr with
    | error err =>
      rw [hparse] at hs'
      cases hs'
    | ok cron =>
      rw [hparse] at hs'
      cases hnext : cron.nextAfter now with
      | none => simp [bind, Except.bind, hnext] at hs'
      | some next =>
        simp only [bind, Except.bind, hnext, Option.some.injEq, Except.ok.injEq] at hs' ⊢
        subst hs'
        rfl

end Schedule

structure Firing where
  schedule : String
  fireMs : Nat
  active : Bool
deriving Repr, DecidableEq, Inhabited

/--
The stores of the engine and those of the schedules. The host also keeps the list of all ticks for which
the engine has been run.
-/
structure Host (ω : Type) where
  world : World ω
  schedules : Std.ExtTreeMap String Schedule
  firings : List Firing := []

abbrev HostAction (ω α : Type) := Prog (Host ω) Error α

def within {ω α : Type} (m : Action ω α) : HostAction ω α :=
  fun h =>
    let (outcome, world) := m h.world
    (outcome, { h with world })

def saveSchedule {ω : Type} (s : Schedule) : HostAction ω Unit := do
  within (Engine.persist id)
  Prog.modify fun h => { h with schedules := h.schedules.insert s.id s }

structure ScheduleDispatcher (ω : Type) where
  engine : Engine ω
  resolver : String → Option Definition

namespace ScheduleDispatcher

variable {ω : Type} (D : ScheduleDispatcher ω)

def overlaps (h : Host ω) (s : Schedule) : Bool :=
  s.overlap == .skip
    && ((s.lastExecutionId.bind fun prev => h.world.latest D.engine prev).any fun state =>
      !state.status.isTerminal)

def fire (gas : Nat) (d : Definition) (s : Schedule) : HostAction ω (RunOutcome × ExecutionState) :=
  fun h =>
    let (outcome, world) := D.engine.runWith (D.engine.drive gas) d s.executionId s.input h.world
    let active := decide (h.world.calls.length < world.calls.length)
    (outcome, { h with world, firings := h.firings ++ [⟨s.id, s.nextFireMs, active⟩] })

def advance (now : Nat) (s : Schedule) : HostAction ω Unit := do
  let advanced ← Prog.ofOption (s.advancePast now)
  saveSchedule (← Prog.ofExcept advanced)

-- What is done for one schedule, with the id of the execution that was started.
def turn (gas now : Nat) (s : Schedule) : HostAction ω (List String) := do
  if s.isDue now then
    if ← Prog.gets fun h => D.overlaps h s then
      advance now s
      return []
    else
      match D.resolver s.workflowName with
      | none => return []
      | some d =>
        let _ ← D.fire gas d s
        advance now { s with lastExecutionId := some s.executionId }
        return [s.executionId]
  else
    return []

def turns (gas now : Nat) : List Schedule → HostAction ω (List String)
  | [] => return []
  | s :: schedules => do
    let started ← D.turn gas now s
    let rest ← turns gas now schedules
    return started ++ rest

def poll (gas now : Nat) : HostAction ω (List String) := do
  let schedules ← Prog.gets fun h => h.schedules.values
  D.turns gas now schedules

end ScheduleDispatcher

structure Poll (ω : Type) where
  now : Nat
  process : Process ω

def Host.boot {ω : Type} (h : Host ω) (process : Process ω) : Host ω :=
  { h with world := h.world.boot process }

namespace ScheduleDispatcher

variable {ω : Type} (D : ScheduleDispatcher ω)

def step (h : Host ω) (p : Poll ω) : Host ω :=
  (D.poll p.process.gas p.now (h.boot p.process)).2

def polls (h : Host ω) (ps : List (Poll ω)) : Host ω :=
  ps.foldl D.step h

def atTurn (h : Host ω) (p : Poll ω) (before : List Schedule) : Host ω :=
  (D.turns p.process.gas p.now before (h.boot p.process)).2

/--
At the turn of a schedule, its run comes to an outcome before the process stops, and there is a later tick
and a write left to save it.
-/
structure Serves (h : Host ω) (p : Poll ω) (s : Schedule) : Prop where
  skips : D.overlaps h s = true → s.GoesOn p.now ∧ 0 < h.world.writes
  runs : D.overlaps h s = false → ∀ d, D.resolver s.workflowName = some d →
    s.GoesOn p.now
      ∧ ∃ r w, D.engine.runWith (D.engine.drive p.process.gas) d s.executionId s.input h.world = (.ok r, w)
        ∧ 0 < w.writes

def Steady (h : Host ω) (p : Poll ω) : Prop :=
  ∀ before s after, h.schedules.values = before ++ s :: after → s.isDue p.now = true →
    D.Serves (D.atTurn h p before) p s

-- No tick has been started twice.
def Once (h : Host ω) : Prop :=
  (h.firings.map fun f => (f.schedule, f.fireMs)).Nodup

-- Every schedule that is due and can be started is.
def Thorough (h : Host ω) (p : Poll ω) : Prop :=
  ∀ before s after, h.schedules.values = before ++ s :: after → s.isDue p.now = true →
    (D.resolver s.workflowName).isSome = true → D.overlaps (D.atTurn h p before) s = false →
    ∃ f ∈ (D.step h p).firings.drop h.firings.length, f.schedule = s.id ∧ f.fireMs = s.nextFireMs

structure Kept (h : Host ω) : Prop where
  keyed : ∀ (k : String) (s : Schedule), h.schedules[k]? = some s → s.id = k
  past : ∀ f ∈ h.firings, ∃ s, h.schedules[f.schedule]? = some s ∧ f.fireMs < s.nextFireMs
  nodup : (h.firings.map fun f => (f.schedule, f.fireMs)).Nodup

section

variable {D : ScheduleDispatcher ω} {h : Host ω} {p : Poll ω} {s s' : Schedule} {now : Nat}

theorem advance_eq (hs' : s.advancePast now = some (.ok s')) (hwrites : 0 < h.world.writes)
    : advance now s h = (.ok (), { h with
        world := { h.world with writes := h.world.writes - 1 }
        schedules := h.schedules.insert s'.id s' }) := by
  unfold advance
  rw [hs']
  have hpaid : within (Engine.persist id) h
      = (.ok (), { h with world := { h.world with writes := h.world.writes - 1 } }) := by
    unfold within Engine.persist
    dsimp only
    rw [if_neg (Nat.ne_of_gt hwrites)]
    rfl
  exact Prog.bind_of_ok hpaid

theorem Kept.save (hkept : Kept h) (hs : h.schedules[s.id]? = some s) (hid : s'.id = s.id)
    (hlater : s.nextFireMs < s'.nextFireMs) {new : List Firing}
    (hnew : new = [] ∨ ∃ active, new = [⟨s.id, s.nextFireMs, active⟩]) (world : World ω)
    : Kept { world, schedules := h.schedules.insert s'.id s', firings := h.firings ++ new } := by
  have hpast (f : Firing) (hf : f ∈ h.firings) (heq : f.schedule = s.id) : f.fireMs < s.nextFireMs := by
    obtain ⟨t, ht, hlt⟩ := hkept.past f hf
    rw [heq] at ht
    cases hs.symm.trans ht
    exact hlt
  refine ⟨?_, ?_, ?_⟩
  . intro k t ht
    rcases Map.of_insert ht with ⟨heq, rfl⟩ | ht
    . exact heq
    . exact hkept.keyed k t ht
  . intro f hf
    dsimp only at hf ⊢
    rw [Map.getElem?_insert, hid]
    by_cases heq : f.schedule = s.id
    . refine ⟨s', if_pos heq.symm, ?_⟩
      cases mem_append.mp hf with
      | inl hf =>
        have hlt := hpast f hf heq
        omega
      | inr hf =>
        rcases hnew with rfl | ⟨active, rfl⟩
        . cases hf
        . cases mem_singleton.mp hf
          exact hlater
    . rw [if_neg (Ne.symm heq)]
      cases mem_append.mp hf with
      | inl hf => exact hkept.past f hf
      | inr hf =>
        rcases hnew with rfl | ⟨active, rfl⟩
        . cases hf
        . cases mem_singleton.mp hf
          exact absurd rfl heq
  . dsimp only
    rw [map_append]
    rcases hnew with rfl | ⟨active, rfl⟩
    . simpa using hkept.nodup
    . rw [map_singleton, nodup_append]
      refine ⟨hkept.nodup, nodup_singleton _, ?_⟩
      rintro x hx y hy rfl
      cases mem_singleton.mp hy
      obtain ⟨f, hf, heq⟩ := mem_map.mp hx
      rw [Prod.mk.injEq] at heq
      exact Nat.lt_irrefl _ (heq.2 ▸ hpast f hf heq.1)

structure Turned (D : ScheduleDispatcher ω) (h h' : Host ω) (p : Poll ω) (s : Schedule) : Prop where
  kept : Kept h'
  other : ∀ k, k ≠ s.id → h'.schedules[k]? = h.schedules[k]?
  firings : ∃ new, h'.firings = h.firings ++ new
    ∧ (s.isDue p.now = true → (D.resolver s.workflowName).isSome = true → D.overlaps h s = false →
      ∃ f ∈ new, f.schedule = s.id ∧ f.fireMs = s.nextFireMs)

theorem turn_overlaps (gas : Nat) (hdue : s.isDue now = true) (hoverlaps : D.overlaps h s = true)
    : D.turn gas now s h = (advance now s >>= fun _ => pure []) h := by
  unfold turn
  rw [if_pos hdue]
  show (if D.overlaps h s = true then _ else _ : HostAction ω (List String)) h = _
  rw [if_pos hoverlaps]

theorem turn_runs (gas : Nat) (hdue : s.isDue now = true) (hoverlaps : D.overlaps h s = false)
    : D.turn gas now s h
        =
      match D.resolver s.workflowName with
      | none => (.ok [], h)
      | some d => (D.fire gas d s >>= fun _ => advance now { s with lastExecutionId := some s.executionId }
          >>= fun _ => pure [s.executionId]) h := by
  unfold turn
  rw [if_pos hdue]
  show (if D.overlaps h s = true then _ else _ : HostAction ω (List String)) h = _
  rw [hoverlaps, if_neg Bool.false_ne_true]
  cases D.resolver s.workflowName with
  | none => rfl
  | some d => rfl

theorem turn_turned (hkept : Kept h) (hs : h.schedules[s.id]? = some s)
    (hserves : s.isDue p.now = true → D.Serves h p s)
    : ∃ started h', D.turn p.process.gas p.now s h = (.ok started, h') ∧ Turned D h h' p s := by
  by_cases hdue : s.isDue p.now = true
  . have hnow : s.nextFireMs ≤ p.now := by
      unfold Schedule.isDue at hdue
      simp at hdue
      exact hdue.2
    have hother (s' : Schedule) (hid : s'.id = s.id) (k : String) (hk : k ≠ s.id)
        : (h.schedules.insert s'.id s')[k]? = h.schedules[k]? :=
      Map.getElem?_insert_of_ne _ _ fun heq => hk (heq.symm.trans hid)
    cases hoverlaps : D.overlaps h s with
    | true =>
      obtain ⟨hgoes, hwrites⟩ := (hserves hdue).skips hoverlaps
      obtain ⟨s', hs', hid, hlater⟩ := hgoes.started s.lastExecutionId
      rw [turn_overlaps _ hdue hoverlaps]
      refine ⟨[], _, Prog.bind_of_ok (advance_eq hs' hwrites), ?_, hother s' hid, [], (append_nil _).symm, ?_⟩
      . have hkept' := hkept.save hs hid (Nat.lt_of_le_of_lt hnow hlater) (.inl rfl)
          { h.world with writes := h.world.writes - 1 }
        rw [append_nil] at hkept'
        exact hkept'
      . intro _ _ hfree
        rw [hoverlaps] at hfree
        cases hfree
    | false =>
      rw [turn_runs _ hdue hoverlaps]
      cases hresolver : D.resolver s.workflowName with
      | none =>
        refine ⟨[], h, rfl, hkept, fun _ _ => rfl, [], (append_nil _).symm, ?_⟩
        intro _ hsome
        rw [hresolver] at hsome
        cases hsome
      | some d =>
        obtain ⟨hgoes, r, w, hrun, hwrites⟩ := (hserves hdue).runs hoverlaps d hresolver
        obtain ⟨s', hs', hid, hlater⟩ := hgoes.started (some s.executionId)
        let active := decide (h.world.calls.length < w.calls.length)
        let fired : Host ω := { h with world := w, firings := h.firings ++ [⟨s.id, s.nextFireMs, active⟩] }
        have hfire : D.fire p.process.gas d s h = (.ok r, fired) := by
          unfold fire
          rw [hrun]
        have hadvance := @advance_eq _ fired _ _ _ hs' hwrites
        dsimp only
        refine ⟨[s.executionId], _, (Prog.bind_of_ok hfire).trans (Prog.bind_of_ok hadvance), ?_⟩
        have hkept' := hkept.save hs hid (Nat.lt_of_le_of_lt hnow hlater) (.inr ⟨active, rfl⟩)
          { w with writes := w.writes - 1 }
        exact ⟨hkept', hother s' hid, _, rfl, fun _ _ _ => ⟨_, mem_singleton_self _, rfl, rfl⟩⟩
  . refine ⟨[], h, ?_, hkept, fun _ _ => rfl, [], (append_nil _).symm, fun h => absurd h hdue⟩
    unfold turn
    rw [if_neg hdue]
    rfl

theorem turns_cons {gas : Nat} {started : List String} {h' : Host ω}
    (hturn : D.turn gas now s h = (.ok started, h')) (schedules : List Schedule)
    : (D.turns gas now (s :: schedules) h).2 = (D.turns gas now schedules h').2 := by
  rw [turns, Prog.bind_of_ok hturn]
  exact Prog.bind_pure_state _ _ h'

theorem turns_turned {schedules : List Schedule} (hkept : Kept h)
    (hstored : ∀ s ∈ schedules, h.schedules[s.id]? = some s) (hnodup : (schedules.map (·.id)).Nodup)
    (hserves : ∀ before s after, schedules = before ++ s :: after → s.isDue p.now = true →
      D.Serves (D.turns p.process.gas p.now before h).2 p s)
    : Kept (D.turns p.process.gas p.now schedules h).2
        ∧ ∃ new, (D.turns p.process.gas p.now schedules h).2.firings = h.firings ++ new
          ∧ ∀ before s after, schedules = before ++ s :: after → s.isDue p.now = true →
            (D.resolver s.workflowName).isSome = true →
            D.overlaps (D.turns p.process.gas p.now before h).2 s = false →
            ∃ f ∈ new, f.schedule = s.id ∧ f.fireMs = s.nextFireMs := by
  induction schedules generalizing h with
  | nil =>
    refine ⟨hkept, [], (append_nil _).symm, ?_⟩
    intro before s after heq
    simp at heq
  | cons s schedules ih =>
    obtain ⟨hnotMem, hnodup⟩ := nodup_cons.mp hnodup
    obtain ⟨started, h', hturn, hturned⟩ := turn_turned hkept (hstored s mem_cons_self) (hserves [] s schedules rfl)
    obtain ⟨new, hnew, hfired⟩ := hturned.firings
    have hstored' (t : Schedule) (ht : t ∈ schedules) : h'.schedules[t.id]? = some t := by
      rw [hturned.other t.id ?_]
      . exact hstored t (mem_cons_of_mem _ ht)
      . intro heq
        apply hnotMem
        dsimp only
        rw [← heq]
        exact mem_map_of_mem ht
    obtain ⟨hkept', new', hnew', hrest⟩ := ih hturned.kept hstored' hnodup (by
      intro before t after heq hdue
      rw [← turns_cons hturn]
      exact hserves (s :: before) t after (congrArg (s :: ·) heq) hdue)
    rw [turns_cons hturn]
    refine ⟨hkept', new ++ new', by rw [hnew', hnew, append_assoc], ?_⟩
    intro before t after heq hdue hresolver hoverlaps
    cases before with
    | nil =>
      cases heq
      obtain ⟨f, hf, hfiring⟩ := hfired hdue hresolver hoverlaps
      exact ⟨f, mem_append_left _ hf, hfiring⟩
    | cons s' before =>
      cases heq
      rw [turns_cons hturn] at hoverlaps
      obtain ⟨f, hf, hfiring⟩ := hrest before t after rfl hdue hresolver hoverlaps
      exact ⟨f, mem_append_right _ hf, hfiring⟩

theorem step_kept (hkept : Kept h) (hsteady : D.Steady h p) : Kept (D.step h p) ∧ D.Thorough h p := by
  have hboot : Kept (h.boot p.process) := ⟨hkept.keyed, hkept.past, hkept.nodup⟩
  have hstored (s : Schedule) (hs : s ∈ h.schedules.values) : h.schedules[s.id]? = some s := by
    obtain ⟨k, hk⟩ := (Map.mem_values).mp hs
    rw [hkept.keyed k s hk]
    exact hk
  have hnodup : (h.schedules.values.map (·.id)).Nodup := by
    rw [Map.map_values_eq_keys hkept.keyed]
    exact Std.ExtTreeMap.nodup_keys
  have hpoll : D.step h p = (D.turns p.process.gas p.now h.schedules.values (h.boot p.process)).2 := rfl
  obtain ⟨hkept', new, hnew, hfired⟩ := turns_turned hboot hstored hnodup hsteady
  refine ⟨hpoll ▸ hkept', ?_⟩
  intro before s after heq hdue hresolver hoverlaps
  have hfirings : (D.step h p).firings = h.firings ++ new := hpoll ▸ hnew
  rw [hfirings, drop_left]
  exact hfired before s after heq hdue hresolver hoverlaps

/--
As long as every run that is started in a poll comes to an outcome and its schedule is saved with a later
tick before the process stops, the activities of no tick are started twice, and in every poll all of the
schedules that are due are started.
-/
theorem once_of_steady {ω : Type} (D : ScheduleDispatcher ω) (h : Host ω)
    (hkeyed : ∀ (k : String) (s : Schedule), h.schedules[k]? = some s → s.id = k) (hfresh : h.firings = [])
    (ps : List (Poll ω)) (hsteady : ∀ before p after, ps = before ++ p :: after → D.Steady (D.polls h before) p)
    : Once (D.polls h ps)
        ∧ ∀ before p after, ps = before ++ p :: after → D.Thorough (D.polls h before) p := by
  have hkept : Kept h := ⟨hkeyed, by simp [hfresh], by simp [hfresh]⟩
  clear hkeyed hfresh
  induction ps generalizing h with
  | nil =>
    refine ⟨hkept.nodup, ?_⟩
    intro before p after heq
    simp at heq
  | cons p ps ih =>
    obtain ⟨hkept', hthorough⟩ := step_kept hkept (hsteady [] p ps rfl)
    obtain ⟨honce, hrest⟩ := ih (D.step h p) (by
      intro before q after heq
      exact hsteady (p :: before) q after (congrArg (p :: ·) heq)) hkept'
    refine ⟨honce, ?_⟩
    intro before q after heq
    cases before with
    | nil =>
      cases heq
      exact hthorough
    | cons p' before =>
      cases heq
      exact hrest before q after rfl

end

end ScheduleDispatcher

namespace Backups

def copy : Definition where
  metadata := { name := "copy" }
  spec := { activities := [{ id := "copy", activityType := "function" }] }

def nested : Definition where
  metadata := { name := "nested" }
  spec := { activities := [{ id := "inner", activityType := "workflow", name := some "copy" }] }

def parcel : Definition where
  metadata := { name := "parcel" }
  spec := { activities := [{ id := "ship", activityType := "function" }] }

def dispatcher : ScheduleDispatcher Unit where
  engine := Saga.carrier
  resolver name :=
    if name = "copy" then some copy
    else if name = "nested" then some nested
    else if name = "parcel" then some parcel
    else none

def nightly : Schedule where
  id := "nightly"
  workflowName := "copy"
  intervalMs := 1000
  nextFireMs := 1000

def archive : Schedule where
  id := "archive"
  workflowName := "nested"
  intervalMs := 1000
  nextFireMs := 1000

def host (schedules : List Schedule) : Host Unit where
  world := { executor := (), writes := 0 }
  schedules := schedules.foldl (fun schedules s => schedules.insert s.id s) ∅

def at1000 (writes : Nat) : Poll Unit where
  now := 1000
  process := { executor := (), gas := 9, writes }

-- The carrier rejects what it is to ship.
def parcels : Schedule :=
  { nightly with id := "dispatch", workflowName := "parcel" }

def served (h : Host Unit) (p : Poll Unit) (s : Schedule) : Bool :=
  let ran d := dispatcher.engine.runWith (dispatcher.engine.drive p.process.gas) d s.executionId s.input h.world
  s.cron.isNone && decide (0 < s.intervalMs) && !dispatcher.overlaps h s
    && (dispatcher.resolver s.workflowName).all fun d => (ran d).1.ok?.isSome && decide (0 < (ran d).2.writes)

theorem serves_of_served {h : Host Unit} {p : Poll Unit} {s : Schedule} (hnow : p.now < 2 ^ 64 - 1)
    (hserved : served h p s = true) : dispatcher.Serves h p s := by
  simp only [served, Bool.and_eq_true, Option.isNone_iff_eq_none, decide_eq_true_eq, Bool.not_eq_true',
    Option.all_eq_true] at hserved
  obtain ⟨⟨⟨hcron, hinterval⟩, hoverlaps⟩, hruns⟩ := hserved
  refine ⟨fun h => absurd h (by simp [hoverlaps]), ?_⟩
  intro _ d hd
  refine ⟨Schedule.goesOn_interval hcron hinterval hnow, ?_⟩
  obtain ⟨hok, hwrites⟩ := hruns d hd
  cases hrun : dispatcher.engine.runWith (dispatcher.engine.drive p.process.gas) d s.executionId s.input h.world with
  | mk o w =>
    rw [hrun] at hok hwrites
    cases o with
    | ok r => exact ⟨r, w, rfl, hwrites⟩
    | err e | halted => cases hok

theorem steady_of_served {h : Host Unit} {p : Poll Unit} (hnow : p.now < 2 ^ 64 - 1)
    (hserved : ∀ k < h.schedules.values.length, ∀ s ∈ h.schedules.values[k]?, s.isDue p.now = true →
      served (dispatcher.atTurn h p (h.schedules.values.take k)) p s = true)
    : dispatcher.Steady h p := by
  intro before s after hvalues hdue
  have h := hserved before.length (by simp [hvalues]) s (by simp [hvalues]) hdue
  rw [hvalues, take_left] at h
  exact serves_of_served hnow h

-- The second poll comes at the same time as the first.
def nights : List (Poll Unit) :=
  [at1000 99, at1000 99, { at1000 99 with now := 2000 }]

end Backups

open Backups

theorem once_of_steady_nights
    : (dispatcher.polls (host [nightly, parcels]) nights).firings
        = [⟨"dispatch", 1000, true⟩, ⟨"nightly", 1000, true⟩, ⟨"dispatch", 2000, true⟩, ⟨"nightly", 2000, true⟩]
        ∧ ScheduleDispatcher.Once
          (dispatcher.polls (host [nightly, parcels]) nights)
        ∧ ∀ before p after, nights = before ++ p :: after →
          dispatcher.Thorough
            (dispatcher.polls (host [nightly, parcels]) before) p := by
  refine ⟨by decide +kernel, ScheduleDispatcher.once_of_steady dispatcher _ ?_ rfl _ ?_⟩
  . have hinsert (k : String) : (host [nightly, parcels]).schedules[k]?
        = if "dispatch" = k then some parcels else if "nightly" = k then some nightly else none := by
      simp [host, Map.getElem?_insert, parcels, nightly]
    intro k s hs
    rw [hinsert] at hs
    split at hs
    . next heq =>
      cases hs
      exact heq
    . split at hs
      . next heq =>
        cases hs
        exact heq
      . cases hs
  . intro before p after heq
    unfold nights at heq
    rcases before with _ | ⟨p₁, _ | ⟨p₂, _ | ⟨p₃, before⟩⟩⟩
    . cases heq
      exact steady_of_served (by decide) (by decide +kernel)
    . cases heq
      exact steady_of_served (by decide) (by decide +kernel)
    . cases heq
      exact steady_of_served (by decide) (by decide +kernel)
    . simp at heq

-- The execution has completed when the process stops, and is started again. A run that fails stands in the
-- way of the next one.
theorem fired_twice
    : copy.validate Saga.carrier.platform = .ok ()
        ∧ nested.validate Saga.carrier.platform = .ok ()
        ∧ (dispatcher.polls (host [nightly]) [at1000 10, at1000 99]).firings
          = [⟨"nightly", 1000, true⟩, ⟨"nightly", 1000, true⟩]
        ∧ ¬ScheduleDispatcher.Once
          (dispatcher.polls (host [nightly]) [at1000 10, at1000 99])
        ∧ (dispatcher.step (host [archive, nightly]) (at1000 99)).firings
          = [⟨"archive", 1000, false⟩]
        ∧ ¬dispatcher.Thorough (host [archive, nightly]) (at1000 99) := by
  have htwice : (dispatcher.polls (host [nightly])
      [at1000 10, at1000 99]).firings = [⟨"nightly", 1000, true⟩, ⟨"nightly", 1000, true⟩] := by
    decide +kernel
  have hone : (dispatcher.step (host [archive, nightly])
      (at1000 99)).firings = [⟨"archive", 1000, false⟩] := by
    decide +kernel
  refine ⟨by decide, by decide, htwice, ?_, hone, ?_⟩
  . unfold ScheduleDispatcher.Once
    rw [htwice]
    decide
  . intro hthorough
    have hfree : dispatcher.overlaps (dispatcher.atTurn
        (host [archive, nightly]) (at1000 99) [archive]) nightly
        = false := by
      decide
    obtain ⟨f, hf, hschedule, -⟩ := hthorough [archive] nightly [] (by decide) rfl rfl hfree
    rw [hone] at hf
    cases mem_singleton.mp hf
    exact absurd hschedule (by decide)

end Wovyr.Workflow
