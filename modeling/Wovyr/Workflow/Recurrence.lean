import Wovyr.Workflow.Cron.Lookahead
import Wovyr.Workflow.Schedule

/-!
This module contains to which tick a schedule is advanced, and for which schedules with a cron expression
there is one.
-/

namespace Wovyr.Workflow.Schedule

def every (id workflowName : String) (intervalMs firstFireMs : Nat) : Schedule where
  id
  workflowName
  intervalMs
  nextFireMs := firstFireMs

def ofCron (id workflowName expr : String) (nowMs : Nat) : Except Error Schedule := do
  let parsed ← Cron.parse expr
  match parsed.nextAfter nowMs with
  | some firstFire => .ok { id, workflowName, intervalMs := 0, cron := some expr, nextFireMs := firstFire }
  | none => .error (.invalid s!"cron `{expr}` has no upcoming fire time")

def OnGrid (first intervalMs now next : Nat) : Prop :=
  now < next ∧ ∃ k, 1 ≤ k ∧ next = first + k * intervalMs

theorem saturatingAdd_eq {m n : Nat} (h : m + n ≤ 2 ^ 64 - 1) : saturatingAdd m n = m + n :=
  Nat.min_eq_left h

theorem skipTicks_least {first intervalMs now last : Nat} (hlast : now < first + last * intervalMs)
    (hrange : first + last * intervalMs ≤ 2 ^ 64 - 1) (hpos : 0 < intervalMs) {rounds k : Nat} (hk : 1 ≤ k)
    (hle : k ≤ last) (hpast : ∀ j, 1 ≤ j → j < k → first + j * intervalMs ≤ now)
    (hrounds : now + 1 - (first + k * intervalMs) < rounds)
    : ∃ next, skipTicks intervalMs now rounds (first + k * intervalMs) = some next
        ∧ IsLeast { next | OnGrid first intervalMs now next } next := by
  induction rounds generalizing k with
  | zero => omega
  | succ rounds ih =>
    unfold skipTicks
    split
    next hmissed =>
      have hlt : k < last := by
        by_contra hge
        have heq : k = last := by omega
        rw [heq] at hmissed
        omega
      have hnext : first + k * intervalMs + intervalMs = first + (k + 1) * intervalMs := by
        rw [Nat.succ_mul]
        omega
      have hmono : (k + 1) * intervalMs ≤ last * intervalMs := Nat.mul_le_mul_right _ hlt
      rw [saturatingAdd_eq (by omega), hnext]
      apply ih (k := k + 1) (by omega) hlt
      . intro j hj hjk
        cases Nat.eq_or_lt_of_le (Nat.le_of_lt_succ hjk) with
        | inl heq => rwa [heq]
        | inr hlt => exact hpast j hj hlt
      . omega
    next hahead =>
      refine ⟨_, rfl, ⟨by omega, k, hk, rfl⟩, ?_⟩
      rintro next ⟨hnow, j, hj, rfl⟩
      by_contra hlt
      have hjk : j < k := by
        by_contra hge
        have := Nat.mul_le_mul_right intervalMs (Nat.le_of_not_lt hge)
        omega
      have := hpast j hj hjk
      omega

theorem advancePast_interval {s : Schedule} {now : Nat} (hcron : s.cron = none) (hpos : 1 ≤ s.intervalMs)
    (hrange : ∃ next, OnGrid s.nextFireMs s.intervalMs now next ∧ next ≤ 2 ^ 64 - 1)
    : ∃ next, s.advancePast now = some (.ok { s with nextFireMs := next })
        ∧ IsLeast { next | OnGrid s.nextFireMs s.intervalMs now next } next := by
  obtain ⟨_, ⟨hnow, last, hlast, rfl⟩, hmax⟩ := hrange
  have hmono : 1 * s.intervalMs ≤ last * s.intervalMs := Nat.mul_le_mul_right _ hlast
  obtain ⟨next, hnext, hleast⟩ := @skipTicks_least s.nextFireMs s.intervalMs now last hnow hmax hpos (now + 2) 1
    (Nat.le_refl 1) hlast (by intro j hj hlt; omega) (by omega)
  refine ⟨next, ?_, hleast⟩
  unfold advancePast
  rw [hcron, saturatingAdd_eq (by omega)]
  dsimp only
  rw [Nat.one_mul] at hnext
  rw [hnext]
  rfl

def InRange (now : Nat) : Prop :=
  60000 * (now / 60000 + 1 + maxLookaheadMinutes) < 2 ^ 64

/--
The states of a schedule with a cron expression: it is created at some time and advanced when it is due.
-/
inductive Recurs (expr : String) : Schedule → Prop where
  | created {id workflowName : String} {now : Nat} {s : Schedule} (hrange : InRange now)
    (h : ofCron id workflowName expr now = .ok s) : Recurs expr s
  | advanced {s s' : Schedule} {now : Nat} (hs : Recurs expr s) (hdue : s.nextFireMs ≤ now) (hrange : InRange now)
    (h : s.advancePast now = some (.ok s')) : Recurs expr s'

theorem advancePast_cron {s : Schedule} {expr : String} {c : Cron} (hcron : s.cron = some expr)
    (hparse : Cron.parse expr = .ok c) (now : Nat)
    : s.advancePast now
        = some (match c.nextAfter now with
          | some next => .ok { s with nextFireMs := next }
          | none => .error (.invalid s!"cron `{expr}` has no further fire time")) := by
  unfold advancePast
  rw [hcron]
  dsimp only
  rw [hparse]
  rfl

theorem fires_of_nextAfter {c : Cron} (hopen : c.Open) {now m : Nat} (hrange : InRange now)
    (h : c.nextAfter now = some m) : c.Fires m := by
  obtain ⟨k, rfl, -, -, hmatch, -⟩ := (Cron.scan_eq_some_iff hrange).mp h
  exact (Cron.isMatchAt_iff hopen k).mp hmatch

theorem Recurs.fires {expr : String} {s : Schedule} (h : Recurs expr s)
    : s.cron = some expr ∧ ∀ c, Cron.parse expr = .ok c → c.Fires s.nextFireMs := by
  induction h with
  | @created id workflowName now s hrange h =>
    unfold ofCron at h
    cases hparse : Cron.parse expr with
    | error err =>
      rw [hparse] at h
      cases h
    | ok c =>
      rw [hparse] at h
      dsimp only [bind, Except.bind] at h
      cases hnext : c.nextAfter now with
      | none =>
        rw [hnext] at h
        cases h
      | some next =>
        rw [hnext] at h
        cases h
        refine ⟨rfl, ?_⟩
        intro c' hc'
        cases hc'
        exact fires_of_nextAfter (Cron.open_of_parse hparse) hrange hnext
  | @advanced s s' now hs hdue hrange h ih =>
    obtain ⟨hcron, hfires⟩ := ih
    cases hparse : Cron.parse expr with
    | error err =>
      unfold advancePast at h
      rw [hcron] at h
      dsimp only at h
      rw [hparse] at h
      cases h
    | ok c =>
      rw [advancePast_cron hcron hparse] at h
      cases hnext : c.nextAfter now with
      | none =>
        rw [hnext] at h
        cases h
      | some next =>
        rw [hnext] at h
        cases h
        refine ⟨hcron, ?_⟩
        intro c' hc'
        cases hc'
        exact fires_of_nextAfter (Cron.open_of_parse hparse) hrange hnext

/--
A schedule with an interval is advanced to the first point of its grid that is still to come. One with a cron
expression can be advanced at its own tick if and only if it is not stranded there.
-/
theorem advances_iff (s : Schedule)
    : (∀ now : Nat, s.cron = none → 1 ≤ s.intervalMs →
        (∃ next, OnGrid s.nextFireMs s.intervalMs now next ∧ next ≤ 2 ^ 64 - 1) →
        ∃ next, s.advancePast now = some (.ok { s with nextFireMs := next })
          ∧ IsLeast { next | OnGrid s.nextFireMs s.intervalMs now next } next)
      ∧ ∀ (expr : String) (c : Cron), Cron.parse expr = .ok c → Recurs expr s →
        ((∃ s', s.advancePast s.nextFireMs = some (.ok s')) ↔ ¬c.Stranded s.nextFireMs) := by
  refine ⟨fun now => advancePast_interval, ?_⟩
  intro expr c hparse hrecurs
  obtain ⟨hcron, hfires⟩ := hrecurs.fires
  rw [← Cron.nextAfter_eq_none_iff_stranded (Cron.open_of_parse hparse) (hfires c hparse),
    advancePast_cron hcron hparse]
  cases c.nextAfter s.nextFireMs with
  | none => simp
  | some next => simp

end Schedule

namespace Anniversary

def expr : String := "0 0 29 2 *"

def cron : Cron where
  minutes := 1
  hours := 1
  doms := 2 ^ 29
  months := 2 ^ 2
  dows := 127
  domRestricted := true
  dowRestricted := false

theorem parse_expr : Cron.parse expr = .ok cron := by
  decide

def schedule : Schedule where
  id := "party"
  workflowName := "party"
  intervalMs := 0
  cron := some expr
  nextFireMs := 3981312000000

theorem created : Schedule.ofCron "party" "party" expr 3981311999999 = .ok schedule := by
  decide

theorem recurs : Schedule.Recurs expr schedule := by
  apply Schedule.Recurs.created _ created
  unfold Schedule.InRange
  decide

theorem stranded : cron.Stranded schedule.nextFireMs where
  leapDayOnly := by
    intro ms hfires
    have hmonth := hfires.month
    have hday := hfires.day
    simp only [cron, Nat.testBit_two_pow, decide_eq_true_iff] at hmonth hday
    simp only [Bool.false_eq_true, and_false, if_false] at hday
    exact ⟨hmonth.symm, hday.1.symm⟩
  last := by
    intro hour _ minute _ hhours hminutes
    have hone : (1 : Nat) = 2 ^ 0 := rfl
    simp only [cron, hone, Nat.testBit_two_pow, decide_eq_true_iff] at hhours hminutes
    omega
  century := by
    have hdate : Calendar.Date.leapDay 2096 (by decide) = Cron.dateAt schedule.nextFireMs :=
      Calendar.Date.eq_onDay (by decide)
    rw [← hdate]
    decide

end Anniversary

open Anniversary

theorem advances_iff_instances
    : (∃ next, Backups.nightly.advancePast 3500 = some (.ok { Backups.nightly with nextFireMs := next })
        ∧ IsLeast { next | Schedule.OnGrid 1000 1000 3500 next } next)
      ∧ ¬∃ s', schedule.advancePast schedule.nextFireMs = some (.ok s') := by
  refine ⟨(Schedule.advances_iff Backups.nightly).1 3500 rfl (by decide) ?_, ?_⟩
  . exact ⟨4000, ⟨by decide, 3, by decide, by decide⟩, by decide⟩
  . rw [(Schedule.advances_iff schedule).2 expr cron parse_expr
      recurs, not_not]
    exact stranded

-- The schedule fires on the leap day of 2096 and is an error from then on.
theorem anniversary_stops
    : Schedule.ofCron "party" "party" expr 3981311999999 = .ok schedule
        ∧ schedule.advancePast schedule.nextFireMs
          = some (.error (.invalid "cron `0 0 29 2 *` has no further fire time")) := by
  refine ⟨created, ?_⟩
  have hnone : cron.nextAfter schedule.nextFireMs = none := by
    rw [Cron.nextAfter_eq_none_iff_stranded (Cron.open_of_parse parse_expr)
      ((recurs).fires.2 _ parse_expr)]
    exact stranded
  rw [Schedule.advancePast_cron rfl parse_expr, hnone]
  rfl

end Wovyr.Workflow
