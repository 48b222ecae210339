import Mathlib.Tactic.Zify
import Wovyr.Lib.Calendar
import Wovyr.Workflow.Cron

/-!
This module contains the proof that the calendar of the cron expressions is the Gregorian one, and
that the search for the next time finds the first minute permitted.
-/

open Calendar

namespace Wovyr.Workflow.Cron

section

-- The days of an era before its year `k`. The years begin in March.
def cycleStart (k : Nat) : Nat :=
  365 * k + k / 4 - k / 100 + k / 400

def leapless (doe : Nat) : Nat :=
  doe - doe / 1460 + doe / 36524 - doe / 146096

theorem leapless_mono {a b : Nat} (h : a ≤ b) (hb : b < 146097) : leapless a ≤ leapless b := by
  have hleap : a - a / 1460 ≤ b - b / 1460 := by omega
  have hcentury : a / 36524 - a / 146096 ≤ b / 36524 - b / 146096 := by omega
  unfold leapless
  omega

theorem leapless_cycleStart
    : ∀ k < 400, 365 * k ≤ leapless (cycleStart k) ∧ leapless (cycleStart (k + 1) - 1) < 365 * (k + 1) := by
  decide +kernel

theorem cast_cycleStart (k : Nat)
    : (cycleStart k : Int) = 365 * (k : Int) + (k : Int) / 4 - (k : Int) / 100 + (k : Int) / 400 := by
  unfold cycleStart
  omega

theorem cycleStart_succ (k : Nat) : cycleStart (k + 1) = cycleStart k + yearLength (k + 1) := by
  zify
  rw [cast_cycleStart, cast_cycleStart, Nat.cast_succ]
  unfold yearLength
  split
  next hleap =>
    unfold Leap at hleap
    omega
  next hleap =>
    unfold Leap at hleap
    omega

theorem yearLength_le (y : Int) : yearLength y ≤ 366 := by
  unfold yearLength
  split <;> omega

theorem leap_of_yearLength {y : Int} (h : 365 < yearLength y) : Leap y := by
  unfold yearLength at h
  by_contra hleap
  rw [if_neg hleap] at h
  exact Nat.lt_irrefl _ h

theorem leap_add_era (y era : Int) : Leap (y + era * 400) ↔ Leap y := by
  have hfour : (y + era * 400) % 4 = y % 4 := by omega
  have hcentury : (y + era * 400) % 100 = y % 100 := by omega
  have hera : (y + era * 400) % 400 = y % 400 := by omega
  unfold Leap
  rw [hfour, hcentury, hera]

theorem cycleStart_add_era (yoe : Nat) (era : Int)
    : 365 * (yoe + era * 400) + (yoe + era * 400) / 4 - (yoe + era * 400) / 100 + (yoe + era * 400) / 400
        = cycleStart yoe + era * 146097 := by
  have hfour : (yoe + era * 400) / 4 = yoe / 4 + era * 100 := by omega
  have hcentury : (yoe + era * 400) / 100 = yoe / 100 + era * 4 := by omega
  have hera : (yoe + era * 400) / 400 = yoe / 400 + era := by omega
  rw [hfour, hcentury, hera]
  unfold cycleStart
  omega

theorem exists_cycleStart_le {doe n : Nat} (h : doe < cycleStart n)
    : ∃ k < n, cycleStart k ≤ doe ∧ doe < cycleStart (k + 1) := by
  induction n with
  | zero => exact absurd h (Nat.not_lt_zero doe)
  | succ n ih =>
    by_cases hn : doe < cycleStart n
    . obtain ⟨k, hk, hdoe⟩ := ih hn
      exact ⟨k, by omega, hdoe⟩
    . exact ⟨n, by omega, by omega, h⟩

theorem leapless_div {doe k : Nat} (hk : k < 400) (hle : cycleStart k ≤ doe) (hlt : doe < cycleStart (k + 1))
    : leapless doe / 365 = k := by
  have hend : cycleStart (k + 1) ≤ 146097 := by
    unfold cycleStart
    omega
  obtain ⟨hfirst, hlast⟩ := leapless_cycleStart k hk
  have hlower := leapless_mono hle (by omega)
  have hupper := @leapless_mono doe (cycleStart (k + 1) - 1) (by omega) (by omega)
  omega

def marchMonth (doy : Nat) : Nat :=
  let mp := (5 * doy + 2) / 153
  if mp < 10 then mp + 3 else mp - 9

def marchDay (doy : Nat) : Nat :=
  doy - (153 * ((5 * doy + 2) / 153) + 2) / 5 + 1

theorem marchMonth_pos (doy : Nat) : 1 ≤ marchMonth doy := by
  unfold marchMonth
  dsimp only
  split <;> omega

theorem marchMonth_le {doy : Nat} (hlt : doy < 366) : marchMonth doy ≤ 12 := by
  unfold marchMonth
  dsimp only
  split <;> omega

theorem marchDay_le {y : Int} {doy : Nat} (hlt : doy < 366) (hleap : doy = 365 → Leap (y + 1))
    : marchDay doy ≤ monthLength (if marchMonth doy ≤ 2 then y + 1 else y) (marchMonth doy) := by
  have hmp : (5 * doy + 2) / 153 < 12 := by omega
  unfold marchMonth marchDay
  generalize hm : (5 * doy + 2) / 153 = mp at hmp
  interval_cases mp
  all_goals simp [monthLength]
  all_goals try omega
  -- February has its 29th day only at the end of the years that are one day longer.
  split
  . omega
  . next hnot =>
    have : doy ≠ 365 := fun h => hnot (hleap h)
    omega

-- The year `y` begins in March, and its January and February are in the next one.
def marchDate (y : Int) (doy : Nat) (hlt : doy < 366) (hleap : doy = 365 → Leap (y + 1)) : Date where
  year := if marchMonth doy ≤ 2 then y + 1 else y
  month := marchMonth doy
  day := marchDay doy
  month_pos := marchMonth_pos doy
  month_le := marchMonth_le hlt
  day_pos := Nat.le_add_left _ _
  day_le := marchDay_le hlt hleap

theorem dayNumber_marchDate (y : Int) (doy : Nat) (hlt : doy < 366) (hleap : doy = 365 → Leap (y + 1))
    : (marchDate y doy hlt hleap).dayNumber = 365 * y + y / 4 - y / 100 + y / 400 - 719468 + doy := by
  have hmp : (5 * doy + 2) / 153 < 12 := by omega
  unfold Date.dayNumber marchDate marchMonth marchDay
  dsimp only
  generalize hm : (5 * doy + 2) / 153 = mp at hmp
  -- January and February are shorter than two months of thirty days by as much.
  obtain ⟨short, hle, hshort, hstart⟩ : ∃ short : Nat, short ≤ 2 ∧ (if Leap y then 1 else 2) = short
      ∧ yearStart y = 365 * y + y / 4 - y / 100 + y / 400 - 719468 - 61 + short := by
    refine ⟨if Leap y then 1 else 2, ?_, rfl, ?_⟩
    . split <;> omega
    . unfold yearStart
      split
      all_goals
        next hleap' =>
          unfold Leap at hleap'
          omega
  have hnext : yearStart (y + 1) = 365 * y + y / 4 - y / 100 + y / 400 - 719468 + 306 := by
    unfold yearStart
    omega
  by_cases hmonth : mp < 10
  . rw [if_pos hmonth, if_neg (by omega), monthStart_eq y (by omega) (by omega), if_neg (by omega), hshort]
    interval_cases mp <;> omega
  . rw [if_neg hmonth, if_pos (by omega), monthStart_eq (y + 1) (by omega) (by omega), if_pos (by omega)]
    interval_cases mp <;> omega

theorem era_eq (z : Int) : (if 0 ≤ z then z else z - 146096).tdiv 146097 = z / 146097 := by
  split
  next h => exact Int.tdiv_eq_ediv_of_nonneg h
  next h =>
    rw [Int.tdiv_eq_ediv]
    split
    . omega
    . rw [Int.sign_eq_one_of_pos (by decide)]
      omega

theorem civilFromDays_march (z : Int) {era : Int} {doe yoe : Nat} (hera : (z + 719468) / 146097 = era)
    (hdoe : z + 719468 = era * 146097 + doe) (hyoe : yoe < 400) (hle : cycleStart yoe ≤ doe)
    (hlt : doe < cycleStart (yoe + 1))
    : let y := yoe + era * 400
      let doy := doe - cycleStart yoe
      civilFromDays z = (if marchMonth doy ≤ 2 then y + 1 else y, marchMonth doy, marchDay doy) := by
  have hday : (z + 719468 - era * 146097).toNat = doe := by omega
  have hyear : (doe - doe / 1460 + doe / 36524 - doe / 146096) / 365 = yoe := leapless_div hyoe hle hlt
  have hstart : 365 * yoe + yoe / 4 - yoe / 100 = cycleStart yoe := by
    unfold cycleStart
    omega
  unfold civilFromDays
  dsimp only
  rw [era_eq, hera, hday, hyear, hstart]
  rfl

theorem civilFromDays_eq (z : Int)
    : ∃ date : Date, civilFromDays z = (date.year, date.month, date.day) ∧ date.dayNumber = z := by
  obtain ⟨doe, hdoe⟩ : ∃ doe : Nat, z + 719468 = (z + 719468) / 146097 * 146097 + doe :=
    ⟨((z + 719468) % 146097).toNat, by omega⟩
  have hcycle : cycleStart 400 = 146097 := rfl
  obtain ⟨yoe, hyoe, hle, hlt⟩ := @exists_cycleStart_le doe 400 (by omega)
  generalize hera : (z + 719468) / 146097 = era at hdoe
  have hlength := cycleStart_succ yoe
  have hlengthLe := yearLength_le (yoe + 1)
  have hdoy : doe - cycleStart yoe < 366 := by omega
  have hleap (h : doe - cycleStart yoe = 365) : Leap (yoe + era * 400 + 1) := by
    rw [Int.add_right_comm, leap_add_era]
    exact leap_of_yearLength (by omega)
  refine ⟨marchDate (yoe + era * 400) (doe - cycleStart yoe) hdoy hleap, ?_, ?_⟩
  . exact civilFromDays_march z hera hdoe hyoe hle hlt
  . rw [dayNumber_marchDate, cycleStart_add_era]
    omega

theorem civilFromDays_dayNumber (date : Date)
    : civilFromDays date.dayNumber = (date.year, date.month, date.day) := by
  obtain ⟨date', hcivil, hnumber⟩ := civilFromDays_eq date.dayNumber
  rw [hcivil, Date.eq_of_dayNumber_eq hnumber]

end

def dateAt (ms : Nat) : Date :=
  .onDay (ms / 86400000)

def hourAt (ms : Nat) : Nat :=
  ms / 3600000 % 24

def minuteAt (ms : Nat) : Nat :=
  ms / 60000 % 60

def weekdayAt (ms : Nat) : Nat :=
  (ms / 86400000 + 4) % 7

/--
The expression fires at the instant. If neither the day of month nor the weekday is left open, one of them is
enough.
-/
structure Fires (c : Cron) (ms : Nat) : Prop where
  whole : 60000 ∣ ms
  minute : c.minutes.testBit (minuteAt ms) = true
  hour : c.hours.testBit (hourAt ms) = true
  month : c.months.testBit (dateAt ms).month = true
  day :
    if c.domRestricted = true ∧ c.dowRestricted = true then
      c.doms.testBit (dateAt ms).day = true ∨ c.dows.testBit (weekdayAt ms) = true
    else
      c.doms.testBit (dateAt ms).day = true ∧ c.dows.testBit (weekdayAt ms) = true

structure Open (c : Cron) : Prop where
  doms : c.domRestricted = false → ∀ d, 1 ≤ d → d ≤ 31 → c.doms.testBit d = true
  dows : c.dowRestricted = false → ∀ w < 7, c.dows.testBit w = true

theorem parseField_star {spec : String} (h : Text.trim spec = "*")
    : parseField spec 1 31 none = .ok (2 ^ 32 - 2) ∧ parseField spec 0 7 (some dowNames) = .ok (2 ^ 8 - 1) := by
  unfold parseField
  rw [h]
  exact ⟨by decide, by decide⟩

theorem parse_eq_ok {expr : String} {c : Cron} (h : parse expr = .ok c)
    : ∃ doms dows mask, parseField doms 1 31 none = .ok c.doms ∧ parseField dows 0 7 (some dowNames) = .ok mask
        ∧ c.dows = (if mask.testBit 7 then (mask - 1 <<< 7) ||| 1 else mask)
        ∧ c.domRestricted = (Text.trim doms != "*") ∧ c.dowRestricted = (Text.trim dows != "*") := by
  unfold parse at h
  dsimp only at h
  split at h
  next minutes hours doms months dows _ =>
    cases hminutes : parseField minutes 0 59 none with
    | error err => simp [hminutes, bind, Except.bind] at h
    | ok minutesMask =>
      cases hhours : parseField hours 0 23 none with
      | error err => simp [hminutes, hhours, bind, Except.bind] at h
      | ok hoursMask =>
        cases hdoms : parseField doms 1 31 none with
        | error err => simp [hminutes, hhours, hdoms, bind, Except.bind] at h
        | ok domsMask =>
          cases hmonths : parseField months 1 12 (some monthNames) with
          | error err => simp [hminutes, hhours, hdoms, hmonths, bind, Except.bind] at h
          | ok monthsMask =>
            cases hdows : parseField dows 0 7 (some dowNames) with
            | error err => simp [hminutes, hhours, hdoms, hmonths, hdows, bind, Except.bind] at h
            | ok dowsMask =>
              simp only [hminutes, hhours, hdoms, hmonths, hdows, bind, Except.bind, Except.ok.injEq] at h
              subst h
              exact ⟨doms, dows, dowsMask, hdoms, hdows, rfl, rfl, rfl⟩
  next => cases h

theorem open_of_parse {expr : String} {c : Cron} (h : parse expr = .ok c) : Open c := by
  obtain ⟨doms, dows, mask, hdoms, hdows, hmask, hdom, hdow⟩ := parse_eq_ok h
  refine ⟨?_, ?_⟩
  . intro hopen d hlower hupper
    have hstar : Text.trim doms = "*" := by simpa using hdom.symm.trans hopen
    have hfull : c.doms = 2 ^ 32 - 2 := Except.ok.inj (hdoms.symm.trans (parseField_star hstar).1)
    rw [hfull]
    interval_cases d <;> decide
  . intro hopen w hw
    have hstar : Text.trim dows = "*" := by simpa using hdow.symm.trans hopen
    cases hdows.symm.trans (parseField_star hstar).2
    rw [hmask]
    interval_cases w <;> decide

def isMatchAt (c : Cron) (minuteIdx : Nat) : Bool :=
  let (_, month, day, hour, minute, dow) := civilFields (minuteIdx * 60)
  c.isMatch month day dow hour minute

theorem civilFields_eq (minuteIdx : Nat)
    : civilFields (minuteIdx * 60)
        = ((dateAt (minuteIdx * 60000)).year, (dateAt (minuteIdx * 60000)).month, (dateAt (minuteIdx * 60000)).day,
          hourAt (minuteIdx * 60000), minuteAt (minuteIdx * 60000), weekdayAt (minuteIdx * 60000)) := by
  have hdays : minuteIdx * 60 / 86400 = minuteIdx * 60000 / 86400000 := by omega
  have hcivil := civilFromDays_dayNumber (dateAt (minuteIdx * 60000))
  unfold dateAt at *
  rw [Date.dayNumber_onDay, ← hdays] at hcivil
  unfold civilFields
  dsimp only
  rw [hcivil, ← hdays]
  unfold hourAt minuteAt weekdayAt
  simp only [Prod.mk.injEq, true_and]
  omega

theorem day_le (ms : Nat) : (dateAt ms).day ≤ 31 := by
  apply (dateAt ms).day_le.trans
  unfold monthLength
  split
  . split <;> omega
  all_goals omega

theorem isMatchAt_iff {c : Cron} (hopen : Open c) (minuteIdx : Nat)
    : isMatchAt c minuteIdx = true ↔ Fires c (minuteIdx * 60000) := by
  unfold isMatchAt
  rw [civilFields_eq]
  dsimp only
  have hdom (h : c.domRestricted = false) := hopen.doms h _ (dateAt (minuteIdx * 60000)).day_pos (day_le _)
  have hdow (h : c.dowRestricted = false) := hopen.dows h (weekdayAt (minuteIdx * 60000)) (Nat.mod_lt _ (by decide))
  have hwhole : 60000 ∣ minuteIdx * 60000 := Nat.dvd_mul_left _ _
  unfold isMatch
  constructor
  . intro h
    split at h
    . cases h
    . next htime =>
      simp only [Bool.or_eq_true, Bool.not_eq_true', not_or, Bool.not_eq_false] at htime
      refine ⟨hwhole, htime.1.1, htime.1.2, htime.2, ?_⟩
      cases hdomRestricted : c.domRestricted <;> cases hdowRestricted : c.dowRestricted <;>
        simp_all
  . intro h
    have hday := h.day
    rw [h.minute, h.hour, h.month]
    cases hdomRestricted : c.domRestricted <;> cases hdowRestricted : c.dowRestricted <;>
      simp_all

theorem scan_succ (c : Cron) (minutes minuteIdx : Nat)
    : c.scan (minutes + 1) minuteIdx
        = if isMatchAt c minuteIdx then some (minuteIdx * 60000 % 2 ^ 64) else c.scan minutes (minuteIdx + 1) := by
  rfl

theorem scan_eq_none_iff {c : Cron} {minutes minuteIdx : Nat}
    : c.scan minutes minuteIdx = none ↔ ∀ k, minuteIdx ≤ k → k < minuteIdx + minutes → isMatchAt c k = false := by
  induction minutes generalizing minuteIdx with
  | zero =>
    refine iff_of_true rfl ?_
    intro k hle hlt
    omega
  | succ minutes ih =>
    rw [scan_succ]
    constructor
    . intro h k hle hlt
      split at h
      . cases h
      . next hno =>
        cases Nat.eq_or_lt_of_le hle with
        | inl heq => exact heq ▸ Bool.eq_false_iff.mpr hno
        | inr hlt' => exact ih.mp h k hlt' (by omega)
    . intro h
      rw [h minuteIdx (Nat.le_refl _) (by omega), if_neg Bool.false_ne_true]
      exact ih.mpr fun k hle hlt => h k (by omega) (by omega)

theorem scan_eq_some_iff {c : Cron} {minutes minuteIdx m : Nat} (hrange : 60000 * (minuteIdx + minutes) < 2 ^ 64)
    : c.scan minutes minuteIdx = some m
        ↔ ∃ k, m = k * 60000 ∧ minuteIdx ≤ k ∧ k < minuteIdx + minutes ∧ isMatchAt c k = true
          ∧ ∀ j, minuteIdx ≤ j → j < k → isMatchAt c j = false := by
  induction minutes generalizing minuteIdx with
  | zero =>
    refine iff_of_false nofun ?_
    rintro ⟨k, -, hle, hlt, -⟩
    omega
  | succ minutes ih =>
    have hrange' : 60000 * (minuteIdx + 1 + minutes) < 2 ^ 64 := by omega
    have hlt : minuteIdx * 60000 < 2 ^ 64 := by
      rw [Nat.mul_comm]
      omega
    rw [scan_succ, Nat.mod_eq_of_lt hlt]
    by_cases hmatch : isMatchAt c minuteIdx = true
    . rw [if_pos hmatch, Option.some.injEq]
      constructor
      . rintro rfl
        exact ⟨minuteIdx, rfl, Nat.le_refl _, by omega, hmatch, fun j hle hlt => by omega⟩
      . rintro ⟨k, rfl, hle, -, -, hleast⟩
        cases Nat.eq_or_lt_of_le hle with
        | inl heq => rw [heq]
        | inr hlt =>
          rw [hleast minuteIdx (Nat.le_refl _) hlt] at hmatch
          cases hmatch
    . rw [if_neg hmatch, ih hrange']
      constructor
      . rintro ⟨k, heq, hle, hlt, hk, hleast⟩
        refine ⟨k, heq, by omega, by omega, hk, ?_⟩
        intro j hj hjk
        cases Nat.eq_or_lt_of_le hj with
        | inl heq => exact heq ▸ Bool.eq_false_iff.mpr hmatch
        | inr hlt' => exact hleast j hlt' hjk
      . rintro ⟨k, heq, hle, hlt, hk, hleast⟩
        have hne : minuteIdx ≠ k := by
          rintro rfl
          exact hmatch hk
        exact ⟨k, heq, by omega, by omega, hk, fun j hj hjk => hleast j (by omega) hjk⟩

-- A minute in which the expression fires, after the given time and within the lookahead.
def Upcoming (c : Cron) (afterMs m : Nat) : Prop :=
  Fires c m ∧ afterMs < m ∧ m ≤ afterMs + maxLookaheadMinutes * 60000

theorem upcoming_iff {c : Cron} (hopen : Open c) {afterMs m : Nat}
    : Upcoming c afterMs m
        ↔ ∃ k, m = k * 60000 ∧ afterMs / 60000 + 1 ≤ k ∧ k < afterMs / 60000 + 1 + maxLookaheadMinutes
          ∧ isMatchAt c k = true := by
  unfold Upcoming
  generalize maxLookaheadMinutes = minutes
  constructor
  . rintro ⟨hfires, hafter, hwindow⟩
    obtain ⟨k, rfl⟩ := hfires.whole
    rw [Nat.mul_comm] at hfires
    refine ⟨k, Nat.mul_comm _ _, by omega, by omega, (isMatchAt_iff hopen k).mpr hfires⟩
  . rintro ⟨k, rfl, hafter, hwindow, hmatch⟩
    refine ⟨(isMatchAt_iff hopen k).mp hmatch, ?_, ?_⟩
    . rw [Nat.mul_comm]
      omega
    . rw [Nat.mul_comm]
      omega

theorem nextAfter_eq_none_iff {c : Cron} (hopen : Open c) (afterMs : Nat)
    : c.nextAfter afterMs = none ↔ ∀ m, ¬Upcoming c afterMs m := by
  unfold nextAfter
  rw [scan_eq_none_iff]
  constructor
  . intro h m hm
    obtain ⟨k, rfl, hle, hlt, hmatch⟩ := (upcoming_iff hopen).mp hm
    rw [h k hle hlt] at hmatch
    cases hmatch
  . intro h k hle hlt
    by_contra hmatch
    exact h (k * 60000) ((upcoming_iff hopen).mpr ⟨k, rfl, hle, hlt, Bool.eq_true_of_not_eq_false hmatch⟩)

-- The start of the year 10000.
def endOfRange : Nat := 253402300800000

/--
The next time is the first minute of the window in which the expression fires, and there is none if and only
if the window has no such minute. The calendar inverts the count of days.
-/
theorem nextAfter_exact {expr : String} {c : Cron} (hparse : parse expr = .ok c) {afterMs : Nat}
    (hrange : afterMs < endOfRange)
    : (∀ m, c.nextAfter afterMs = some m ↔ IsLeast { m | Upcoming c afterMs m } m)
        ∧ (c.nextAfter afterMs = none ↔ ∀ m, ¬Upcoming c afterMs m)
        ∧ ∀ date : Date, civilFromDays date.dayNumber = (date.year, date.month, date.day) := by
  have hopen := open_of_parse hparse
  have hwindow : 60000 * (afterMs / 60000 + 1 + maxLookaheadMinutes) < 2 ^ 64 := by
    unfold endOfRange at hrange
    unfold maxLookaheadMinutes
    omega
  refine ⟨?_, nextAfter_eq_none_iff hopen afterMs, civilFromDays_dayNumber⟩
  intro m
  unfold nextAfter
  rw [scan_eq_some_iff hwindow]
  constructor
  . rintro ⟨k, rfl, hle, hlt, hmatch, hleast⟩
    refine ⟨(upcoming_iff hopen).mpr ⟨k, rfl, hle, hlt, hmatch⟩, ?_⟩
    intro m' hm'
    obtain ⟨j, rfl, hj, -, hmatch'⟩ := (upcoming_iff hopen).mp hm'
    apply Nat.mul_le_mul_right
    by_contra hjk
    rw [hleast j hj (Nat.lt_of_not_le hjk)] at hmatch'
    cases hmatch'
  . rintro ⟨hm, hleast⟩
    obtain ⟨k, rfl, hle, hlt, hmatch⟩ := (upcoming_iff hopen).mp hm
    refine ⟨k, rfl, hle, hlt, hmatch, ?_⟩
    intro j hj hjk
    by_contra hmatch'
    have hupcoming : Upcoming c afterMs (j * 60000) :=
      (upcoming_iff hopen).mpr ⟨j, rfl, hj, by omega, Bool.eq_true_of_not_eq_false hmatch'⟩
    have hkj := Nat.le_of_mul_le_mul_right (hleast hupcoming) (by decide)
    exact Nat.lt_irrefl _ (hjk.trans_le hkj)

theorem nextAfter_exact_yearly
    : ∃ c, parse "@yearly" = .ok c
        ∧ ∀ m, c.nextAfter 0 = some m ↔ IsLeast { m | Upcoming c 0 m } m := by
  have hparse : ∃ c, parse "@yearly" = .ok c := by
    refine ⟨⟨1, 1, 2, 2, 255 - 128, true, false⟩, ?_⟩
    decide
  obtain ⟨c, hc⟩ := hparse
  exact ⟨c, hc, (nextAfter_exact hc (by decide)).1⟩

end Wovyr.Workflow.Cron
