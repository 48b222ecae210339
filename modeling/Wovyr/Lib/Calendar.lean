import Mathlib.Tactic.IntervalCases

/-!
This module contains the Gregorian calendar, extended to all years: the dates with the day that follows each
of them, and their number when the days are counted from the start of 1970.
-/

namespace Calendar

def Leap (y : Int) : Prop :=
  y % 4 = 0 ∧ (y % 100 ≠ 0 ∨ y % 400 = 0)

instance (y : Int) : Decidable (Leap y) :=
  inferInstanceAs (Decidable (_ ∧ _))

def monthLength (y : Int) : Nat → Nat
  | 2 => if Leap y then 29 else 28
  | 4 => 30
  | 6 => 30
  | 9 => 30
  | 11 => 30
  | _ => 31

theorem monthLength_pos (y : Int) (m : Nat) : 0 < monthLength y m := by
  unfold monthLength
  split
  . split <;> omega
  all_goals omega

@[ext]
structure Date where
  year : Int
  month : Nat
  day : Nat
  month_pos : 1 ≤ month
  month_le : month ≤ 12
  day_pos : 1 ≤ day
  day_le : day ≤ monthLength year month

def monthStart (y : Int) : Nat → Nat
  | 0 => 0
  | 1 => 0
  | m + 2 => monthStart y (m + 1) + monthLength y (m + 1)

def yearLength (y : Int) : Nat :=
  if Leap y then 366 else 365

def yearStart (y : Int) : Int :=
  365 * y + (y - 1) / 4 - (y - 1) / 100 + (y - 1) / 400 - 719527

theorem yearStart_succ (y : Int) : yearStart (y + 1) = yearStart y + yearLength y := by
  unfold yearStart yearLength
  split
  next hleap =>
    unfold Leap at hleap
    omega
  next hleap =>
    unfold Leap at hleap
    omega

theorem yearStart_mono {y y' : Int} (h : y ≤ y') : yearStart y ≤ yearStart y' := by
  unfold yearStart
  omega

theorem monthStart_succ {m : Nat} (h : 1 ≤ m) (y : Int)
    : monthStart y (m + 1) = monthStart y m + monthLength y m := by
  cases m with
  | zero => omega
  | succ m => rfl

theorem monthStart_mono (y : Int) {m m' : Nat} (hpos : 1 ≤ m) (h : m ≤ m') : monthStart y m ≤ monthStart y m' := by
  induction h with
  | refl => exact Nat.le_refl _
  | @step m' hle ih =>
    rw [monthStart_succ (hpos.trans hle)]
    omega

theorem monthStart_eq (y : Int) {m : Nat} (hpos : 1 ≤ m) (hle : m ≤ 13)
    : monthStart y m = (367 * m - 362) / 12 - (if m ≤ 2 then 0 else if Leap y then 1 else 2) := by
  by_cases hleap : Leap y
  . interval_cases m <;> simp [monthStart, monthLength, hleap]
  . interval_cases m <;> simp [monthStart, monthLength, hleap]

theorem monthStart_year (y : Int) : monthStart y 13 = yearLength y := by
  rw [monthStart_eq y (by omega) (by omega)]
  rw [if_neg (by omega)]
  unfold yearLength
  split <;> rfl

namespace Date

def epoch : Date where
  year := 1970
  month := 1
  day := 1
  month_pos := by decide
  month_le := by decide
  day_pos := by decide
  day_le := by decide

def next (d : Date) : Date :=
  if hday : d.day < monthLength d.year d.month then
    { d with day := d.day + 1, day_pos := Nat.le_add_left _ _, day_le := hday }
  else if hmonth : d.month < 12 then
    { d with
      month := d.month + 1
      day := 1
      month_pos := Nat.le_add_left _ _
      month_le := hmonth
      day_pos := Nat.le_refl _
      day_le := monthLength_pos _ _ }
  else
    { year := d.year + 1
      month := 1
      day := 1
      month_pos := Nat.le_refl _
      month_le := by decide
      day_pos := Nat.le_refl _
      day_le := monthLength_pos _ _ }

def onDay (n : Nat) : Date :=
  next^[n] epoch

def dayNumber (d : Date) : Int :=
  yearStart d.year + monthStart d.year d.month + d.day - 1

theorem dayNumber_next (d : Date) : d.next.dayNumber = d.dayNumber + 1 := by
  have hle := d.day_le
  unfold next
  split
  next hday =>
    simp only [dayNumber]
    omega
  next hday =>
    split
    next hmonth =>
      simp only [dayNumber]
      rw [monthStart_succ d.month_pos]
      omega
    next hmonth =>
      have hmonth : d.month = 12 := by
        have := d.month_le
        omega
      have hyear := monthStart_year d.year
      rw [monthStart_succ (by omega)] at hyear
      simp only [dayNumber]
      rw [yearStart_succ, hmonth]
      rw [hmonth] at hle hday
      have hstart : monthStart (d.year + 1) 1 = 0 := rfl
      omega

@[simp]
theorem dayNumber_onDay (n : Nat) : (onDay n).dayNumber = n := by
  induction n with
  | zero => rfl
  | succ n ih =>
    have hsucc : onDay (n + 1) = (onDay n).next := Function.iterate_succ_apply' next n epoch
    rw [hsucc, dayNumber_next, ih]
    rfl

theorem yearStart_le (d : Date) : yearStart d.year ≤ d.dayNumber := by
  have := d.day_pos
  unfold dayNumber
  omega

theorem lt_yearStart (d : Date) : d.dayNumber < yearStart (d.year + 1) := by
  have hday := d.day_le
  have hmonth := @monthStart_mono d.year (d.month + 1) _ (by omega) (Nat.add_le_add_right d.month_le 1)
  rw [monthStart_year, monthStart_succ d.month_pos] at hmonth
  rw [yearStart_succ]
  unfold dayNumber
  omega

theorem year_le_of_dayNumber_le {d d' : Date} (h : d.dayNumber ≤ d'.dayNumber) : d.year ≤ d'.year := by
  by_contra hlt
  have hmono := @yearStart_mono (d'.year + 1) d.year (by omega)
  have := d'.lt_yearStart
  have := d.yearStart_le
  omega

theorem month_le_of_dayNumber_le {d d' : Date} (hyear : d.year = d'.year) (h : d.dayNumber ≤ d'.dayNumber)
    : d.month ≤ d'.month := by
  by_contra hlt
  have hmono := @monthStart_mono d.year (d'.month + 1) d.month (by omega) (by omega)
  rw [monthStart_succ d'.month_pos] at hmono
  have := d'.day_le
  have := d.day_pos
  unfold dayNumber at h
  rw [hyear] at h hmono
  omega

theorem eq_of_dayNumber_eq {d d' : Date} (h : d.dayNumber = d'.dayNumber) : d = d' := by
  have hyear : d.year = d'.year :=
    Int.le_antisymm (year_le_of_dayNumber_le h.le) (year_le_of_dayNumber_le h.ge)
  have hmonth : d.month = d'.month :=
    Nat.le_antisymm (month_le_of_dayNumber_le hyear h.le) (month_le_of_dayNumber_le hyear.symm h.ge)
  have hday : d.day = d'.day := by
    unfold dayNumber at h
    rw [hyear, hmonth] at h
    omega
  exact Date.ext hyear hmonth hday

theorem eq_onDay {d : Date} {n : Nat} (h : d.dayNumber = n) : d = onDay n := by
  apply eq_of_dayNumber_eq
  rw [h, dayNumber_onDay]

theorem exists_onDay {d : Date} (h : 1970 ≤ d.year) : ∃ n : Nat, onDay n = d ∧ (n : Int) = d.dayNumber := by
  have hpos : 0 ≤ d.dayNumber := (yearStart_mono h).trans d.yearStart_le
  have hcast : d.dayNumber = (d.dayNumber.toNat : Int) := by omega
  exact ⟨d.dayNumber.toNat, (eq_onDay hcast).symm, hcast.symm⟩

theorem year_onDay (n : Nat) : 1970 ≤ (onDay n).year := by
  apply @year_le_of_dayNumber_le (onDay 0) (onDay n)
  rw [dayNumber_onDay, dayNumber_onDay]
  omega

theorem lt_of_year_succ {d d' : Date} (h : d'.year = d.year + 1) : d.dayNumber < d'.dayNumber := by
  have hend := d.lt_yearStart
  have hstart := d'.yearStart_le
  rw [h] at hstart
  omega

theorem le_of_year_succ {d d' : Date} (h : d'.year = d.year + 1) : d'.dayNumber < d.dayNumber + 732 := by
  have hend := d'.lt_yearStart
  have hstart := d.yearStart_le
  have hle (y : Int) : yearLength y ≤ 366 := by
    unfold yearLength
    split <;> omega
  rw [h, yearStart_succ, yearStart_succ] at hend
  have := hle d.year
  have := hle (d.year + 1)
  omega

def IsLeapDay (d : Date) : Prop :=
  d.month = 2 ∧ d.day = 29

theorem leap_of_isLeapDay {d : Date} (h : d.IsLeapDay) : Leap d.year := by
  by_contra hleap
  have hle := d.day_le
  rw [h.1, h.2] at hle
  simp [monthLength, hleap] at hle

theorem dayNumber_of_isLeapDay {d : Date} (h : d.IsLeapDay) : d.dayNumber = yearStart d.year + 59 := by
  unfold dayNumber
  rw [h.1, h.2]
  simp [monthStart, monthLength]
  omega

def leapDay (y : Int) (h : Leap y) : Date where
  year := y
  month := 2
  day := 29
  month_pos := by decide
  month_le := by decide
  day_pos := by decide
  day_le := by simp [monthLength, h]

def inYear (d : Date) (h : ¬d.IsLeapDay) (y : Int) : Date where
  year := y
  month := d.month
  day := d.day
  month_pos := d.month_pos
  month_le := d.month_le
  day_pos := d.day_pos
  day_le := by
    have hle := d.day_le
    have hmonth : d.month = 2 → d.day ≠ 29 := fun hm hd => h ⟨hm, hd⟩
    generalize d.month = m at hle hmonth
    unfold monthLength at *
    split at hle
    . have := hmonth rfl
      simp only at *
      split at hle <;> split <;> omega
    all_goals simpa using hle

def early (y : Int) (m k : Nat) (hpos : 1 ≤ m) (hle : m ≤ 12) (hk : k < 28) : Date where
  year := y
  month := m
  day := k + 1
  month_pos := hpos
  month_le := hle
  day_pos := Nat.le_add_left _ _
  day_le := by
    unfold monthLength
    split
    . split <;> omega
    all_goals omega

end Calendar.Date
