import Wovyr.Workflow.Cron.Calendar

/-!
This module contains for which instants the lookahead of a cron expression is too short.
-/

open Calendar

namespace Wovyr.Workflow.Cron

open Date

variable {c : Cron}

def instant (day hour minute : Nat) : Nat :=
  day * 86400000 + hour * 3600000 + minute * 60000

section

variable {day hour minute : Nat} (hhour : hour < 24) (hminute : minute < 60)
include hhour hminute

theorem instant_day : instant day hour minute / 86400000 = day := by
  unfold instant
  omega

theorem hourAt_instant : hourAt (instant day hour minute) = hour := by
  unfold hourAt instant
  omega

theorem minuteAt_instant : minuteAt (instant day hour minute) = minute := by
  unfold minuteAt instant
  omega

theorem dateAt_instant : dateAt (instant day hour minute) = .onDay day := by
  unfold dateAt
  rw [instant_day hhour hminute]

theorem weekdayAt_instant : weekdayAt (instant day hour minute) = (day + 4) % 7 := by
  unfold weekdayAt
  rw [instant_day hhour hminute]

end

theorem whole_instant (day hour minute : Nat) : 60000 ∣ instant day hour minute := by
  unfold instant
  omega

theorem hourAt_lt (ms : Nat) : hourAt ms < 24 :=
  Nat.mod_lt _ (by decide)

theorem minuteAt_lt (ms : Nat) : minuteAt ms < 60 :=
  Nat.mod_lt _ (by decide)

theorem instant_of_whole {ms : Nat} (h : 60000 ∣ ms) : instant (ms / 86400000) (hourAt ms) (minuteAt ms) = ms := by
  unfold instant hourAt minuteAt
  omega

def DayFires (c : Cron) (day : Nat) : Prop :=
  c.months.testBit (onDay day).month = true
    ∧ if c.domRestricted = true ∧ c.dowRestricted = true then
        c.doms.testBit (onDay day).day = true ∨ c.dows.testBit ((day + 4) % 7) = true
      else
        c.doms.testBit (onDay day).day = true ∧ c.dows.testBit ((day + 4) % 7) = true

theorem Fires.dayFires {ms : Nat} (h : Fires c ms) : DayFires c (ms / 86400000) :=
  ⟨h.month, h.day⟩

theorem fires_instant {day hour minute : Nat} (hday : DayFires c day) (hhour : hour < 24) (hminute : minute < 60)
    (hhours : c.hours.testBit hour = true) (hminutes : c.minutes.testBit minute = true)
    : Fires c (instant day hour minute) where
  whole := whole_instant day hour minute
  minute := by rwa [minuteAt_instant hhour hminute]
  hour := by rwa [hourAt_instant hhour hminute]
  month := by
    rw [dateAt_instant hhour hminute]
    exact hday.1
  day := by
    rw [dateAt_instant hhour hminute, weekdayAt_instant hhour hminute]
    exact hday.2

-- The expression does not fire on any other date.
def LeapDayOnly (c : Cron) : Prop :=
  ∀ ms, Fires c ms → (dateAt ms).IsLeapDay

/--
At its last time on a leap day, an expression for leap days finds the next one more than four years away.
-/
structure Stranded (c : Cron) (ms : Nat) : Prop where
  leapDayOnly : LeapDayOnly c
  last : ∀ hour < 24, ∀ minute < 60, c.hours.testBit hour = true → c.minutes.testBit minute = true →
    hour * 60 + minute ≤ hourAt ms * 60 + minuteAt ms
  century : ¬Leap ((dateAt ms).year + 4)

theorem upcoming_instant {afterMs day hour minute : Nat} (hfires : Fires c (instant day hour minute))
    (hhour : hour < 24) (hminute : minute < 60) (hlt : afterMs < instant day hour minute)
    (hle : day < afterMs / 86400000 + 1463) : Upcoming c afterMs (instant day hour minute) := by
  refine ⟨hfires, hlt, ?_⟩
  unfold instant maxLookaheadMinutes
  omega

theorem lt_instant {afterMs day : Nat} (h : afterMs / 86400000 < day) (hour minute : Nat)
    : afterMs < instant day hour minute := by
  unfold instant
  omega

/--
Either the day of month alone lets the expression fire, or the weekday does.
-/
theorem dayFires_cases (hopen : Open c) {day : Nat} (h : DayFires c day)
    : (∀ n, (onDay n).month = (onDay day).month → (onDay n).day = (onDay day).day → DayFires c n)
      ∨ ∀ n, (onDay n).month = (onDay day).month → (n + 4) % 7 = (day + 4) % 7 → DayFires c n := by
  obtain ⟨hmonth, hday⟩ := h
  have hdoms (hdom : c.domRestricted = false) (n : Nat) : c.doms.testBit (onDay n).day = true := by
    have hle := day_le (n * 86400000)
    unfold dateAt at hle
    rw [Nat.mul_div_cancel n (by decide)] at hle
    exact hopen.doms hdom _ (onDay n).day_pos hle
  have hdows (hdow : c.dowRestricted = false) (n : Nat) : c.dows.testBit ((n + 4) % 7) = true :=
    hopen.dows hdow _ (Nat.mod_lt _ (by decide))
  unfold DayFires
  cases hdom : c.domRestricted with
  | false =>
    refine .inr ?_
    intro n hm hw
    rw [hm, hw]
    simp [hdom] at hday
    simp [hmonth, hday.2, hdoms hdom n]
  | true =>
    cases hdow : c.dowRestricted with
    | false =>
      refine .inl ?_
      intro n hm hd
      rw [hm, hd]
      simp [hdom, hdow] at hday
      simp [hmonth, hday.1, hdows hdow n]
    | true =>
      simp only [hdom, hdow, and_self, if_true] at hday
      cases hday with
      | inl hd =>
        refine .inl ?_
        intro n hm hd'
        rw [hm, hd']
        simp [hmonth, hd]
      | inr hw =>
        refine .inr ?_
        intro n hm hw'
        rw [hm, hw']
        simp [hmonth, hw]

theorem exists_weekday (y : Int) (hy : 1970 ≤ y) {m : Nat} (hpos : 1 ≤ m) (hle : m ≤ 12) {w : Nat} (hw : w < 7)
    : ∃ n, (onDay n).year = y ∧ (onDay n).month = m ∧ ¬(onDay n).IsLeapDay ∧ (n + 4) % 7 = w := by
  obtain ⟨first, hfirst, hnumber⟩ := @exists_onDay (early y m 0 hpos hle (by decide)) hy
  obtain ⟨k, hk, hweekday⟩ : ∃ k < 7, (first + k + 4) % 7 = w := ⟨(w + 7 - (first + 4) % 7) % 7, by omega, by omega⟩
  have hday : early y m k hpos hle (by omega) = onDay (first + k) := by
    apply eq_onDay
    simp only [dayNumber, early] at hnumber ⊢
    omega
  refine ⟨first + k, ?_⟩
  rw [← hday]
  refine ⟨rfl, rfl, ?_, hweekday⟩
  rintro ⟨-, h29⟩
  simp only [early] at h29
  omega

theorem upcoming_of_other (hopen : Open c) {ms : Nat} (hfires : Fires c ms) (hother : ¬(dateAt ms).IsLeapDay)
    (afterMs : Nat) : ∃ m, Upcoming c afterMs m := by
  have hy : 1970 ≤ (dateAt afterMs).year + 1 := by
    have := year_onDay (afterMs / 86400000)
    unfold dateAt
    omega
  obtain ⟨n, hyear, hday⟩ : ∃ n, (onDay n).year = (dateAt afterMs).year + 1 ∧ DayFires c n := by
    cases dayFires_cases hopen hfires.dayFires with
    | inl hdom =>
      obtain ⟨n, hn, -⟩ := @exists_onDay ((dateAt ms).inYear hother ((dateAt afterMs).year + 1)) hy
      exact ⟨n, by rw [hn]; rfl, hdom n (by rw [hn]; rfl) (by rw [hn]; rfl)⟩
    | inr hdow =>
      obtain ⟨n, hyear, hmonth, -, hweekday⟩ := exists_weekday _ hy (dateAt ms).month_pos (dateAt ms).month_le
        (Nat.mod_lt (ms / 86400000 + 4) (by decide : 0 < 7))
      exact ⟨n, hyear, hdow n hmonth hweekday⟩
  have hlt := lt_of_year_succ hyear
  have hle := le_of_year_succ hyear
  unfold dateAt at hlt hle
  rw [dayNumber_onDay, dayNumber_onDay] at hlt hle
  have hinstant : Fires c (instant n (hourAt ms) (minuteAt ms)) :=
    fires_instant hday (hourAt_lt ms) (minuteAt_lt ms) hfires.hour hfires.minute
  exact ⟨_, upcoming_instant hinstant (hourAt_lt ms) (minuteAt_lt ms) (lt_instant (by omega) _ _) (by omega)⟩

theorem LeapDayOnly.dayFires (hopen : Open c) (h : LeapDayOnly c) {ms : Nat} (hfires : Fires c ms) {n : Nat}
    (hn : (onDay n).IsLeapDay) : DayFires c n := by
  have hleap : (onDay (ms / 86400000)).IsLeapDay := h ms hfires
  cases dayFires_cases hopen hfires.dayFires with
  | inl hdom => exact hdom n (hn.1.trans hleap.1.symm) (hn.2.trans hleap.2.symm)
  | inr hdow =>
    obtain ⟨n', -, hmonth, hother, hweekday⟩ := exists_weekday 1970 (by decide) (dateAt ms).month_pos
      (dateAt ms).month_le (Nat.mod_lt (ms / 86400000 + 4) (by decide : 0 < 7))
    have hinstant := fires_instant (hdow n' hmonth hweekday) (hourAt_lt ms) (minuteAt_lt ms) hfires.hour hfires.minute
    have hdate := h _ hinstant
    rw [dateAt_instant (hourAt_lt ms) (minuteAt_lt ms)] at hdate
    exact absurd hdate hother

theorem yearStart_add_four (y : Int) : yearStart (y + 4) ≤ yearStart y + 1461 ∧ yearStart y + 1460 ≤ yearStart (y + 4) := by
  unfold yearStart
  omega

theorem add_eight_le {y y' : Int} (hleap : Leap y) (hleap' : Leap y') (hcentury : ¬Leap (y + 4)) (hlt : y < y')
    : y + 8 ≤ y' := by
  have hne : y' ≠ y + 4 := by
    rintro rfl
    exact hcentury hleap'
  have hfour := hleap.1
  have hfour' := hleap'.1
  omega

/--
After a time at which it fires, an expression has no next time within the lookahead if and only if it is
stranded there.
-/
theorem nextAfter_eq_none_iff_stranded (hopen : Open c) {ms : Nat} (hfires : Fires c ms)
    : c.nextAfter ms = none ↔ Stranded c ms := by
  rw [nextAfter_eq_none_iff hopen]
  have hwhole := instant_of_whole hfires.whole
  constructor
  . intro hnone
    have honly : LeapDayOnly c := by
      intro ms' hfires'
      by_contra hother
      obtain ⟨m, hm⟩ := upcoming_of_other hopen hfires' hother ms
      exact hnone m hm
    refine ⟨honly, ?_, ?_⟩
    . intro hour hhour minute hminute hhours hminutes
      by_contra hlater
      have hinstant := fires_instant hfires.dayFires hhour hminute hhours hminutes
      refine hnone _ (upcoming_instant hinstant hhour hminute ?_ (by omega))
      nth_rewrite 1 [← hwhole]
      unfold instant
      omega
    . intro hleap
      have hy : 1970 ≤ (dateAt ms).year + 4 := by
        have := year_onDay (ms / 86400000)
        unfold dateAt
        omega
      obtain ⟨n, hn, hnumber⟩ := @exists_onDay (leapDay _ hleap) hy
      have hday : (onDay n).IsLeapDay := by
        rw [hn]
        exact ⟨rfl, rfl⟩
      rw [dayNumber_of_isLeapDay ⟨rfl, rfl⟩] at hnumber
      have hms := dayNumber_of_isLeapDay (honly ms hfires)
      have hyears := yearStart_add_four (dateAt ms).year
      have hyear : (leapDay _ hleap).year = (dateAt ms).year + 4 := rfl
      rw [hyear] at hnumber
      have hday' : (dateAt ms).dayNumber = (ms / 86400000 : Nat) := dayNumber_onDay _
      have hinstant := fires_instant (honly.dayFires hopen hfires hday) (hourAt_lt ms) (minuteAt_lt ms)
        hfires.hour hfires.minute
      exact hnone _ (upcoming_instant hinstant (hourAt_lt ms) (minuteAt_lt ms) (lt_instant (by omega) _ _) (by omega))
  . rintro ⟨honly, hlast, hcentury⟩ m ⟨hfires', hlt, hwindow⟩
    have hleap := honly ms hfires
    have hleap' := honly m hfires'
    have hnumber : (dateAt ms).dayNumber = (ms / 86400000 : Nat) := dayNumber_onDay _
    have hnumber' : (dateAt m).dayNumber = (m / 86400000 : Nat) := dayNumber_onDay _
    have hyear := @year_le_of_dayNumber_le (dateAt ms) (dateAt m) (by omega)
    rw [dayNumber_of_isLeapDay hleap] at hnumber
    rw [dayNumber_of_isLeapDay hleap'] at hnumber'
    by_cases heq : (dateAt ms).year = (dateAt m).year
    . have hlater := hlast _ (hourAt_lt m) _ (minuteAt_lt m) hfires'.hour hfires'.minute
      have hwhole' := instant_of_whole hfires'.whole
      rw [heq] at hnumber
      unfold instant at hwhole hwhole'
      omega
    . have height := add_eight_le (leap_of_isLeapDay hleap) (leap_of_isLeapDay hleap') hcentury (by omega)
      have hmono := yearStart_mono height
      have hfour := yearStart_add_four (dateAt ms).year
      have hfour' := yearStart_add_four ((dateAt ms).year + 4)
      have hsum : (dateAt ms).year + 4 + 4 = (dateAt ms).year + 8 := by omega
      rw [hsum] at hfour'
      unfold maxLookaheadMinutes at hwindow
      omega

end Wovyr.Workflow.Cron
