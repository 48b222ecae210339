import Mathlib.Algebra.Order.Ring.Int

/-!
This module contains the circuit breaker that a gateway keeps for each provider in its own process, also
with a record of what it has gone through.
-/

namespace Wovyr.Provider

structure BreakerConfig where
  failureThreshold : Nat := 5
  openDurationMs : Nat := 15000
  halfOpenMaxCalls : Nat := 1
  failureThreshold_lt : failureThreshold < 2 ^ 32 := by decide
  openDurationMs_lt : openDurationMs < 2 ^ 64 := by decide
  halfOpenMaxCalls_lt : halfOpenMaxCalls < 2 ^ 32 := by decide

abbrev BreakerConfig.standard : BreakerConfig := {}

abbrev BreakerConfig.strict : BreakerConfig := { failureThreshold := 1 }

inductive BreakerStatus where
  | closed
  | opened
  | halfOpen
deriving DecidableEq

structure LocalCircuitBreaker where
  status : BreakerStatus := .closed
  consecutiveFailures : Nat := 0
  openUntilMs : Nat := 0
  halfOpenCalls : Nat := 0

namespace LocalCircuitBreaker

variable (cfg : BreakerConfig) (nowMs : Nat) (b : LocalCircuitBreaker)

def allow : Bool × LocalCircuitBreaker :=
  match b.status with
  | .closed => (true, b)
  | .opened =>
    if b.openUntilMs ≤ nowMs then
      (true, { b with status := .halfOpen, halfOpenCalls := 1 })
    else
      (false, b)
  | .halfOpen =>
    if b.halfOpenCalls < cfg.halfOpenMaxCalls then
      (true, { b with halfOpenCalls := b.halfOpenCalls + 1 })
    else
      (false, b)

def onSuccess : LocalCircuitBreaker :=
  { b with status := .closed, consecutiveFailures := 0, halfOpenCalls := 0 }

-- The sums are of the width that the fields have.
def failed : Nat :=
  (b.consecutiveFailures + 1) % 2 ^ 32

def trips : Bool :=
  b.status == .halfOpen || decide (cfg.failureThreshold ≤ b.failed)

def onFailure : LocalCircuitBreaker :=
  if b.trips cfg then
    { status := .opened
      consecutiveFailures := b.failed
      openUntilMs := (nowMs + cfg.openDurationMs) % 2 ^ 64
      halfOpenCalls := 0 }
  else
    { b with consecutiveFailures := b.failed }

theorem allow_cases
    : b.allow cfg nowMs = (false, b)
      ∨ (b.status = .closed ∧ b.allow cfg nowMs = (true, b))
      ∨ (b.status = .opened ∧ b.openUntilMs ≤ nowMs
          ∧ b.allow cfg nowMs = (true, { b with status := .halfOpen, halfOpenCalls := 1 }))
      ∨ (b.status = .halfOpen ∧ b.halfOpenCalls < cfg.halfOpenMaxCalls
          ∧ b.allow cfg nowMs = (true, { b with halfOpenCalls := b.halfOpenCalls + 1 })) := by
  unfold allow
  cases hstatus : b.status with
  | closed => exact Or.inr (Or.inl ⟨rfl, rfl⟩)
  | opened =>
    dsimp only
    split
    . next hpast => exact Or.inr (Or.inr (Or.inl ⟨rfl, hpast, rfl⟩))
    . exact Or.inl rfl
  | halfOpen =>
    dsimp only
    split
    . next hfree => exact Or.inr (Or.inr (Or.inr ⟨rfl, hfree, rfl⟩))
    . exact Or.inl rfl

variable {cfg nowMs b}

theorem onFailure_of_trips (h : b.trips cfg = true)
    : (b.onFailure cfg nowMs).status = .opened
      ∧ (b.onFailure cfg nowMs).openUntilMs = (nowMs + cfg.openDurationMs) % 2 ^ 64 := by
  unfold onFailure
  rw [if_pos h]
  exact ⟨rfl, rfl⟩

theorem onFailure_of_not_trips (h : b.trips cfg = false)
    : (b.onFailure cfg nowMs).status = b.status
      ∧ (b.onFailure cfg nowMs).openUntilMs = b.openUntilMs ∧ b.status ≠ .halfOpen := by
  unfold onFailure
  rw [if_neg (by rw [h]; exact Bool.false_ne_true)]
  refine ⟨rfl, rfl, ?_⟩
  intro hhalf
  unfold trips at h
  rw [hhalf] at h
  cases h

end LocalCircuitBreaker

structure Lane where
  breaker : LocalCircuitBreaker := {}
  -- How often the status of the breaker changed.
  period : Nat := 0
  trippedAt : Nat := 0
  -- Calls let in during this period that ended and were not reported.
  lost : Nat := 0
  -- Calls that started in this period and were not let in during it.
  extra : Nat := 0
  -- Calls that started since the breaker stopped being open, up to the next change.
  started : Option Nat := none
  -- A call started in the time for which the breaker is open.
  hammered : Bool := false

namespace Lane

variable (cfg : BreakerConfig) (nowMs : Nat) (l : Lane)

def turn (b : LocalCircuitBreaker) : Lane :=
  if b.status = l.breaker.status then
    { l with breaker := b }
  else
    { l with
      breaker := b
      period := l.period + 1
      lost := 0
      extra := 0
      started := if l.breaker.status = .opened then some 0 else none }

def allow : Bool × Lane :=
  let (allowed, b) := l.breaker.allow cfg nowMs
  (allowed, l.turn b)

def onSuccess : Lane :=
  l.turn l.breaker.onSuccess

def onFailure : Lane :=
  let l' := l.turn (l.breaker.onFailure cfg nowMs)
  if l.breaker.trips cfg then { l' with trippedAt := nowMs } else l'

-- A call that was let in during this period has a slot of its own.
def start (own : Bool) : Lane :=
  { l with
    extra := if own then l.extra else l.extra + 1
    started := l.started.map (· + 1)
    hammered := l.hammered || (l.breaker.status == .opened && decide (nowMs < l.breaker.openUntilMs)) }

def lose (n : Nat) : Lane :=
  { l with lost := l.lost + n }

variable {cfg nowMs l} {b : LocalCircuitBreaker}

theorem turn_of_eq (h : b.status = l.breaker.status) : l.turn b = { l with breaker := b } := by
  unfold turn
  rw [if_pos h]

theorem turn_of_ne (h : b.status ≠ l.breaker.status)
    : l.turn b = { l with
        breaker := b
        period := l.period + 1
        lost := 0
        extra := 0
        started := if l.breaker.status = .opened then some 0 else none } := by
  unfold turn
  rw [if_neg h]

@[simp]
theorem turn_breaker : (l.turn b).breaker = b := by
  unfold turn
  split
  . rfl
  . rfl

@[simp]
theorem turn_trippedAt : (l.turn b).trippedAt = l.trippedAt := by
  unfold turn
  split
  . rfl
  . rfl

@[simp]
theorem turn_hammered : (l.turn b).hammered = l.hammered := by
  unfold turn
  split
  . rfl
  . rfl

theorem turn_self : l.turn l.breaker = l :=
  turn_of_eq rfl

theorem le_turn_period : l.period ≤ (l.turn b).period := by
  unfold turn
  split
  . exact Nat.le_refl _
  . exact Nat.le_succ _

inductive Allows (cfg : BreakerConfig) (nowMs : Nat) (l : Lane) : Bool × Lane → Prop where
  | denied : Allows cfg nowMs l (false, l)
  | closed (h : l.breaker.status = .closed) : Allows cfg nowMs l (true, l)
  | trial (h : l.breaker.status = .opened) (hpast : l.breaker.openUntilMs ≤ nowMs) :
    Allows cfg nowMs l (true, { l with
      breaker := { l.breaker with status := .halfOpen, halfOpenCalls := 1 }
      period := l.period + 1
      lost := 0
      extra := 0
      started := some 0 })
  | slot (h : l.breaker.status = .halfOpen) (hfree : l.breaker.halfOpenCalls < cfg.halfOpenMaxCalls) :
    Allows cfg nowMs l (true, { l with
      breaker := { l.breaker with halfOpenCalls := l.breaker.halfOpenCalls + 1 } })

theorem allows_allow : Allows cfg nowMs l (l.allow cfg nowMs) := by
  unfold allow
  rcases l.breaker.allow_cases cfg nowMs with heq | ⟨h, heq⟩ | ⟨h, hpast, heq⟩ | ⟨h, hfree, heq⟩
  . rw [heq]
    dsimp only
    rw [turn_self]
    exact .denied
  . rw [heq]
    dsimp only
    rw [turn_self]
    exact .closed h
  . rw [heq]
    dsimp only
    rw [turn_of_ne (by rw [h]; nofun), if_pos h]
    exact .trial h hpast
  . rw [heq]
    have hturn : l.turn { l.breaker with halfOpenCalls := l.breaker.halfOpenCalls + 1 }
        = { l with breaker := { l.breaker with halfOpenCalls := l.breaker.halfOpenCalls + 1 } } :=
      turn_of_eq rfl
    dsimp only
    rw [hturn]
    exact .slot h hfree

theorem allow_fst : (l.allow cfg nowMs).1 = (l.breaker.allow cfg nowMs).1 := rfl

theorem onSuccess_status : l.onSuccess.breaker.status = .closed := by
  unfold onSuccess
  rw [turn_breaker]
  rfl

theorem le_onSuccess_period : l.period ≤ l.onSuccess.period :=
  le_turn_period

theorem onFailure_breaker : (l.onFailure cfg nowMs).breaker = l.breaker.onFailure cfg nowMs := by
  unfold onFailure
  split
  . exact turn_breaker
  . exact turn_breaker

theorem le_onFailure_period : l.period ≤ (l.onFailure cfg nowMs).period := by
  unfold onFailure
  split
  . exact le_turn_period
  . exact le_turn_period

theorem onFailure_status_ne : (l.onFailure cfg nowMs).breaker.status ≠ .halfOpen := by
  rw [onFailure_breaker]
  cases htrips : l.breaker.trips cfg with
  | true =>
    rw [(LocalCircuitBreaker.onFailure_of_trips htrips).1]
    decide
  | false =>
    obtain ⟨hstatus, -, hne⟩ := @LocalCircuitBreaker.onFailure_of_not_trips _ nowMs _ htrips
    rw [hstatus]
    exact hne

end Wovyr.Provider.Lane
