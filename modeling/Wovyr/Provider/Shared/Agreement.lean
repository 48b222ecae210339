import Wovyr.Lib.Run
import Wovyr.Provider.Shared

/-!
This module contains that one gateway gets the same answers from a shared breaker as from its own.
-/

namespace Wovyr.Provider.InMemoryKv

def value (kv : Kv) (key : String) : Option Int :=
  (Kv.get? none kv key).map Prod.fst

theorem isLive_none (e : Int × Option Nat) : Kv.isLive none e = true := rfl

@[simp]
theorem value_insert (kv : Kv) (key key' : String) (e : Int × Option Nat)
    : value (kv.insert key e) key' = if key = key' then some e.1 else value kv key' := by
  unfold value
  rw [Kv.get?_insert]
  split
  . rw [Option.filter_some, if_pos (isLive_none e)]
    rfl
  . rfl

@[simp]
theorem value_erase (kv : Kv) (key key' : String)
    : value (kv.erase key) key' = if key = key' then none else value kv key' := by
  unfold value
  rw [Kv.get?_erase]
  split
  . rfl
  . rfl

theorem exec_incr (kv : Kv) (key : String) (ttlMs : Nat)
    : ∃ deadline, exec (.incr key ttlMs) kv
        = (.ok (Int.bmod ((value kv key).getD 0 + 1) (2 ^ 64)),
            kv.insert key (Int.bmod ((value kv key).getD 0 + 1) (2 ^ 64), deadline)) := by
  refine ⟨((Kv.get? none kv key).getD (0, none)).2, ?_⟩
  unfold exec Kv.exec value
  dsimp only
  cases Kv.get? none kv key with
  | none => rfl
  | some e => rfl

theorem exec_getI64 (kv : Kv) (key : String) : exec (.getI64 key) kv = (.ok (value kv key), kv) := rfl

end InMemoryKv

open InMemoryKv InMemoryKv

theorem bmod_succ {n : Nat} (h : n < 2 ^ 32) : Int.bmod ((n : Int) + 1) (2 ^ 64) = ((n + 1 : Nat) : Int) := by
  rw [Int.bmod_eq_of_le]
  . omega
  . omega
  . omega

namespace SharedCircuitBreaker

inductive Op where
  | allow (nowMs : Nat)
  | onSuccess
  | onFailure (nowMs : Nat)

structure Both where
  own : LocalCircuitBreaker := {}
  kv : Kv := ∅
  nowMs : Nat := 0
  failures : Nat := 0
  answers : List (Bool × Bool) := []

namespace Both

def step (b : SharedCircuitBreaker) (s : Both) : Op → Both
  | .allow nowMs =>
    let (allowed, own) := s.own.allow b.cfg nowMs
    let (allowed', kv) := (b.allow nowMs).run exec s.kv
    { s with own, kv, nowMs, answers := s.answers ++ [(allowed, allowed')] }
  | .onSuccess =>
    { s with own := s.own.onSuccess, kv := (b.onSuccess.run exec s.kv).2 }
  | .onFailure nowMs =>
    { s with
      own := s.own.onFailure b.cfg nowMs
      kv := ((b.onFailure nowMs).run exec s.kv).2
      nowMs
      failures := s.failures + 1 }

-- The clock does not go back, and there are not too many failures.
def InOrder (s : Both) : Op → Prop
  | .allow nowMs => s.nowMs ≤ nowMs ∧ nowMs < 2 ^ 62
  | .onSuccess => True
  | .onFailure nowMs => s.nowMs ≤ nowMs ∧ nowMs < 2 ^ 62 ∧ s.failures + 1 < 2 ^ 31

-- The calls that ask during a half-open period are counted with 32 bits.
def Counts (b : SharedCircuitBreaker) (s : Both) : Op → Prop
  | .allow _ => ∀ n ∈ value s.kv b.kHalf, n + 1 < 2 ^ 32
  | _ => True

instance (s : Both) : DecidablePred s.InOrder
  | .allow nowMs => inferInstanceAs (Decidable (s.nowMs ≤ nowMs ∧ nowMs < 2 ^ 62))
  | .onSuccess => inferInstanceAs (Decidable True)
  | .onFailure nowMs =>
    inferInstanceAs (Decidable (s.nowMs ≤ nowMs ∧ nowMs < 2 ^ 62 ∧ s.failures + 1 < 2 ^ 31))

instance (b : SharedCircuitBreaker) (s : Both) : DecidablePred (s.Counts b)
  | .allow _ => inferInstanceAs (Decidable (∀ n ∈ value s.kv b.kHalf, n + 1 < 2 ^ 32))
  | .onSuccess => inferInstanceAs (Decidable True)
  | .onFailure _ => inferInstanceAs (Decidable True)

inductive Mirrors (b : SharedCircuitBreaker) (own : LocalCircuitBreaker) (kv : Kv) (nowMs : Nat) : Prop where
  | closed (h : own.status = .closed) (hopen : value kv b.kOpen = none) (hhalf : value kv b.kHalf = none)
  | opened (h : own.status = .opened) (hopen : value kv b.kOpen = some (asI64 own.openUntilMs))
    (hhalf : value kv b.kHalf = none) (hfails : b.cfg.failureThreshold ≤ own.consecutiveFailures)
  | halfOpen (h : own.status = .halfOpen) (hopen : value kv b.kOpen = some (asI64 own.openUntilMs))
    (hpast : own.openUntilMs ≤ nowMs) (n : Nat) (hhalf : value kv b.kHalf = some (n : Int))
    (hcalls : own.halfOpenCalls = min n b.cfg.halfOpenMaxCalls) (hone : 1 ≤ n)
    (hfails : b.cfg.failureThreshold ≤ own.consecutiveFailures)

structure Agrees (b : SharedCircuitBreaker) (s : Both) : Prop where
  fails : (value s.kv b.kFails).getD 0 = (s.own.consecutiveFailures : Int)
  few : s.own.consecutiveFailures ≤ s.failures
  below : s.failures < 2 ^ 31
  cooling : s.own.openUntilMs < 2 ^ 64
  mirrors : Mirrors b s.own s.kv s.nowMs
  answers : ∀ a ∈ s.answers, a.1 = a.2

variable {b : SharedCircuitBreaker} {s : Both} {own : LocalCircuitBreaker} {kv : Kv} {nowMs : Nat}

theorem tryHalfOpen_run {n : Nat} (hhalf : (value kv b.kHalf).getD 0 = (n : Int)) (hn : n + 1 < 2 ^ 32)
    : ∃ kv', b.tryHalfOpen.run exec kv = (decide (n + 1 ≤ b.cfg.halfOpenMaxCalls), kv')
        ∧ value kv' b.kHalf = some ((n + 1 : Nat) : Int)
        ∧ ∀ key, key ≠ b.kHalf → value kv' key = value kv key := by
  obtain ⟨deadline, hexec⟩ := exec_incr kv b.kHalf b.cfg.openDurationMs
  unfold tryHalfOpen
  rw [Client.run_call, hexec, hhalf, bmod_succ (by omega)]
  dsimp only
  rw [Client.run_done, asU32_natCast hn]
  refine ⟨_, rfl, ?_, fun key hne => ?_⟩
  . rw [value_insert, if_pos rfl]
  . rw [value_insert, if_neg (Ne.symm hne)]

theorem allow_run (kv : Kv)
    : (b.allow nowMs).run exec kv
        = match value kv b.kOpen with
          | none => (true, kv)
          | some openUntil =>
            if nowMs < asU64 openUntil then (false, kv) else b.tryHalfOpen.run exec kv := by
  unfold SharedCircuitBreaker.allow
  rw [Client.run_call, exec_getI64]
  dsimp only
  cases value kv b.kOpen with
  | none => rfl
  | some openUntil =>
    dsimp only
    split
    . rfl
    . rfl

theorem step_allow
    : s.step b (.allow nowMs) = { s with
        own := (s.own.allow b.cfg nowMs).2
        kv := ((b.allow nowMs).run exec s.kv).2
        nowMs := nowMs
        answers := s.answers ++
          [((s.own.allow b.cfg nowMs).1, ((b.allow nowMs).run exec s.kv).1)] } := rfl

theorem Agrees.allow (hs : s.Agrees b) (hpos : 1 ≤ b.cfg.halfOpenMaxCalls) (hclock : s.nowMs ≤ nowMs)
    (hcounts : ∀ n ∈ value s.kv b.kHalf, n + 1 < 2 ^ 32) : (s.step b (.allow nowMs)).Agrees b := by
  obtain ⟨hfails, hfew, hbelow, hcooling, hmirrors, hanswers⟩ := hs
  rw [step_allow, allow_run]
  unfold LocalCircuitBreaker.allow
  cases hmirrors with
  | closed h hopen hhalf =>
    rw [h, hopen]
    exact ⟨hfails, hfew, hbelow, hcooling, .closed h hopen hhalf, forall_mem_snoc hanswers rfl⟩
  | opened h hopen hhalf hthreshold =>
    rw [h, hopen]
    dsimp only
    rw [asU64_asI64 hcooling]
    by_cases hpast : s.own.openUntilMs ≤ nowMs
    . obtain ⟨kv', hrun, hhalf', hframe⟩ := @tryHalfOpen_run b s.kv 0
        (by rw [hhalf]; rfl) (by omega)
      rw [if_pos hpast, if_neg (Nat.not_lt.mpr hpast), hrun]
      dsimp only
      refine ⟨?_, hfew, hbelow, hcooling, ?_, ?_⟩
      . rw [hframe _ b.kFails_ne_kHalf]
        exact hfails
      . refine .halfOpen rfl ?_ hpast 1 hhalf' ?_ (Nat.le_refl 1) hthreshold
        . rw [hframe _ b.kOpen_ne_kHalf]
          exact hopen
        . exact (Nat.min_eq_left hpos).symm
      . apply forall_mem_snoc hanswers
        exact (decide_eq_true hpos).symm
    . rw [if_neg hpast, if_pos (Nat.lt_of_not_le hpast)]
      exact ⟨hfails, hfew, hbelow, hcooling, .opened h hopen hhalf hthreshold,
        forall_mem_snoc hanswers rfl⟩
  | halfOpen h hopen hpast n hhalf hcalls hone hthreshold =>
    have hpast' : s.own.openUntilMs ≤ nowMs := Nat.le_trans hpast hclock
    have hn : n + 1 < 2 ^ 32 := by
      have hlt := hcounts n hhalf
      omega
    obtain ⟨kv', hrun, hhalf', hframe⟩ := @tryHalfOpen_run b s.kv n
      (by rw [hhalf]; rfl) hn
    have hfails' : (value kv' b.kFails).getD 0 = (s.own.consecutiveFailures : Int) := by
      rw [hframe _ b.kFails_ne_kHalf]
      exact hfails
    have hopen' : value kv' b.kOpen = some (asI64 s.own.openUntilMs) := by
      rw [hframe _ b.kOpen_ne_kHalf]
      exact hopen
    rw [h, hopen]
    dsimp only
    rw [asU64_asI64 hcooling, if_neg (Nat.not_lt.mpr hpast'), hrun, hcalls]
    by_cases hfree : n + 1 ≤ b.cfg.halfOpenMaxCalls
    . rw [if_pos (by omega)]
      refine ⟨hfails', hfew, hbelow, hcooling, ?_, ?_⟩
      . refine .halfOpen rfl hopen' hpast' (n + 1) hhalf' ?_ (Nat.le_add_left _ _) hthreshold
        dsimp only
        omega
      . apply forall_mem_snoc hanswers
        exact (decide_eq_true hfree).symm
    . rw [if_neg (by omega)]
      refine ⟨hfails', hfew, hbelow, hcooling, ?_, ?_⟩
      . refine .halfOpen h hopen' hpast' (n + 1) hhalf' ?_ (Nat.le_add_left _ _) hthreshold
        dsimp only
        omega
      . apply forall_mem_snoc hanswers
        exact (decide_eq_false hfree).symm

theorem Agrees.onSuccess (hs : s.Agrees b) : (s.step b .onSuccess).Agrees b := by
  unfold Both.step SharedCircuitBreaker.onSuccess
  refine ⟨?_, Nat.zero_le _, hs.below, hs.cooling, .closed rfl ?_ ?_, hs.answers⟩
  . simp [exec, Kv.exec, LocalCircuitBreaker.onSuccess]
  . simp [exec, Kv.exec]
  . simp [exec, Kv.exec]

theorem Mirrors.trips {n : Nat} (h : Mirrors b own kv nowMs) (hfailed : own.failed = n)
    (hmore : own.consecutiveFailures ≤ n) (nowMs' : Nat)
    : (b.inHalfOpen nowMs' (.ok (value kv b.kOpen)) || decide (b.cfg.failureThreshold ≤ n))
        = own.trips b.cfg := by
  unfold LocalCircuitBreaker.trips
  rw [hfailed]
  cases h with
  | closed h hopen hhalf =>
    rw [h, hopen]
    rfl
  | opened h hopen hhalf hthreshold =>
    rw [decide_eq_true (Nat.le_trans hthreshold hmore), Bool.or_true, Bool.or_true]
  | halfOpen h hopen hpast m hhalf hcalls hone hthreshold =>
    rw [decide_eq_true (Nat.le_trans hthreshold hmore), Bool.or_true, Bool.or_true]

theorem trip_run (kv : Kv)
    : ∃ kv', ((b.trip nowMs).run exec kv).2 = kv'
        ∧ value kv' b.kFails = value kv b.kFails
        ∧ value kv' b.kOpen = some (asI64 ((nowMs + b.cfg.openDurationMs) % 2 ^ 64))
        ∧ value kv' b.kHalf = none := by
  refine ⟨_, rfl, ?_, ?_, ?_⟩
  . simp [trip, clearHalf, exec, Kv.exec, (kFails_ne_kHalf b).symm, (kFails_ne_kOpen b).symm]
  . simp [trip, clearHalf, exec, Kv.exec, (kOpen_ne_kHalf b).symm]
  . simp [trip, clearHalf, exec, Kv.exec]

theorem onFailure_run {n : Nat} (hfails : (value kv b.kFails).getD 0 = (n : Int)) (hn : n + 1 < 2 ^ 32)
    : ∃ kv', ((b.onFailure nowMs).run exec kv).2
          = (if b.inHalfOpen nowMs (.ok (value kv b.kOpen)) || decide (b.cfg.failureThreshold ≤ n + 1) then
              ((b.trip nowMs).run exec kv').2
            else
              kv')
        ∧ value kv' b.kFails = some ((n + 1 : Nat) : Int)
        ∧ ∀ key, key ≠ b.kFails → value kv' key = value kv key := by
  obtain ⟨deadline, hexec⟩ := exec_incr kv b.kFails b.failsTtlMs
  have hopen : value (kv.insert b.kFails (((n + 1 : Nat) : Int), deadline)) b.kOpen = value kv b.kOpen := by
    rw [value_insert, if_neg b.kFails_ne_kOpen]
  refine ⟨kv.insert b.kFails (((n + 1 : Nat) : Int), deadline), ?_, ?_, fun key hne => ?_⟩
  . unfold SharedCircuitBreaker.onFailure
    rw [Client.run_call, hexec, hfails, bmod_succ (by omega)]
    dsimp only
    unfold decideTrip
    rw [Client.run_call, exec_getI64, asU32_natCast hn, hopen]
    dsimp only
    split
    . rfl
    . rfl
  . rw [value_insert, if_pos rfl]
  . rw [value_insert, if_neg (Ne.symm hne)]

theorem step_onFailure
    : s.step b (.onFailure nowMs) = { s with
        own := s.own.onFailure b.cfg nowMs
        kv := ((b.onFailure nowMs).run exec s.kv).2
        nowMs := nowMs
        failures := s.failures + 1 } := rfl

theorem Agrees.onFailure (hs : s.Agrees b) (hmore : s.failures + 1 < 2 ^ 31)
    : (s.step b (.onFailure nowMs)).Agrees b := by
  obtain ⟨hfails, hfew, hbelow, hcooling, hmirrors, hanswers⟩ := hs
  have hfailed : s.own.failed = s.own.consecutiveFailures + 1 := by
    unfold LocalCircuitBreaker.failed
    omega
  obtain ⟨kv', hrun, hfails', hframe⟩ := @onFailure_run b s.kv nowMs _ hfails (by omega)
  have htrips := hmirrors.trips hfailed (Nat.le_succ _) nowMs
  rw [step_onFailure, hrun, htrips]
  unfold LocalCircuitBreaker.onFailure
  rw [hfailed]
  cases htripped : s.own.trips b.cfg with
  | true =>
    have hthreshold : b.cfg.failureThreshold ≤ s.own.consecutiveFailures + 1 := by
      rw [htripped, Bool.or_eq_true, decide_eq_true_eq] at htrips
      cases hmirrors with
      | closed h hopen hhalf =>
        rw [hopen] at htrips
        exact htrips.resolve_left Bool.false_ne_true
      | opened h hopen hhalf hthreshold => exact Nat.le_succ_of_le hthreshold
      | halfOpen h hopen hpast n hhalf hcalls hone hthreshold => exact Nat.le_succ_of_le hthreshold
    obtain ⟨kv'', htrip, hkept, hopen, hhalf⟩ := @trip_run b nowMs kv'
    rw [if_pos rfl, if_pos rfl, htrip]
    refine ⟨?_, Nat.succ_le_succ hfew, hmore, Nat.mod_lt _ (by decide), ?_, hanswers⟩
    . rw [hkept, hfails']
      rfl
    . exact .opened rfl hopen hhalf hthreshold
  | false =>
    rw [if_neg Bool.false_ne_true, if_neg Bool.false_ne_true]
    refine ⟨?_, Nat.succ_le_succ hfew, hmore, hcooling, ?_, hanswers⟩
    . rw [hfails']
      rfl
    . rw [htripped, Bool.or_eq_false_iff, decide_eq_false_iff_not] at htrips
      cases hmirrors with
      | closed h hopen hhalf =>
        refine .closed h ?_ ?_
        . rw [hframe _ b.kFails_ne_kOpen.symm]
          exact hopen
        . rw [hframe _ b.kFails_ne_kHalf.symm]
          exact hhalf
      | opened h hopen hhalf hthreshold => exact absurd (Nat.le_succ_of_le hthreshold) htrips.2
      | halfOpen h hopen hpast n hhalf hcalls hone hthreshold =>
        exact absurd (Nat.le_succ_of_le hthreshold) htrips.2

theorem agrees_init : Agrees b {} := by
  refine ⟨?_, Nat.le_refl _, by decide, by decide, .closed rfl ?_ ?_, nofun⟩
  . simp [value, Kv.get?]
  . simp [value, Kv.get?]
  . simp [value, Kv.get?]

theorem agrees_of_run (hpos : 1 ≤ b.cfg.halfOpenMaxCalls) {ops : List Op}
    (h : Run (Guarded (fun s op => s.InOrder op ∧ s.Counts b op) (step b)) {} ops s)
    : ∀ a ∈ s.answers, a.1 = a.2 := by
  have hagrees : s.Agrees b := by
    apply Run.invariant (P := fun s => s.Agrees b) ?_ h agrees_init
    rintro s op t hs ⟨⟨horder, hcounts⟩, rfl⟩
    cases op with
    | allow nowMs => exact hs.allow hpos horder.1 hcounts
    | onSuccess => exact hs.onSuccess
    | onFailure nowMs => exact hs.onFailure horder.2.2
  exact hagrees.answers

end Wovyr.Provider.SharedCircuitBreaker.Both
