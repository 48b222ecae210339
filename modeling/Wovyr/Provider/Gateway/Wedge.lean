import Mathlib.Data.List.Induction
import Wovyr.Lib.Run
import Wovyr.Provider.Gateway.Ledger

/-!
This module contains when a breaker that is not closed lets a call in again.
-/

namespace Wovyr.Provider.Gateway.State

-- A call that could still report is not there, and the breaker has been open for long enough.
def Unwedged (gw : Gateway) (s : State) (p : Nat) : Prop :=
  (s.lanes p).breaker.status ≠ .closed → (∀ c ∈ s.calls, c.index = p → c.inFlight = false) →
    (s.lanes p).trippedAt + gw.breaker.openDurationMs ≤ s.nowMs →
      ((s.lanes p).breaker.allow gw.breaker s.nowMs).1 = true

def silenced (s : State) (p : Nat) : Move → Nat
  | .succeed k => (s.calls[k]?).elim 0 fun c => if c.index = p then 0 else s.slotsOf c.dispatch p
  | .permanent k => (s.calls[k]?).elim 0 fun c => s.slotsOf c.dispatch p
  | .drop d => s.slotsOf d p
  | _ => 0

-- In no half-open period all the slots are lost.
def Reports (gw : Gateway) (s : State) (move : Move) : Prop :=
  ∀ p, (s.lanes p).breaker.status = .halfOpen →
    (s.lanes p).lost + s.silenced p move < max 1 gw.breaker.halfOpenMaxCalls

structure Accounted (cfg : BreakerConfig) (P : Nat → Prop) (slots : Nat) (l : Lane) : Prop where
  slots : l.breaker.status = .halfOpen → slots + l.lost = l.breaker.halfOpenCalls
  used : l.breaker.status = .halfOpen → 1 ≤ l.breaker.halfOpenCalls
  spare : l.breaker.status = .halfOpen → P l.lost
  cooled : l.breaker.status ≠ .closed → l.breaker.openUntilMs = (l.trippedAt + cfg.openDurationMs) % 2 ^ 64

structure Placed (l : Lane) (c : Call) : Prop where
  past : c.period ≤ l.period
  asleep : c.inFlight = false → c.period = l.period → l.breaker.status ≠ .halfOpen

def Sound (gw : Gateway) (P : Nat → Prop) (s : State) : Prop :=
  Ledger (fun _ => true) (Accounted gw.breaker P) Placed s

variable {gw : Gateway} {P : Nat → Prop} {s : State} {cfg : BreakerConfig} {nowMs : Nat} {l : Lane}

theorem Sound.allow_iff (hs : s.Sound gw P) {p : Nat} (hstatus : (s.lanes p).breaker.status ≠ .closed)
    (hquiet : ∀ c ∈ s.calls, c.index = p → c.inFlight = false)
    (hpast : (s.lanes p).trippedAt + gw.breaker.openDurationMs ≤ s.nowMs)
    : ((s.lanes p).breaker.allow gw.breaker s.nowMs).1 = true
        ↔ ((s.lanes p).breaker.status = .halfOpen → (s.lanes p).lost < max 1 gw.breaker.halfOpenMaxCalls) := by
  obtain ⟨hslots, hused, -, hcooled⟩ := hs.lanes p
  unfold LocalCircuitBreaker.allow
  cases hcase : (s.lanes p).breaker.status with
  | closed => exact absurd hcase hstatus
  | opened =>
    have hle : (s.lanes p).breaker.openUntilMs ≤ s.nowMs := by
      rw [hcooled hstatus]
      exact Nat.le_trans (Nat.mod_le _ _) hpast
    dsimp only
    rw [if_pos hle]
    exact ⟨fun _ => nofun, fun _ => rfl⟩
  | halfOpen =>
    have hnone : countIn (fun _ => true) s.calls p (s.lanes p).period = 0 := by
      rw [countIn_eq_zero]
      rintro c hc rfl hperiod
      exact absurd hcase ((hs.calls c hc).asleep (hquiet c hc rfl) hperiod)
    have hlost := hslots hcase
    have hone := hused hcase
    rw [hnone, Nat.zero_add] at hlost
    dsimp only
    rw [hlost]
    split
    . next hfree => exact ⟨fun _ _ => Nat.lt_of_lt_of_le hfree (Nat.le_max_right _ _), fun _ => rfl⟩
    . next hfull =>
      refine ⟨nofun, fun hspare => ?_⟩
      have hlt := hspare rfl
      omega

theorem Accounted.of_status_ne {slots : Nat} (hne : l.breaker.status ≠ .halfOpen)
    (hcooled : l.breaker.status ≠ .closed →
      l.breaker.openUntilMs = (l.trippedAt + cfg.openDurationMs) % 2 ^ 64)
    : Accounted cfg P slots l :=
  ⟨fun h => absurd h hne, fun h => absurd h hne, fun h => absurd h hne, hcooled⟩

theorem Placed.of_inFlight {c : Call} (hflight : c.inFlight = true) (hpast : c.period ≤ l.period)
    : Placed l c := by
  refine ⟨hpast, fun hasleep => ?_⟩
  rw [hflight] at hasleep
  cases hasleep

theorem inFlight_of_calling {c : Call} (h : c.phase = .calling) : c.inFlight = true := by
  unfold Call.inFlight
  rw [h]
  rfl

theorem inFlight_of_admitted {c : Call} (h : c.phase = .admitted) : c.inFlight = true := by
  unfold Call.inFlight
  rw [h]
  rfl

theorem Accounted.onFailure {slots slots' : Nat} (h : Accounted cfg P slots l)
    : Accounted cfg P slots' (l.onFailure cfg nowMs) := by
  apply Accounted.of_status_ne Lane.onFailure_status_ne
  intro hstatus
  unfold Lane.onFailure at hstatus ⊢
  cases htrips : l.breaker.trips cfg with
  | true =>
    rw [if_pos rfl]
    dsimp only
    rw [Lane.turn_breaker]
    exact (LocalCircuitBreaker.onFailure_of_trips htrips).2
  | false =>
    obtain ⟨heq, huntil, -⟩ := @LocalCircuitBreaker.onFailure_of_not_trips _ nowMs _ htrips
    rw [htrips, if_neg Bool.false_ne_true, Lane.turn_breaker, heq] at hstatus
    rw [if_neg Bool.false_ne_true, Lane.turn_breaker, Lane.turn_trippedAt, huntil]
    exact h.cooled hstatus

section

variable (hs : s.Sound gw P)

include hs

theorem Sound.enter (hzero : P 0) {p : Nat} {call : Call} {t : State} (hindex : call.index = p)
    (hphase : call.phase = .admitted) (hperiod : call.period = l.period)
    (hallows : Lane.Allows gw.breaker s.nowMs (s.lanes p) (true, l))
    (hlanes : t.lanes = Function.update s.lanes p l) (hcalls : t.calls = s.calls ++ [call])
    : t.Sound gw P := by
  have hold : ∀ c ∈ s.calls, c.index = p → Placed (s.lanes p) c := by
    rintro c hc rfl
    exact hs.calls c hc
  have hcount : countIn (fun _ => true) t.calls p l.period
      = countIn (fun _ => true) s.calls p l.period + 1 := by
    rw [hcalls, countIn_snoc, if_pos ⟨rfl, hindex, hperiod⟩]
  have hnew : Placed l call :=
    .of_inFlight (inFlight_of_admitted hphase) (Nat.le_of_eq hperiod)
  have haccounted := hs.lanes p
  apply Ledger.snoc hs hindex hlanes hcalls ?_ hnew
  . intro c hc hindex
    have hplaced := hold c hc hindex
    cases hallows with
    | closed h => exact hplaced
    | trial h hpast =>
      refine ⟨Nat.le_succ_of_le hplaced.past, fun _ heq => ?_⟩
      exact absurd hplaced.past (by rw [heq]; exact Nat.not_succ_le_self _)
    | slot h hfree => exact ⟨hplaced.past, hplaced.asleep⟩
  . rw [hcount]
    cases hallows with
    | closed h => exact .of_status_ne (by rw [h]; nofun) haccounted.cooled
    | trial h hpast =>
      have hfresh := countIn_of_past (q := fun _ => true) (fun c hc heq => (hold c hc heq).past)
        (Nat.lt_succ_self _)
      rw [hfresh]
      refine ⟨fun _ => rfl, fun _ => Nat.le_refl _, fun _ => hzero, fun _ => ?_⟩
      apply haccounted.cooled
      rw [h]
      nofun
    | slot h hfree =>
      refine ⟨fun _ => ?_, fun _ => Nat.le_add_left _ _, haccounted.spare, haccounted.cooled⟩
      have hslots := haccounted.slots h
      dsimp only
      omega

theorem Sound.begins {k : Nat} {c c' : Call} (h : s.calls[k]? = some c) (hindex : c'.index = c.index)
    (hperiod : c'.period = c.period) (hphase : c'.phase = .calling) (own : Bool)
    : (s.begins k c' own).Sound gw P := by
  have hplaced := hs.calls c (Tasks.mem h)
  have haccounted := hs.lanes c.index
  unfold State.begins State.setLane
  rw [hindex]
  apply Ledger.set hs h hindex rfl rfl
  . dsimp only
    rw [countIn_set h hindex hperiod rfl]
    exact ⟨haccounted.slots, haccounted.used, haccounted.spare, haccounted.cooled⟩
  . apply Placed.of_inFlight (inFlight_of_calling hphase)
    rw [hperiod]
    exact hplaced.past
  . intro b hb hindex
    have hplaced := hs.calls b hb
    rw [hindex] at hplaced
    exact ⟨hplaced.past, hplaced.asleep⟩

theorem Sound.finish {d : Nat}
    (hspare : ∀ p, (s.lanes p).breaker.status = .halfOpen → P ((s.lanes p).lost + s.slotsOf d p))
    : (s.finish d).Sound gw P := by
  apply Ledger.finish hs d
  . rintro p ⟨hslots, hused, -, hcooled⟩
    refine ⟨fun hhalf => ?_, hused, hspare p, hcooled⟩
    have hsum := countIn_finish (fun _ => true) s d p (s.lanes p).period
    have heq := hslots hhalf
    unfold Lane.lose slotsOf
    dsimp only
    simp only [Bool.true_and] at hsum
    omega
  . intro p n c hplaced
    exact ⟨hplaced.past, hplaced.asleep⟩

theorem Sound.succeed {k : Nat} {c : Call} (h : s.calls[k]? = some c)
    (hspare : ∀ p, p ≠ c.index → (s.lanes p).breaker.status = .halfOpen →
      P ((s.lanes p).lost + s.slotsOf c.dispatch p))
    : (s.succeed k c).Sound gw P := by
  have hclosed := Lane.onSuccess_status (l := s.lanes c.index)
  have hne : (s.lanes c.index).onSuccess.breaker.status ≠ .halfOpen := by
    rw [hclosed]
    nofun
  unfold State.succeed State.setLane
  apply Sound.finish
  . apply Ledger.erase hs h rfl rfl
    . exact .of_status_ne hne fun hopen => absurd hclosed hopen
    . intro b hb hindex
      have hpast := (hs.calls b hb).past
      rw [hindex] at hpast
      exact ⟨Nat.le_trans hpast Lane.le_onSuccess_period, fun _ _ => hne⟩
  . intro p hhalf
    dsimp only at hhalf ⊢
    by_cases hp : p = c.index
    . subst hp
      rw [Function.update_self] at hhalf
      exact absurd hhalf hne
    . rw [Function.update_of_ne hp] at hhalf ⊢
      have hcount : ({ s with
          calls := s.calls.eraseIdx k
          lanes := Function.update s.lanes c.index (s.lanes c.index).onSuccess }).slotsOf c.dispatch p
            = s.slotsOf c.dispatch p := by
        unfold slotsOf
        dsimp only
        rw [Function.update_of_ne hp]
        apply Tasks.countP_eraseIdx h
        rw [beq_false_of_ne (Ne.symm hp), Bool.false_and, Bool.and_false]
      rw [hcount]
      exact hspare p hp hhalf

omit hs in
theorem Placed.onFailure {c : Call} (h : c.period ≤ l.period) : Placed (l.onFailure cfg nowMs) c :=
  ⟨Nat.le_trans h Lane.le_onFailure_period, fun _ _ => Lane.onFailure_status_ne⟩

theorem Sound.onFailure {k : Nat} {c c' : Call} {t : State} (h : s.calls[k]? = some c)
    (hindex : c'.index = c.index) (hperiod : c'.period = c.period)
    (hlanes : t.lanes = Function.update s.lanes c.index ((s.lanes c.index).onFailure gw.breaker s.nowMs))
    (hcalls : t.calls = s.calls.set k c' ∨ t.calls = s.calls.eraseIdx k) : t.Sound gw P := by
  have hplaced {b : Call} (hb : b ∈ s.calls) (heq : b.index = c.index)
      : b.period ≤ (s.lanes c.index).period := by
    rw [← heq]
    exact (hs.calls b hb).past
  rcases hcalls with hset | herase
  . apply Ledger.set hs h hindex hlanes hset (hs.lanes c.index).onFailure
    . apply Placed.onFailure
      rw [hperiod]
      exact hplaced (Tasks.mem h) rfl
    . exact fun b hb heq => .onFailure (hplaced hb heq)
  . apply Ledger.erase hs h hlanes herase (hs.lanes c.index).onFailure
    exact fun b hb heq => .onFailure (hplaced hb heq)

end

end State

open State

variable {gw : Gateway} {P : Nat → Prop} {s : State}

theorem sound_step (hs : s.Sound gw P) (hzero : P 0) {move : Move}
    (hreports : ∀ p, (s.lanes p).breaker.status = .halfOpen → P ((s.lanes p).lost + s.silenced p move))
    : (gw.step s move).Sound gw P := by
  have hsteps : Steps gw s move (gw.step s move) := steps_step move
  generalize gw.step s move = t at hsteps ⊢
  cases hsteps with
  | idle hlanes hcalls => exact hs.of_eq hlanes hcalls
  | @enter _ x _ _ _ _ _ hallow hindex hphase hperiod hlanes hcalls =>
    have hallows : Lane.Allows gw.breaker s.nowMs (s.lanes x.next)
        ((s.lanes x.next).allow gw.breaker s.nowMs) := Lane.allows_allow
    rw [hallow] at hallows
    exact hs.enter hzero hindex hphase hperiod hallows hlanes hcalls
  | start h hphase =>
    apply hs.begins h
    . rfl
    . rfl
    . rfl
  | wake h hphase =>
    apply hs.begins h
    . rfl
    . rfl
    . rfl
  | succeed h hphase =>
    apply hs.succeed h
    intro p hp hhalf
    have hspare := hreports p hhalf
    unfold silenced at hspare
    dsimp only at hspare
    rw [h, Option.elim_some, if_neg (Ne.symm hp)] at hspare
    exact hspare
  | again h hlanes hcalls =>
    apply hs.onFailure h ?_ ?_ hlanes (Or.inl hcalls)
    . rfl
    . rfl
  | failed h hlanes hcalls => exact hs.onFailure h rfl rfl hlanes (Or.inr hcalls)
  | permanent h hphase =>
    apply hs.finish
    intro p hhalf
    have hspare := hreports p hhalf
    unfold silenced at hspare
    dsimp only at hspare
    rw [h, Option.elim_some] at hspare
    exact hspare
  | exhausted h =>
    apply hs.finish
    intro p hhalf
    rw [slotsOf_of_inflight h]
    exact (hs.lanes p).spare hhalf
  | drop d => exact hs.finish hreports

theorem sound_init : State.Sound gw P {} := by
  constructor
  . intro p
    exact .of_status_ne nofun fun hopen => absurd rfl hopen
  . intro c hc
    cases hc

theorem sound_of_run {moves : List Move}
    (h : Run (Guarded (fun s move => s.Reports gw move) gw.step) {} moves s)
    : s.Sound gw fun lost => lost < max 1 gw.breaker.halfOpenMaxCalls := by
  apply Run.invariant (P := fun s => s.Sound gw fun lost => lost < max 1 gw.breaker.halfOpenMaxCalls) ?_ h
    sound_init
  rintro s move t hs ⟨hreports, rfl⟩
  exact sound_step hs (Nat.lt_of_lt_of_le Nat.zero_lt_one (Nat.le_max_left _ _)) hreports

-- As long as no half-open period loses all its slots, a breaker that is not closed lets the next call
-- in when it was open for long enough and no call is left that could report to it.
theorem unwedged_of_run {moves : List Move}
    (h : Run (Guarded (fun s move => s.Reports gw move) gw.step) {} moves s) (p : Nat)
    : s.Unwedged gw p := by
  have hsound := sound_of_run h
  intro hstatus hquiet hpast
  rw [hsound.allow_iff hstatus hquiet hpast]
  exact (hsound.lanes p).spare

def Move.isQuiet : Move → Bool
  | .succeed _ | .permanent _ | .drop _ => false
  | _ => true

theorem silenced_of_isQuiet {move : Move} (h : move.isQuiet = true) (p : Nat) : s.silenced p move = 0 := by
  cases move with
  | succeed | permanent | drop => cases h
  | tick | chat | chatStream | consider | hedge | start | wake | transient => rfl

theorem run_of_isQuiet {moves : List Move} (h : moves.all Move.isQuiet = true)
    : Run (Guarded (fun s move => s.Reports gw move) gw.step) {} moves (gw.after moves) := by
  induction moves using List.reverseRecOn with
  | nil => exact .nil _
  | append_singleton moves move ih =>
    rw [List.all_append, Bool.and_eq_true, List.all_cons, Bool.and_eq_true] at h
    have hrun := ih h.1
    apply hrun.snoc
    refine ⟨fun p hhalf => ?_, ?_⟩
    . rw [silenced_of_isQuiet h.2.1]
      exact ((sound_of_run hrun).lanes p).spare hhalf
    . unfold after
      rw [List.foldl_append]
      rfl

def trial : List Move :=
  [.chat 0, .consider 0, .start 0, .transient 0 none 0, .consider 0, .tick 15000,
    .chat 1, .consider 1, .start 0]

theorem unwedged_second_slot
    : (((oneProvider 2).after (trial ++ [.permanent 0])).lanes 0).breaker.status = .halfOpen
      ∧ ((oneProvider 2).after (trial ++ [.permanent 0])).Unwedged (oneProvider 2) 0 := by
  refine ⟨by decide, ?_⟩
  suffices hrun : Run (Guarded (fun s move => s.Reports (oneProvider 2) move) (oneProvider 2).step) {}
      (trial ++ [.permanent 0]) _ from unwedged_of_run hrun 0
  apply (run_of_isQuiet (by decide)).snoc
  refine ⟨fun p hhalf => ?_, rfl⟩
  cases p with
  | zero => decide
  | succ p =>
    have hclosed : (((oneProvider 2).after trial).lanes (p + 1)).breaker.status = .closed := rfl
    rw [hclosed] at hhalf
    cases hhalf

theorem not_unwedged_badTrial
    : ¬((oneProvider 1).after (trial ++ [.permanent 0])).Unwedged (oneProvider 1) 0 := by
  intro h
  have hdenied : ((((oneProvider 1).after (trial ++ [.permanent 0])).lanes 0).breaker.allow
      (oneProvider 1).breaker ((oneProvider 1).after (trial ++ [.permanent 0])).nowMs).1 = false := by
    decide
  rw [h (by decide) (by decide) (by decide)] at hdenied
  cases hdenied

end Wovyr.Provider.Gateway
