import Wovyr.Lib.Run
import Wovyr.Provider.Gateway.Ledger

/-!
This module contains what an open breaker keeps away from its provider.
-/

namespace Wovyr.Provider.Lane

-- What the breaker would answer if it had counted each call that started.
def wouldAllow (cfg : BreakerConfig) (nowMs : Nat) (l : Lane) : Bool :=
  ({ l.breaker with halfOpenCalls := l.breaker.halfOpenCalls + l.extra }.allow cfg nowMs).1

variable {cfg : BreakerConfig} {nowMs : Nat} {l : Lane}

theorem wouldAllow_opened (h : l.breaker.status = .opened) (hallow : l.wouldAllow cfg nowMs = true)
    : l.breaker.openUntilMs ≤ nowMs := by
  unfold wouldAllow LocalCircuitBreaker.allow at hallow
  dsimp only at hallow
  rw [h] at hallow
  dsimp only at hallow
  split at hallow
  . assumption
  . cases hallow

theorem wouldAllow_halfOpen (h : l.breaker.status = .halfOpen) (hallow : l.wouldAllow cfg nowMs = true)
    : l.breaker.halfOpenCalls + l.extra < cfg.halfOpenMaxCalls := by
  unfold wouldAllow LocalCircuitBreaker.allow at hallow
  dsimp only at hallow
  rw [h] at hallow
  dsimp only at hallow
  split at hallow
  . assumption
  . cases hallow

end Lane

namespace Gateway.State

-- No call of a provider started while its breaker was open, and no more than the trials did since.
def KeepsAway (gw : Gateway) (s : State) (p : Nat) : Prop :=
  (s.lanes p).hammered = false ∧ ∀ n ∈ (s.lanes p).started, n ≤ gw.breaker.halfOpenMaxCalls

-- A call that starts and was not let in during the present period of the breaker would be let in.
-- Both kinds do not take more than the slots, and an open breaker is not closed by a late success.
def Asks (gw : Gateway) (s : State) : Move → Prop
  | .consider d => ∀ x, s.dispatches d = some x → s.canLaunch gw d x = true →
    ((s.lanes x.next).breaker.allow gw.breaker s.nowMs).1 = true →
      (s.lanes x.next).breaker.status = .closed
        ∨ (s.lanes x.next).wouldAllow gw.breaker s.nowMs = true ∧ 0 < gw.breaker.halfOpenMaxCalls
  | .start k => ∀ c, s.calls[k]? = some c →
    c.period = (s.lanes c.index).period ∨ (s.lanes c.index).wouldAllow gw.breaker s.nowMs = true
  | .wake k => ∀ c, s.calls[k]? = some c → (s.lanes c.index).wouldAllow gw.breaker s.nowMs = true
  | .succeed k => ∀ c, s.calls[k]? = some c → (s.lanes c.index).breaker.status ≠ .opened
  | _ => True

structure Gated (cfg : BreakerConfig) (waiting : Nat) (l : Lane) : Prop where
  quiet : l.hammered = false
  trying : ∀ n ∈ l.started, l.breaker.status = .halfOpen ∧ n + waiting ≤ l.breaker.halfOpenCalls + l.extra
  room : l.breaker.status = .halfOpen → l.breaker.halfOpenCalls + l.extra ≤ cfg.halfOpenMaxCalls

structure Lodged (l : Lane) (c : Call) : Prop where
  past : c.period ≤ l.period
  shut : c.period = l.period → l.breaker.status ≠ .opened

def isWaiting (c : Call) : Bool :=
  c.phase == .admitted

def Shielded (gw : Gateway) (s : State) : Prop :=
  Ledger isWaiting (Gated gw.breaker) Lodged s

variable {gw : Gateway} {s : State} {cfg : BreakerConfig} {nowMs : Nat} {l : Lane}

theorem Shielded.keepsAway (hs : s.Shielded gw) (p : Nat) : s.KeepsAway gw p := by
  obtain ⟨hquiet, htrying, hroom⟩ := hs.lanes p
  refine ⟨hquiet, fun n hn => ?_⟩
  obtain ⟨hhalf, hle⟩ := htrying n hn
  have hmax := hroom hhalf
  omega

theorem Gated.of_le {waiting waiting' : Nat} (h : Gated cfg waiting l) (hle : waiting' ≤ waiting)
    : Gated cfg waiting' l := by
  refine ⟨h.quiet, fun n hn => ?_, h.room⟩
  obtain ⟨hhalf, hcounted⟩ := h.trying n hn
  exact ⟨hhalf, by omega⟩

theorem Gated.turn {waiting waiting' : Nat} {b : LocalCircuitBreaker} (h : Gated cfg waiting l)
    (hnot : b.status = l.breaker.status ∨ l.breaker.status ≠ .opened) (hhalf : b.status ≠ .halfOpen)
    : Gated cfg waiting' (l.turn b) := by
  refine ⟨?_, ?_, ?_⟩
  . rw [Lane.turn_hammered]
    exact h.quiet
  . intro n hn
    by_cases heq : b.status = l.breaker.status
    . rw [Lane.turn_of_eq heq] at hn
      rw [heq] at hhalf
      exact absurd (h.trying n hn).1 hhalf
    . rw [Lane.turn_of_ne heq] at hn
      dsimp only at hn
      rw [if_neg (hnot.resolve_left heq)] at hn
      cases hn
  . intro hturned
    rw [Lane.turn_breaker] at hturned
    exact absurd hturned hhalf

theorem Lodged.turn {c : Call} {b : LocalCircuitBreaker} (h : Lodged l c) : Lodged (l.turn b) c := by
  by_cases heq : b.status = l.breaker.status
  . rw [Lane.turn_of_eq heq]
    refine ⟨h.past, fun hperiod => ?_⟩
    dsimp only
    rw [heq]
    exact h.shut hperiod
  . rw [Lane.turn_of_ne heq]
    refine ⟨Nat.le_succ_of_le h.past, fun hperiod => ?_⟩
    exact absurd h.past (by rw [hperiod]; exact Nat.not_succ_le_self _)

theorem Gated.onFailure {waiting waiting' : Nat} (h : Gated cfg waiting l)
    : Gated cfg waiting' (l.onFailure cfg nowMs) := by
  unfold Lane.onFailure
  have hbreaker : (l.breaker.onFailure cfg nowMs).status = l.breaker.status
      ∨ l.breaker.status ≠ .opened := by
    cases htrips : l.breaker.trips cfg with
    | true =>
      rw [(LocalCircuitBreaker.onFailure_of_trips htrips).1]
      by_cases hopen : l.breaker.status = .opened
      . exact Or.inl hopen.symm
      . exact Or.inr hopen
    | false => exact Or.inl (LocalCircuitBreaker.onFailure_of_not_trips htrips).1
  have hne : (l.breaker.onFailure cfg nowMs).status ≠ .halfOpen := by
    have hstatus : (l.onFailure cfg nowMs).breaker.status ≠ .halfOpen := Lane.onFailure_status_ne
    rw [Lane.onFailure_breaker] at hstatus
    exact hstatus
  have hturn : Gated cfg waiting' (l.turn (l.breaker.onFailure cfg nowMs)) := h.turn hbreaker hne
  dsimp only
  split
  . exact ⟨hturn.quiet, hturn.trying, hturn.room⟩
  . exact hturn

theorem Lodged.onFailure {c : Call} (h : Lodged l c) : Lodged (l.onFailure cfg nowMs) c := by
  have hturn : Lodged (l.turn (l.breaker.onFailure cfg nowMs)) c := h.turn
  unfold Lane.onFailure
  dsimp only
  split
  . exact ⟨hturn.past, hturn.shut⟩
  . exact hturn

theorem Gated.start {waiting waiting' : Nat} {own : Bool} (h : Gated cfg waiting l)
    (hown : own = true → l.breaker.status ≠ .opened ∧ waiting' + 1 = waiting)
    (hother : own = false → l.wouldAllow cfg nowMs = true ∧ waiting' = waiting)
    : Gated cfg waiting' (l.start nowMs own) := by
  have hquiet := h.quiet
  unfold Lane.start
  refine ⟨?_, ?_, ?_⟩
  . dsimp only
    rw [hquiet, Bool.false_or, Bool.and_eq_false_iff, beq_eq_false_iff_ne, decide_eq_false_iff_not,
      Nat.not_lt]
    cases own with
    | true => exact Or.inl (hown rfl).1
    | false =>
      by_cases hopen : l.breaker.status = .opened
      . exact Or.inr (Lane.wouldAllow_opened hopen (hother rfl).1)
      . exact Or.inl hopen
  . intro n hn
    dsimp only at hn ⊢
    rw [Option.mem_def, Option.map_eq_some_iff] at hn
    obtain ⟨m, hm, rfl⟩ := hn
    obtain ⟨hhalf, hle⟩ := h.trying m hm
    refine ⟨hhalf, ?_⟩
    cases own with
    | true =>
      have hwaiting := (hown rfl).2
      rw [if_pos rfl]
      omega
    | false =>
      have hwaiting := (hother rfl).2
      rw [if_neg Bool.false_ne_true]
      omega
  . intro hhalf
    dsimp only at hhalf ⊢
    cases own with
    | true => exact h.room hhalf
    | false =>
      have hroom := Lane.wouldAllow_halfOpen hhalf (hother rfl).1
      rw [if_neg Bool.false_ne_true]
      omega

section

variable (hs : s.Shielded gw)

include hs

theorem Shielded.enter {x : Dispatch} {call : Call} {t : State}
    (hallow : (s.lanes x.next).allow gw.breaker s.nowMs = (true, l))
    (hasks : (s.lanes x.next).breaker.status = .closed
      ∨ (s.lanes x.next).wouldAllow gw.breaker s.nowMs = true ∧ 0 < gw.breaker.halfOpenMaxCalls)
    (hindex : call.index = x.next) (hphase : call.phase = .admitted) (hperiod : call.period = l.period)
    (hlanes : t.lanes = Function.update s.lanes x.next l) (hcalls : t.calls = s.calls ++ [call])
    : t.Shielded gw := by
  have hallows : Lane.Allows gw.breaker s.nowMs (s.lanes x.next)
      ((s.lanes x.next).allow gw.breaker s.nowMs) := Lane.allows_allow
  rw [hallow] at hallows
  have hold : ∀ c ∈ s.calls, c.index = x.next → Lodged (s.lanes x.next) c := by
    intro c hc heq
    rw [← heq]
    exact hs.calls c hc
  have hcount : countIn isWaiting t.calls x.next l.period
      = countIn isWaiting s.calls x.next l.period + 1 := by
    rw [hcalls, countIn_snoc, if_pos ⟨by rw [isWaiting, hphase]; rfl, hindex, hperiod⟩]
  have hgated := hs.lanes x.next
  apply Ledger.snoc hs hindex hlanes hcalls
  . rw [hcount]
    cases hallows with
    | closed h =>
      refine ⟨hgated.quiet, fun n hn => ?_, hgated.room⟩
      have hhalf := (hgated.trying n hn).1
      rw [h] at hhalf
      cases hhalf
    | trial h hpast =>
      rw [countIn_of_past (fun c hc heq => (hold c hc heq).past) (Nat.lt_succ_self _)]
      refine ⟨hgated.quiet, fun n hn => ?_, fun _ => ?_⟩
      . cases hn
        exact ⟨rfl, Nat.le_refl _⟩
      . rw [h] at hasks
        exact (hasks.resolve_left nofun).2
    | slot h hfree =>
      refine ⟨hgated.quiet, fun n hn => ?_, fun _ => ?_⟩
      . obtain ⟨hhalf, hle⟩ := hgated.trying n hn
        refine ⟨hhalf, ?_⟩
        dsimp only
        omega
      . rw [h] at hasks
        have hroom := Lane.wouldAllow_halfOpen h (hasks.resolve_left nofun).1
        dsimp only
        omega
  . refine ⟨Nat.le_of_eq hperiod, fun _ => ?_⟩
    cases hallows with
    | closed h =>
      rw [h]
      nofun
    | trial h hpast => nofun
    | slot h hfree =>
      dsimp only
      rw [h]
      nofun
  . intro c hc heq
    have hlodged := hold c hc heq
    cases hallows with
    | closed h => exact hlodged
    | trial h hpast => exact ⟨Nat.le_succ_of_le hlodged.past, fun _ => nofun⟩
    | slot h hfree => exact ⟨hlodged.past, hlodged.shut⟩

theorem Shielded.begins {k : Nat} {c c' : Call} {own : Bool} (h : s.calls[k]? = some c)
    (hindex : c'.index = c.index) (hperiod : c'.period = c.period)
    (hgated : Gated gw.breaker (countIn isWaiting (s.calls.set k c') c.index (s.lanes c.index).period)
      ((s.lanes c.index).start s.nowMs own))
    : (s.begins k c' own).Shielded gw := by
  have hlodged {b : Call} (hb : b ∈ s.calls) (heq : b.index = c.index)
      : Lodged ((s.lanes c.index).start s.nowMs own) b := by
    have hlodged := hs.calls b hb
    rw [heq] at hlodged
    exact ⟨hlodged.past, hlodged.shut⟩
  unfold State.begins State.setLane
  rw [hindex]
  apply Ledger.set hs h hindex rfl rfl hgated
  . obtain ⟨hpast, hshut⟩ := hlodged (Tasks.mem h) rfl
    rw [← hperiod] at hpast hshut
    exact ⟨hpast, hshut⟩
  . exact fun b hb heq => hlodged hb heq

theorem Shielded.start {k : Nat} {c : Call} (h : s.calls[k]? = some c) (hphase : c.phase = .admitted)
    (hasks : c.period = (s.lanes c.index).period
      ∨ (s.lanes c.index).wouldAllow gw.breaker s.nowMs = true)
    : (s.begins k { c with phase := .calling } (c.period == (s.lanes c.index).period)).Shielded gw := by
  have hwaiting : isWaiting c = true := by
    rw [isWaiting, hphase]
    rfl
  have hgated := hs.lanes c.index
  have hlodged := hs.calls c (Tasks.mem h)
  apply hs.begins h
  . rfl
  . rfl
  . apply hgated.start
    . intro hown
      have hperiod := beq_iff_eq.mp hown
      refine ⟨hlodged.shut hperiod, ?_⟩
      rw [← hperiod]
      exact countIn_set_leave h hwaiting rfl
    . intro hown
      have hperiod := beq_eq_false_iff_ne.mp hown
      refine ⟨hasks.resolve_left hperiod, ?_⟩
      apply countIn_set_of_period_ne h ?_ ?_ hperiod
      . rfl
      . rfl

theorem Shielded.wake {k untilMs : Nat} {c : Call} (h : s.calls[k]? = some c)
    (hphase : c.phase = .sleeping untilMs)
    (hasks : (s.lanes c.index).wouldAllow gw.breaker s.nowMs = true)
    : (s.begins k { c with phase := .calling, attempt := c.attempt + 1 } false).Shielded gw := by
  have hwaiting : isWaiting c = false := by
    rw [isWaiting, hphase]
    rfl
  apply hs.begins h
  . rfl
  . rfl
  . apply (hs.lanes c.index).start
    . exact fun hown => absurd hown Bool.false_ne_true
    . intro _
      refine ⟨hasks, ?_⟩
      apply countIn_set h
      . rfl
      . rfl
      . exact hwaiting.symm

theorem Shielded.finish (d : Nat) : (s.finish d).Shielded gw := by
  apply Ledger.finish hs d
  . intro p hgated
    have hsum := countIn_finish isWaiting s d p (s.lanes p).period
    have hless : Gated gw.breaker (countIn isWaiting (s.finish d).calls p (s.lanes p).period) (s.lanes p) :=
      hgated.of_le (by omega)
    exact ⟨hless.quiet, hless.trying, hless.room⟩
  . intro p n c hlodged
    exact ⟨hlodged.past, hlodged.shut⟩

theorem Shielded.succeed {k : Nat} {c : Call} (h : s.calls[k]? = some c)
    (hasks : (s.lanes c.index).breaker.status ≠ .opened) : (s.succeed k c).Shielded gw := by
  unfold State.succeed State.setLane
  apply Shielded.finish
  apply Ledger.erase hs h rfl rfl
  . apply (hs.lanes c.index).turn (Or.inr hasks)
    nofun
  . intro b hb heq
    have hlodged := hs.calls b hb
    rw [heq] at hlodged
    exact hlodged.turn

theorem Shielded.lodged_onFailure {b c : Call} (hb : b ∈ s.calls) (heq : b.index = c.index)
    : Lodged ((s.lanes c.index).onFailure gw.breaker s.nowMs) b := by
  have hlodged := hs.calls b hb
  rw [heq] at hlodged
  exact hlodged.onFailure

end

end State

open State

variable {gw : Gateway} {s : State}

theorem shielded_step (hs : s.Shielded gw) {move : Move} (hasks : s.Asks gw move)
    : (gw.step s move).Shielded gw := by
  have hsteps : Steps gw s move (gw.step s move) := steps_step move
  generalize gw.step s move = t at hsteps ⊢
  cases hsteps with
  | idle hlanes hcalls => exact hs.of_eq hlanes hcalls
  | @enter _ x _ _ _ hx hlaunch hallow hindex hphase hperiod hlanes hcalls =>
    have hyes : ((s.lanes x.next).breaker.allow gw.breaker s.nowMs).1 = true := by
      rw [← Lane.allow_fst, hallow]
    exact hs.enter hallow (hasks x hx hlaunch hyes) hindex hphase hperiod hlanes hcalls
  | @start _ c h hphase => exact hs.start h hphase (hasks c h)
  | @wake _ c _ h hphase => exact hs.wake h hphase (hasks c h)
  | @succeed _ c h _ => exact hs.succeed h (hasks c h)
  | @again _ c _ _ _ _ h hlanes hcalls =>
    apply Ledger.set hs h ?_ hlanes hcalls (hs.lanes c.index).onFailure
    . have hlodged := hs.lodged_onFailure (Tasks.mem h) rfl
      exact ⟨hlodged.past, hlodged.shut⟩
    . exact fun b hb heq => hs.lodged_onFailure hb heq
    . rfl
  | @failed _ c _ _ _ h hlanes hcalls =>
    apply Ledger.erase hs h hlanes hcalls (hs.lanes c.index).onFailure
    exact fun b hb heq => hs.lodged_onFailure hb heq
  | permanent => exact hs.finish _
  | exhausted => exact hs.finish _
  | drop => exact hs.finish _

theorem shielded_init : State.Shielded gw {} := by
  constructor
  . intro p
    exact ⟨rfl, nofun, nofun⟩
  . intro c hc
    cases hc

-- As long as each call that starts without being let in, or after its breaker has changed, starts
-- where it would have been let in, an open breaker keeps the calls away.
theorem keepsAway_of_run {moves : List Move}
    (h : Run (Guarded (fun s move => s.Asks gw move) gw.step) {} moves s) (p : Nat)
    : s.KeepsAway gw p := by
  have hshielded : s.Shielded gw := by
    apply Run.invariant (P := fun s => s.Shielded gw) ?_ h shielded_init
    rintro s move t hs ⟨hasks, rfl⟩
    exact shielded_step hs hasks
  exact hshielded.keepsAway p

-- The first call fails, and a trial starts after the cool-down.
theorem keepsAway_trial
    : ((oneProvider 1).after [.chat 0, .consider 0, .start 0, .transient 0 none 0, .consider 0,
        .tick 15000, .chat 1, .consider 1, .start 0]).KeepsAway (oneProvider 1) 0 := by
  suffices hrun : Run (Guarded (fun s move => s.Asks (oneProvider 1) move) (oneProvider 1).step) {}
      [.chat 0, .consider 0, .start 0, .transient 0 none 0, .consider 0, .tick 15000, .chat 1,
        .consider 1, .start 0] _ from keepsAway_of_run hrun 0
  refine .cons ⟨trivial, rfl⟩ (.cons ⟨?_, rfl⟩ (.cons ⟨?_, rfl⟩ (.cons ⟨trivial, rfl⟩ (.cons ⟨?_, rfl⟩
    (.cons ⟨trivial, rfl⟩ (.cons ⟨trivial, rfl⟩ (.cons ⟨?_, rfl⟩ (.cons ⟨?_, rfl⟩ (.nil _)))))))))
  . intro x hx _ _
    cases hx
    exact Or.inl rfl
  . intro c hc
    cases hc
    exact Or.inl rfl
  . intro x hx hlaunch _
    cases hx
    cases hlaunch
  . intro x hx _ _
    cases hx
    exact Or.inr ⟨by decide, by decide⟩
  . intro c hc
    cases hc
    exact Or.inl rfl

def stubborn : List Move :=
  [.chat 0, .consider 0, .start 0, .transient 0 none 200, .tick 200, .wake 0, .transient 0 none 400,
    .tick 600, .wake 0, .transient 0 none 800, .consider 0,
    .chat 1, .consider 1, .start 0, .transient 0 none 200, .tick 800, .wake 0, .transient 0 none 200,
    .tick 1000, .wake 0]

theorem not_keepsAway_stubborn
    : ¬(({ providers := 1 } : Gateway).after stubborn).KeepsAway { providers := 1 } 0 := by
  intro h
  have hhammered : ((({ providers := 1 } : Gateway).after stubborn).lanes 0).hammered = true := by
    decide
  rw [h.1] at hhammered
  cases hhammered

end Wovyr.Provider.Gateway
