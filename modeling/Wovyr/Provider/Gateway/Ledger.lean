import Wovyr.Lib.Tasks
import Wovyr.Provider.Gateway

/-!
This module contains what a move can do to the breakers and to the calls of the providers, and
invariants that relate each breaker to its calls.
-/

namespace Wovyr.Provider.Gateway

open State

inductive Steps (gw : Gateway) (s : State) : Move → State → Prop where
  | idle {move : Move} {t : State} (hlanes : t.lanes = s.lanes) (hcalls : t.calls = s.calls) :
    Steps gw s move t
  | enter {d : Nat} {x : Dispatch} {l : Lane} {call : Call} {t : State}
    (hx : s.dispatches d = some x) (hlaunch : s.canLaunch gw d x = true)
    (hallow : (s.lanes x.next).allow gw.breaker s.nowMs = (true, l))
    (hindex : call.index = x.next) (hphase : call.phase = .admitted) (hperiod : call.period = l.period)
    (hlanes : t.lanes = Function.update s.lanes x.next l) (hcalls : t.calls = s.calls ++ [call]) :
    Steps gw s (.consider d) t
  | start {k : Nat} {c : Call} (h : s.calls[k]? = some c) (hphase : c.phase = .admitted) :
    Steps gw s (.start k)
      (s.begins k { c with phase := .calling } (c.period == (s.lanes c.index).period))
  | wake {k : Nat} {c : Call} {untilMs : Nat} (h : s.calls[k]? = some c)
    (hphase : c.phase = .sleeping untilMs) :
    Steps gw s (.wake k) (s.begins k { c with phase := .calling, attempt := c.attempt + 1 } false)
  | succeed {k : Nat} {c : Call} (h : s.calls[k]? = some c) (hphase : c.phase = .calling) :
    Steps gw s (.succeed k) (s.succeed k c)
  | again {k : Nat} {c : Call} {retryAfterMs : Option Nat} {jitterMs untilMs : Nat} {t : State}
    (h : s.calls[k]? = some c)
    (hlanes : t.lanes = Function.update s.lanes c.index ((s.lanes c.index).onFailure gw.breaker s.nowMs))
    (hcalls : t.calls = s.calls.set k { c with phase := .sleeping untilMs }) :
    Steps gw s (.transient k retryAfterMs jitterMs) t
  | failed {k : Nat} {c : Call} {retryAfterMs : Option Nat} {jitterMs : Nat} {t : State}
    (h : s.calls[k]? = some c)
    (hlanes : t.lanes = Function.update s.lanes c.index ((s.lanes c.index).onFailure gw.breaker s.nowMs))
    (hcalls : t.calls = s.calls.eraseIdx k) :
    Steps gw s (.transient k retryAfterMs jitterMs) t
  | permanent {k : Nat} {c : Call} (h : s.calls[k]? = some c) (hphase : c.phase = .calling) :
    Steps gw s (.permanent k) (s.finish c.dispatch)
  | exhausted {d : Nat} (h : s.inflight d = 0) : Steps gw s (.consider d) (s.finish d)
  | drop (d : Nat) : Steps gw s (.drop d) (s.finish d)

variable {gw : Gateway} {s : State}

theorem steps_consider {d : Nat} {x : Dispatch} (hx : s.dispatches d = some x)
    : Steps gw s (.consider d) (s.consider gw d x) := by
  unfold State.consider
  split
  . next hlaunch =>
    have hallows : Lane.Allows gw.breaker s.nowMs (s.lanes x.next)
        ((s.lanes x.next).allow gw.breaker s.nowMs) := Lane.allows_allow
    unfold State.launch
    rcases hallow : (s.lanes x.next).allow gw.breaker s.nowMs with ⟨allowed, l⟩
    rw [hallow] at hallows
    dsimp only
    cases allowed with
    | true =>
      rw [if_pos rfl]
      exact .enter hx hlaunch hallow rfl rfl rfl rfl rfl
    | false =>
      cases hallows
      rw [if_neg Bool.false_ne_true]
      exact .idle (Function.update_eq_self _ _) rfl
  . split
    . next hnone => exact .exhausted hnone
    . exact .idle rfl rfl

theorem steps_step (move : Move) : Steps gw s move (gw.step s move) := by
  unfold step
  cases move with
  | tick nowMs =>
    dsimp only
    split
    . exact .idle rfl rfl
    . exact .idle rfl rfl
  | chat d =>
    dsimp only
    split
    . exact .idle rfl rfl
    . exact .idle rfl rfl
  | chatStream d =>
    dsimp only
    split
    . exact .idle rfl rfl
    . exact .idle rfl rfl
  | consider d =>
    dsimp only
    split
    . next x hx =>
      split
      . exact steps_consider hx
      . exact .idle rfl rfl
    . exact .idle rfl rfl
  | hedge d =>
    dsimp only
    split
    . split
      . exact .idle rfl rfl
      . exact .idle rfl rfl
    . exact .idle rfl rfl
  | start k =>
    dsimp only
    split
    . next c hc =>
      split
      . next hphase => exact .start hc hphase
      . exact .idle rfl rfl
    . exact .idle rfl rfl
  | wake k =>
    dsimp only
    split
    . next c hc =>
      split
      . next untilMs hphase =>
        split
        . exact .wake hc hphase
        . exact .idle rfl rfl
      . exact .idle rfl rfl
    . exact .idle rfl rfl
  | succeed k =>
    dsimp only
    split
    . next c hc =>
      split
      . next hphase => exact .succeed hc hphase
      . exact .idle rfl rfl
    . exact .idle rfl rfl
  | transient k retryAfterMs jitterMs =>
    dsimp only
    split
    . next c hc =>
      split
      . split
        . unfold State.failTransient
          dsimp only
          split
          . exact .again hc rfl rfl
          . exact .failed hc rfl rfl
        . exact .idle rfl rfl
      . exact .idle rfl rfl
    . exact .idle rfl rfl
  | permanent k =>
    dsimp only
    split
    . next c hc =>
      split
      . next hphase => exact .permanent hc hphase
      . exact .idle rfl rfl
    . exact .idle rfl rfl
  | drop d =>
    dsimp only
    split
    . exact .drop d
    . exact .idle rfl rfl

section

variable {q : Call → Bool} {calls : List Call} {c c' : Call} {k p n : Nat}

def countIn (q : Call → Bool) (calls : List Call) (p n : Nat) : Nat :=
  calls.countP fun c => q c && (c.index == p && c.period == n)

theorem countIn_snoc
    : countIn q (calls ++ [c]) p n
        = countIn q calls p n + if q c = true ∧ c.index = p ∧ c.period = n then 1 else 0 := by
  unfold countIn
  rw [List.countP_append, List.countP_singleton]
  simp only [Bool.and_eq_true, beq_iff_eq]

theorem countIn_of_past {m : Nat} (h : ∀ c ∈ calls, c.index = p → c.period ≤ m) (hlt : m < n)
    : countIn q calls p n = 0 := by
  unfold countIn
  rw [List.countP_eq_zero]
  intro c hc hmatch
  rw [Bool.and_eq_true, Bool.and_eq_true, beq_iff_eq, beq_iff_eq] at hmatch
  obtain ⟨-, hindex, rfl⟩ := hmatch
  exact absurd (h c hc hindex) (Nat.not_le.mpr hlt)

theorem countIn_set (h : calls[k]? = some c) (hindex : c'.index = c.index) (hperiod : c'.period = c.period)
    (hq : q c' = q c) : countIn q (calls.set k c') p n = countIn q calls p n := by
  apply Tasks.countP_set h
  rw [hindex, hperiod, hq]

theorem countIn_set_leave (h : calls[k]? = some c) (hq : q c = true) (hq' : q c' = false)
    : countIn q (calls.set k c') c.index c.period + 1 = countIn q calls c.index c.period := by
  obtain ⟨as, bs, hcalls, hset, -⟩ := Tasks.split h
  unfold countIn
  rw [hset, hcalls, List.countP_append, List.countP_append, List.countP_cons_of_neg,
    List.countP_cons_of_pos]
  . omega
  . rw [hq, BEq.rfl, BEq.rfl]
    rfl
  . rw [hq', Bool.false_and]
    exact Bool.false_ne_true

theorem countIn_set_of_period_ne (h : calls[k]? = some c) (hindex : c'.index = c.index)
    (hperiod : c'.period = c.period) (hne : c.period ≠ n)
    : countIn q (calls.set k c') p n = countIn q calls p n := by
  apply Tasks.countP_set h
  simp only [hindex, hperiod, beq_false_of_ne hne, Bool.and_false]

theorem countIn_set_of_ne (h : calls[k]? = some c) (hindex : c'.index = c.index) (hne : p ≠ c.index)
    : countIn q (calls.set k c') p n = countIn q calls p n := by
  apply Tasks.countP_set h
  simp only [hindex, beq_false_of_ne hne.symm, Bool.false_and, Bool.and_false]

theorem countIn_eraseIdx_of_ne (h : calls[k]? = some c) (hne : p ≠ c.index)
    : countIn q (calls.eraseIdx k) p n = countIn q calls p n := by
  apply Tasks.countP_eraseIdx h
  rw [beq_false_of_ne hne.symm, Bool.false_and, Bool.and_false]

theorem countIn_eq_zero (h : ∀ c ∈ calls, c.index = p → c.period = n → q c = false)
    : countIn q calls p n = 0 := by
  unfold countIn
  rw [List.countP_eq_zero]
  intro c hc hmatch
  rw [Bool.and_eq_true, Bool.and_eq_true, beq_iff_eq, beq_iff_eq] at hmatch
  rw [h c hc hmatch.2.1 hmatch.2.2] at hmatch
  exact Bool.false_ne_true hmatch.1

theorem countIn_finish (q : Call → Bool) (s : State) (d p n : Nat)
    : countIn q (s.finish d).calls p n
        + (s.calls.countP fun c => c.dispatch == d && (q c && (c.index == p && c.period == n)))
        = countIn q s.calls p n := by
  have hsplit := List.countP_eq_countP_filter_add s.calls
    (fun c => q c && (c.index == p && c.period == n)) fun c => c.dispatch != d
  unfold countIn State.finish
  dsimp only
  rw [hsplit, Nat.add_right_inj, List.countP_filter]
  apply List.countP_congr
  intro c _
  rw [bne, Bool.not_not, Bool.and_comm]

theorem slotsOf_of_inflight {d : Nat} (h : s.inflight d = 0) : s.slotsOf d p = 0 := by
  unfold State.inflight at h
  unfold slotsOf
  rw [List.countP_eq_zero] at h ⊢
  intro c hc hmatch
  rw [Bool.and_eq_true] at hmatch
  exact h c hc hmatch.1

end

structure Ledger (q : Call → Bool) (A : Nat → Lane → Prop) (B : Lane → Call → Prop) (s : State) : Prop where
  lanes : ∀ p, A (countIn q s.calls p (s.lanes p).period) (s.lanes p)
  calls : ∀ c ∈ s.calls, B (s.lanes c.index) c

namespace Ledger

variable {q : Call → Bool} {A : Nat → Lane → Prop} {B : Lane → Call → Prop} {t : State} {l : Lane} {p : Nat}

theorem of_eq (hs : Ledger q A B s) (hlanes : t.lanes = s.lanes) (hcalls : t.calls = s.calls)
    : Ledger q A B t := by
  constructor
  . rw [hlanes, hcalls]
    exact hs.lanes
  . rw [hlanes, hcalls]
    exact hs.calls

theorem update (hs : Ledger q A B s) (hlanes : t.lanes = Function.update s.lanes p l)
    (hothers : ∀ r n, r ≠ p → countIn q t.calls r n = countIn q s.calls r n)
    (hold : ∀ c ∈ t.calls, c.index ≠ p → c ∈ s.calls)
    (hlane : A (countIn q t.calls p l.period) l) (hcalls : ∀ c ∈ t.calls, c.index = p → B l c)
    : Ledger q A B t := by
  constructor
  . intro r
    rw [hlanes]
    by_cases hr : r = p
    . subst hr
      rw [Function.update_self]
      exact hlane
    . rw [Function.update_of_ne hr, hothers r _ hr]
      exact hs.lanes r
  . intro c hc
    rw [hlanes]
    by_cases hr : c.index = p
    . rw [hr, Function.update_self]
      exact hcalls c hc hr
    . rw [Function.update_of_ne hr]
      exact hs.calls c (hold c hc hr)

theorem snoc (hs : Ledger q A B s) {call : Call} (hindex : call.index = p)
    (hlanes : t.lanes = Function.update s.lanes p l) (hcalls : t.calls = s.calls ++ [call])
    (hlane : A (countIn q t.calls p l.period) l) (hnew : B l call)
    (hplaced : ∀ c ∈ s.calls, c.index = p → B l c) : Ledger q A B t := by
  have hmem {c : Call} (hc : c ∈ t.calls) : c ∈ s.calls ∨ c = call := by
    rw [hcalls, List.mem_append, List.mem_singleton] at hc
    exact hc
  apply hs.update hlanes ?_ ?_ hlane
  . intro c hc hr
    rcases hmem hc with hold | rfl
    . exact hplaced c hold hr
    . exact hnew
  . intro r n hr
    rw [hcalls, countIn_snoc, if_neg (fun h => hr (h.2.1.symm.trans hindex)), Nat.add_zero]
  . intro c hc hr
    rcases hmem hc with hold | rfl
    . exact hold
    . exact absurd hindex hr

theorem set (hs : Ledger q A B s) {k : Nat} {c c' : Call} (h : s.calls[k]? = some c)
    (hindex : c'.index = c.index) (hlanes : t.lanes = Function.update s.lanes c.index l)
    (hcalls : t.calls = s.calls.set k c') (hlane : A (countIn q t.calls c.index l.period) l)
    (hnew : B l c') (hplaced : ∀ b ∈ s.calls, b.index = c.index → B l b) : Ledger q A B t := by
  have hmem {b : Call} (hb : b ∈ t.calls) : b ∈ s.calls ∨ b = c' := by
    rw [hcalls] at hb
    exact Tasks.mem_set hb
  apply hs.update hlanes ?_ ?_ hlane
  . intro b hb hr
    rcases hmem hb with hold | rfl
    . exact hplaced b hold hr
    . exact hnew
  . intro r n hr
    rw [hcalls]
    exact countIn_set_of_ne h hindex hr
  . intro b hb hr
    rcases hmem hb with hold | rfl
    . exact hold
    . exact absurd hindex hr

theorem erase (hs : Ledger q A B s) {k : Nat} {c : Call} (h : s.calls[k]? = some c)
    (hlanes : t.lanes = Function.update s.lanes c.index l) (hcalls : t.calls = s.calls.eraseIdx k)
    (hlane : A (countIn q t.calls c.index l.period) l)
    (hplaced : ∀ b ∈ s.calls, b.index = c.index → B l b) : Ledger q A B t := by
  have hmem {b : Call} (hb : b ∈ t.calls) : b ∈ s.calls := by
    rw [hcalls] at hb
    exact List.mem_of_mem_eraseIdx hb
  apply hs.update hlanes ?_ ?_ hlane
  . exact fun b hb hr => hplaced b (hmem hb) hr
  . intro r n hr
    rw [hcalls]
    exact countIn_eraseIdx_of_ne h hr
  . exact fun b hb _ => hmem hb

theorem finish (hs : Ledger q A B s) (d : Nat)
    (hlane : ∀ p, A (countIn q s.calls p (s.lanes p).period) (s.lanes p) →
      A (countIn q (s.finish d).calls p (s.lanes p).period) ((s.lanes p).lose (s.slotsOf d p)))
    (hcall : ∀ p n c, B (s.lanes p) c → B ((s.lanes p).lose n) c) : Ledger q A B (s.finish d) := by
  constructor
  . intro p
    exact hlane p (hs.lanes p)
  . intro c hc
    exact hcall c.index _ c (hs.calls c (List.mem_filter.mp hc).1)

end Wovyr.Provider.Gateway.Ledger
