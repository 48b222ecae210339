import Mathlib.Data.List.Dedup
import Mathlib.Data.List.Perm.Subperm
import Wovyr.Lib.Run
import Wovyr.Provider.Gateway
import Wovyr.Provider.Types
import Wovyr.Common

/-!
This module contains what a dispatch of a chat call returns, and proves that the race between the
candidates of a hedged one is safe.
-/

namespace Wovyr.Provider

open List

def isTransient : Error → Bool
  | .provider _ _ => true
  | _ => false

def noHealthy : Error :=
  .provider "no healthy providers available" none

structure Served (α : Type) where
  index : Nat
  response : α
deriving DecidableEq

-- The candidates in turn. The error of an attempt comes with whether the next one is tried.
def failover (maxFailovers : Nat) (allow : Nat → Bool) (attempt : Nat → Except (Error × Bool) α) (hops : Nat)
    (lastErr : Option Error) : List Nat → Except Error (Served α)
  | [] => .error (lastErr.getD noHealthy)
  | i :: rest =>
    if hops > maxFailovers then
      .error (lastErr.getD noHealthy)
    else if !allow i then
      failover maxFailovers allow attempt hops lastErr rest
    else
      match attempt i with
      | .ok response => .ok ⟨i, response⟩
      | .error (err, transient) =>
        if !transient then
          .error err
        else
          failover maxFailovers allow attempt (hops + 1) (some err) rest

structure Contest where
  gw : Gateway
  -- What the breaker of a provider answers when it is asked.
  allow : Nat → Bool
  -- How an attempt at a provider ends. The first one is 1.
  chat : Nat → Nat → Except Error ChatResponse

namespace Contest

variable (c : Contest)

def tryProvider (index attempt : Nat) : Except (Error × Bool) ChatResponse :=
  match c.chat index attempt with
  | .ok response => .ok response
  | .error err =>
    if !isTransient err then
      .error (err, false)
    else if attempt < c.gw.retry.maxAttempts then
      tryProvider index (attempt + 1)
    else
      .error (err, true)
termination_by c.gw.retry.maxAttempts - attempt

def dispatchSequential : Except Error (Served ChatResponse) :=
  failover c.gw.maxFailovers c.allow (fun i => c.tryProvider i 1) 0 none (range c.gw.providers)

structure Attempt where
  index : Nat
  attempt : Nat
deriving DecidableEq

structure Race where
  next : Nat := 0
  launched : Nat := 0
  inflight : List Attempt := []
  lastErr : Option Error := none
  returned : Option (Except Error (Served ChatResponse)) := none
  calls : List Attempt := []

namespace Race

def finish (s : Race) (result : Except Error (Served ChatResponse)) : Race :=
  { s with inflight := [], returned := some result }

def launch (s : Race) : Race :=
  { s with
    next := s.next + 1
    launched := s.launched + 1
    inflight := s.inflight ++ [⟨s.next, 1⟩]
    calls := s.calls ++ [⟨s.next, 1⟩] }

def retry (s : Race) (x : Attempt) : Race :=
  { s with
    inflight := s.inflight.map fun y => if y.index = x.index then ⟨x.index, x.attempt + 1⟩ else y
    calls := s.calls ++ [⟨x.index, x.attempt + 1⟩] }

def fail (s : Race) (x : Attempt) (err : Error) : Race :=
  { s with inflight := s.inflight.filter fun y => y.index != x.index, lastErr := some err }

end Race

def canLaunch (s : Race) : Bool :=
  decide (s.inflight.length < c.gw.hedge.maxParallel) && decide (s.launched ≤ c.gw.maxFailovers)
    && decide (s.next < c.gw.providers)

def fill (s : Race) : Race :=
  if c.canLaunch s then
    if !c.allow s.next then
      fill { s with next := s.next + 1 }
    else
      s.launch
  else
    s
termination_by c.gw.providers - s.next
decreasing_by
  have hlaunch := ‹c.canLaunch s = true›
  simp only [canLaunch, Bool.and_eq_true, decide_eq_true_eq] at hlaunch
  omega

-- One turn of the loop up to where it waits.
def turn (s : Race) : Race :=
  let s := c.fill s
  if s.inflight.isEmpty then
    s.finish (.error (s.lastErr.getD noHealthy))
  else
    s

def start : Race :=
  c.turn {}

inductive Move where
  -- The attempt at a provider that is in flight ends.
  | ends (index : Nat)
  -- The delay has elapsed with no answer.
  | hedge

def ends (s : Race) (x : Attempt) : Race :=
  match c.chat x.index x.attempt with
  | .ok response => s.finish (.ok ⟨x.index, response⟩)
  | .error err =>
    if !isTransient err then
      s.finish (.error err)
    else if x.attempt < c.gw.retry.maxAttempts then
      s.retry x
    else
      c.turn (s.fail x err)

def step (s : Race) : Move → Option Race
  | .ends index => (s.inflight.find? fun x => x.index == index).map (c.ends s)
  | .hedge => if s.returned.isNone && c.canLaunch s then some (c.turn s) else none

/-- The race after these moves, each of which was possible. -/
def Reaches : List Move → Race → Prop :=
  Run (fun s m s' => c.step s m = some s') c.start

/-- At least one attempt is made at every provider. -/
def attempts : Nat :=
  max 1 c.gw.retry.maxAttempts

/-- The providers that a dispatch may go to. -/
def candidates : List Nat :=
  ((range c.gw.providers).filter c.allow).take (c.gw.maxFailovers + 1)

/-- The first `n` attempts at a provider fail transiently. -/
def Failed (index n : Nat) : Prop :=
  ∀ a, 1 ≤ a → a ≤ n → ∃ err, c.chat index a = .error err ∧ isTransient err = true

def Race.Tried (s : Race) (index n : Nat) : Prop :=
  ∀ a, 1 ≤ a → a ≤ n → ⟨index, a⟩ ∈ s.calls

def admitted (s : Race) : List Nat :=
  (range s.next).filter c.allow

/-- An attempt in flight is the last one that has begun at its provider, and all before it have failed. -/
structure Flying (s : Race) (x : Attempt) : Prop where
  admitted : x.index ∈ c.admitted s
  pos : 1 ≤ x.attempt
  le : x.attempt ≤ c.attempts
  failed : c.Failed x.index (x.attempt - 1)
  tried : s.Tried x.index x.attempt
  last : ∀ y ∈ s.calls, y.index = x.index → y.attempt ≤ x.attempt

def Exhausted (s : Race) (index : Nat) : Prop :=
  c.Failed index c.attempts ∧ s.Tried index c.attempts

structure Valid (s : Race) : Prop where
  next_le : s.next ≤ c.gw.providers
  launched : s.launched = (c.admitted s).length
  launched_le : s.launched ≤ c.gw.maxFailovers + 1
  parallel : s.inflight.length ≤ c.gw.hedge.maxParallel
  nodup : (s.inflight.map Attempt.index).Nodup
  flying : ∀ x ∈ s.inflight, c.Flying s x
  landed : s.returned = none → ∀ i ∈ c.admitted s, i ∈ s.inflight.map Attempt.index ∨ c.Exhausted s i
  calls : ∀ x ∈ s.calls, x.index ∈ c.admitted s ∧ 1 ≤ x.attempt ∧ x.attempt ≤ c.attempts
  callsNodup : s.calls.Nodup
  ended : ∀ result, s.returned = some result → s.inflight = []
  answered : ∀ served, s.returned = some (.ok served) →
    ∃ a, ⟨served.index, a⟩ ∈ s.calls ∧ c.chat served.index a = .ok served.response
  exhausted : 1 ≤ c.gw.hedge.maxParallel → ∀ err, s.returned = some (.error err) → isTransient err = true →
    ∀ i ∈ c.candidates, c.Exhausted s i

/-- What looking for the next candidate can come to. -/
inductive Fills : Race → Race → Prop where
  | stop {s} (h : c.canLaunch s = false) : Fills s s
  | launch {s} (h : c.canLaunch s = true) (hallow : c.allow s.next = true) : Fills s s.launch
  | skip {s s'} (h : c.canLaunch s = true) (hallow : c.allow s.next = false)
    (hrest : Fills { s with next := s.next + 1 } s') : Fills s s'

section

variable {c} {s s' : Race} {x : Attempt}

theorem canLaunch_iff : c.canLaunch s = true ↔ s.inflight.length < c.gw.hedge.maxParallel
    ∧ s.launched ≤ c.gw.maxFailovers ∧ s.next < c.gw.providers := by
  simp [canLaunch, and_assoc]

theorem fills_fill (s : Race) : c.Fills s (c.fill s) := by
  induction s using fill.induct c with
  | case1 s hlaunch hallow ih =>
    rw [fill, if_pos hlaunch, if_pos hallow]
    exact .skip hlaunch (by simpa using hallow) ih
  | case2 s hlaunch hallow =>
    rw [fill, if_pos hlaunch, if_neg hallow]
    exact .launch hlaunch (by simpa using hallow)
  | case3 s hlaunch =>
    rw [fill, if_neg hlaunch]
    exact .stop (by simpa using hlaunch)

theorem Fills.stopped (h : c.Fills s s') : s'.inflight ≠ [] ∨ c.canLaunch s' = false := by
  induction h with
  | stop h => exact .inr h
  | launch => exact .inl (by simp [Race.launch])
  | skip _ _ _ ih => exact ih

theorem Fills.returned (h : c.Fills s s') : s'.returned = s.returned := by
  induction h with
  | stop => rfl
  | launch => rfl
  | skip _ _ _ ih => exact ih

theorem prefix_admitted (h : s.next ≤ c.gw.providers)
    : c.admitted s <+: (range c.gw.providers).filter c.allow := by
  apply List.IsPrefix.filter
  rw [range_eq_range', range_eq_range', prefix_iff_eq_take]
  simp [h]

theorem admitted_skip (h : c.allow s.next = false) : c.admitted { s with next := s.next + 1 } = c.admitted s := by
  simp [admitted, range_succ, h]

theorem admitted_launch (h : c.allow s.next = true) : c.admitted s.launch = c.admitted s ++ [s.next] := by
  simp [admitted, Race.launch, range_succ, h]

theorem next_not_mem_admitted : s.next ∉ c.admitted s := by
  simp [admitted]

theorem Flying.extend (h : c.Flying s x) (hadmitted : c.admitted s ⊆ c.admitted s') (hcalls : s.calls ⊆ s'.calls)
    (hnew : ∀ y ∈ s'.calls, y.index = x.index → y ∈ s.calls) : c.Flying s' x where
  admitted := hadmitted h.admitted
  pos := h.pos
  le := h.le
  failed := h.failed
  tried := fun a hpos hle => hcalls (h.tried a hpos hle)
  last := fun y hy hindex => h.last y (hnew y hy hindex) hindex

theorem Exhausted.extend {i : Nat} (h : c.Exhausted s i) (hcalls : s.calls ⊆ s'.calls) : c.Exhausted s' i :=
  ⟨h.1, fun a hpos hle => hcalls (h.2 a hpos hle)⟩

theorem split_inflight {inflight : List Attempt} (hnodup : (inflight.map Attempt.index).Nodup) (hx : x ∈ inflight)
    : ∃ front back, inflight = front ++ x :: back ∧ (∀ y ∈ front, y.index ≠ x.index)
        ∧ ∀ y ∈ back, y.index ≠ x.index := by
  obtain ⟨front, back, rfl⟩ := append_of_mem hx
  refine ⟨front, back, rfl, ?_, ?_⟩
  all_goals
    intro y hy heq
    simp only [map_append, map_cons, nodup_append, nodup_cons, mem_map, mem_cons]
      at hnodup
  . exact hnodup.2.2 y.index ⟨y, hy, rfl⟩ x.index (.inl rfl) heq
  . exact hnodup.2.1.1 ⟨y, hy, heq⟩

theorem retry_inflight {front back : List Attempt} (h : s.inflight = front ++ x :: back)
    (hfront : ∀ y ∈ front, y.index ≠ x.index) (hback : ∀ y ∈ back, y.index ≠ x.index)
    : (s.retry x).inflight = front ++ ⟨x.index, x.attempt + 1⟩ :: back := by
  have hsame (l : List Attempt) (hl : ∀ y ∈ l, y.index ≠ x.index)
      : (l.map fun y => if y.index = x.index then (⟨x.index, x.attempt + 1⟩ : Attempt) else y) = l := by
    rw [map_congr_left (fun y hy => if_neg (hl y hy)), map_id']
  simp [Race.retry, h, hsame front hfront, hsame back hback]

theorem fail_inflight {front back : List Attempt} {err : Error} (h : s.inflight = front ++ x :: back)
    (hfront : ∀ y ∈ front, y.index ≠ x.index) (hback : ∀ y ∈ back, y.index ≠ x.index)
    : (s.fail x err).inflight = front ++ back := by
  simp only [Race.fail, h, filter_append, filter_cons, bne_self_eq_false, Bool.false_eq_true, if_false]
  rw [filter_eq_self.mpr (by simpa using hfront), filter_eq_self.mpr (by simpa using hback)]

namespace Valid

theorem admitted_prefix_candidates (h : c.Valid s) : c.admitted s <+: c.candidates := by
  apply prefix_take_iff.mpr
  refine ⟨prefix_admitted h.next_le, ?_⟩
  rw [← h.launched]
  exact h.launched_le

theorem admitted_eq_candidates (h : c.Valid s) (hparallel : 1 ≤ c.gw.hedge.maxParallel)
    (hstop : c.canLaunch s = false) (hempty : s.inflight = []) : c.admitted s = c.candidates := by
  have hprefix := prefix_admitted h.next_le
  apply List.IsPrefix.eq_of_length h.admitted_prefix_candidates
  have hlength := hprefix.length_le
  have hlaunched := h.launched
  have hlaunched_le := h.launched_le
  by_cases hnext : s.next < c.gw.providers
  . have hspent : ¬s.launched ≤ c.gw.maxFailovers := by
      intro hle
      have hlaunch : c.canLaunch s = true := (canLaunch_iff).mpr ⟨by rw [hempty]; exact hparallel, hle, hnext⟩
      rw [hlaunch] at hstop
      cases hstop
    simp only [candidates, length_take]
    omega
  . have hall : c.admitted s = (range c.gw.providers).filter c.allow := by
      unfold admitted
      rw [show s.next = c.gw.providers by have := h.next_le; omega]
    simp only [candidates, length_take, ← hall]
    omega

theorem start : c.Valid {} where
  next_le := Nat.zero_le _
  launched := rfl
  launched_le := Nat.zero_le _
  parallel := Nat.zero_le _
  nodup := nodup_nil
  flying := nofun
  landed := nofun
  calls := nofun
  callsNodup := nodup_nil
  ended := nofun
  answered := nofun
  exhausted := fun _ => nofun

theorem skip (h : c.Valid s) (hrunning : s.returned = none) (hlaunch : c.canLaunch s = true)
    (hallow : c.allow s.next = false) : c.Valid { s with next := s.next + 1 } := by
  have hadmitted := admitted_skip hallow
  exact {
    next_le := ((canLaunch_iff).mp hlaunch).2.2
    launched := by rw [hadmitted]; exact h.launched
    launched_le := h.launched_le
    parallel := h.parallel
    nodup := h.nodup
    flying := fun x hx => (h.flying x hx).extend (by rw [hadmitted]; exact fun _ hi => hi) (fun _ hy => hy) (fun _ hy _ => hy)
    landed := by rw [hadmitted]; exact h.landed
    calls := by rw [hadmitted]; exact h.calls
    callsNodup := h.callsNodup
    ended := by simp [hrunning]
    answered := h.answered
    exhausted := by simp [hrunning]
  }

theorem launch (h : c.Valid s) (hrunning : s.returned = none) (hlaunch : c.canLaunch s = true)
    (hallow : c.allow s.next = true) : c.Valid s.launch := by
  have hadmitted := admitted_launch hallow
  obtain ⟨hlength, hle, hnext⟩ := (canLaunch_iff).mp hlaunch
  have hfresh : ∀ y ∈ s.calls, y.index ≠ s.next := by
    intro y hy heq
    exact next_not_mem_admitted (heq ▸ (h.calls y hy).1)
  have hsub : c.admitted s ⊆ c.admitted s.launch := by
    rw [hadmitted]
    exact subset_append_left _ _
  have hcalls : s.calls ⊆ s.launch.calls := subset_append_left _ _
  have hnew : s.next ∈ c.admitted s.launch := by
    rw [hadmitted]
    exact mem_append_right _ mem_cons_self
  have hattempts : 1 ≤ c.attempts := Nat.le_max_left _ _
  refine { next_le := hnext, launched := ?_, launched_le := Nat.succ_le_succ hle, parallel := ?_, nodup := ?_,
           flying := ?_, landed := ?_, calls := ?_, callsNodup := ?_, ended := ?_, answered := ?_, exhausted := ?_ }
  . rw [hadmitted, length_append, ← h.launched]
    rfl
  . simp only [Race.launch, length_append, length_singleton]
    omega
  . simp only [Race.launch, map_append, nodup_append, map_cons, map_nil, mem_singleton]
    refine ⟨h.nodup, by simp, ?_⟩
    intro i hi j hj heq
    obtain ⟨y, hy, rfl⟩ := mem_map.mp hi
    exact next_not_mem_admitted (heq.trans hj ▸ (h.flying y hy).admitted)
  . intro x hx
    cases mem_append.mp hx with
    | inl hx =>
      apply (h.flying x hx).extend hsub hcalls
      intro y hy hindex
      cases mem_append.mp hy with
      | inl hy => exact hy
      | inr hy =>
        cases mem_singleton.mp hy
        exact absurd (hindex ▸ (h.flying x hx).admitted) next_not_mem_admitted
    | inr hx =>
      cases mem_singleton.mp hx
      refine { admitted := hnew, pos := Nat.le_refl 1, le := hattempts, failed := ?_, tried := ?_, last := ?_ }
      . intro a hpos ha
        simp only at ha
        omega
      . intro a hpos ha
        simp only at ha
        rw [show a = 1 by omega]
        exact mem_append_right _ mem_cons_self
      . intro y hy hindex
        cases mem_append.mp hy with
        | inl hy => exact absurd hindex (hfresh y hy)
        | inr hy =>
          cases mem_singleton.mp hy
          exact Nat.le_refl 1
  . intro _ i hi
    rw [hadmitted] at hi
    cases mem_append.mp hi with
    | inl hi =>
      cases h.landed hrunning i hi with
      | inl hflying => exact .inl (by simp only [Race.launch, map_append]; exact mem_append_left _ hflying)
      | inr hexhausted => exact .inr (hexhausted.extend hcalls)
    | inr hi => exact .inl (by simp only [Race.launch, map_append]; exact mem_append_right _ hi)
  . intro x hx
    cases mem_append.mp hx with
    | inl hx => exact ⟨hsub (h.calls x hx).1, (h.calls x hx).2⟩
    | inr hx =>
      cases mem_singleton.mp hx
      exact ⟨hnew, Nat.le_refl 1, hattempts⟩
  . simp only [Race.launch, nodup_append, mem_singleton]
    refine ⟨h.callsNodup, by simp, ?_⟩
    intro y hy z hz heq
    subst heq
    exact hfresh y hy (by rw [hz])
  all_goals simp [Race.launch, hrunning]

theorem fill (h : c.Valid s) (hrunning : s.returned = none) (hfills : c.Fills s s') : c.Valid s' := by
  induction hfills with
  | stop => exact h
  | launch hlaunch hallow => exact h.launch hrunning hlaunch hallow
  | skip hlaunch hallow _ ih => exact ih (h.skip hrunning hlaunch hallow) hrunning

theorem finish {result : Except Error (Served ChatResponse)} (h : c.Valid s)
    (hanswered : ∀ served, result = .ok served →
      ∃ a, ⟨served.index, a⟩ ∈ s.calls ∧ c.chat served.index a = .ok served.response)
    (hexhausted : 1 ≤ c.gw.hedge.maxParallel → ∀ err, result = .error err → isTransient err = true →
      ∀ i ∈ c.candidates, c.Exhausted s i)
    : c.Valid (s.finish result) where
  next_le := h.next_le
  launched := h.launched
  launched_le := h.launched_le
  parallel := Nat.zero_le _
  nodup := nodup_nil
  flying := nofun
  landed := nofun
  calls := h.calls
  callsNodup := h.callsNodup
  ended := fun _ _ => rfl
  answered := fun served heq => hanswered served (Option.some.inj heq)
  exhausted := fun hparallel err heq => hexhausted hparallel err (Option.some.inj heq)

theorem turn (h : c.Valid s) (hrunning : s.returned = none) : c.Valid (c.turn s) := by
  have hfills : c.Fills s (c.fill s) := fills_fill s
  have hvalid := h.fill hrunning hfills
  have hstill : (c.fill s).returned = none := hfills.returned.trans hrunning
  unfold Contest.turn
  dsimp only
  split
  next hempty =>
    have hinflight : (c.fill s).inflight = [] := isEmpty_iff.mp hempty
    have hstop : c.canLaunch (c.fill s) = false := hfills.stopped.resolve_left (fun hne => hne hinflight)
    apply hvalid.finish
    . nofun
    . intro hparallel err _ _ i hi
      rw [← hvalid.admitted_eq_candidates hparallel hstop hinflight] at hi
      cases hvalid.landed hstill i hi with
      | inl hflying =>
        rw [hinflight] at hflying
        cases hflying
      | inr hexhausted => exact hexhausted
  next => exact hvalid

theorem retry {err : Error} (h : c.Valid s) (hrunning : s.returned = none) (hx : x ∈ s.inflight)
    (herr : c.chat x.index x.attempt = .error err) (htransient : isTransient err = true)
    (hmore : x.attempt < c.gw.retry.maxAttempts) : c.Valid (s.retry x) := by
  obtain ⟨front, back, hsplit, hfront, hback⟩ := split_inflight h.nodup hx
  have hinflight := retry_inflight hsplit hfront hback
  have hflying := h.flying x hx
  have hcalls : s.calls ⊆ (s.retry x).calls := subset_append_left _ _
  have hsame : c.admitted s ⊆ c.admitted (s.retry x) := fun _ hi => hi
  have hindices : (s.retry x).inflight.map Attempt.index = s.inflight.map Attempt.index := by
    rw [hinflight, hsplit]
    simp
  have hle : x.attempt + 1 ≤ c.attempts := Nat.le_trans hmore (Nat.le_max_right _ _)
  have hother : ∀ y ∈ s.inflight, y.index ≠ x.index → c.Flying (s.retry x) y := by
    intro y hy hne
    apply (h.flying y hy).extend hsame hcalls
    intro z hz hindex
    cases mem_append.mp hz with
    | inl hz => exact hz
    | inr hz =>
      cases mem_singleton.mp hz
      exact absurd hindex.symm hne
  have hnext : c.Flying (s.retry x) ⟨x.index, x.attempt + 1⟩ := by
    refine { admitted := hflying.admitted, pos := Nat.le_add_left _ _, le := hle, failed := ?_, tried := ?_, last := ?_ }
    . intro a hpos ha
      by_cases hlast : a = x.attempt
      . rw [hlast]
        exact ⟨err, herr, htransient⟩
      . simp only at ha
        exact hflying.failed a hpos (by omega)
    . intro a hpos ha
      by_cases hlast : a = x.attempt + 1
      . rw [hlast]
        exact mem_append_right _ mem_cons_self
      . simp only at ha
        exact hcalls (hflying.tried a hpos (by omega))
    . intro y hy hindex
      cases mem_append.mp hy with
      | inl hy => exact Nat.le_succ_of_le (hflying.last y hy hindex)
      | inr hy =>
        cases mem_singleton.mp hy
        exact Nat.le_refl _
  refine { next_le := h.next_le, launched := h.launched, launched_le := h.launched_le, parallel := ?_, nodup := ?_,
           flying := ?_, landed := ?_, calls := ?_, callsNodup := ?_, ended := ?_, answered := ?_, exhausted := ?_ }
  . rw [← length_map Attempt.index, hindices, length_map]
    exact h.parallel
  . rw [hindices]
    exact h.nodup
  . intro y hy
    rw [hinflight] at hy
    simp only [mem_append, mem_cons] at hy
    rcases hy with hy | rfl | hy
    . exact hother y (by simp [hsplit, hy]) (hfront y hy)
    . exact hnext
    . exact hother y (by simp [hsplit, hy]) (hback y hy)
  . intro _ i hi
    rw [hindices]
    exact (h.landed hrunning i hi).imp_right fun hexhausted => hexhausted.extend hcalls
  . intro y hy
    cases mem_append.mp hy with
    | inl hy => exact h.calls y hy
    | inr hy =>
      cases mem_singleton.mp hy
      exact ⟨hflying.admitted, Nat.le_add_left _ _, hle⟩
  . simp only [Race.retry, nodup_append, mem_singleton]
    refine ⟨h.callsNodup, by simp, ?_⟩
    intro y hy z hz heq
    have hlast := hflying.last y hy (by rw [heq, hz])
    rw [heq, hz] at hlast
    simp only at hlast
    omega
  all_goals simp [Race.retry, hrunning]

theorem fail {err : Error} (h : c.Valid s) (hrunning : s.returned = none) (hx : x ∈ s.inflight)
    (herr : c.chat x.index x.attempt = .error err) (htransient : isTransient err = true)
    (hmore : ¬x.attempt < c.gw.retry.maxAttempts) : c.Valid (s.fail x err) := by
  obtain ⟨front, back, hsplit, hfront, hback⟩ := split_inflight h.nodup hx
  have hinflight : (s.fail x err).inflight = front ++ back := fail_inflight hsplit hfront hback
  have hflying := h.flying x hx
  have hsub : ∀ y ∈ front ++ back, y ∈ s.inflight := by
    intro y hy
    rw [hsplit]
    simp only [mem_append, mem_cons] at hy ⊢
    exact hy.imp_right .inr
  have hlast : c.attempts = x.attempt := by
    have hle := hflying.le
    have hpos := hflying.pos
    unfold attempts at hle ⊢
    omega
  have hexhausted : c.Exhausted s x.index := by
    rw [Exhausted, hlast]
    refine ⟨?_, hflying.tried⟩
    intro a hpos ha
    by_cases heq : a = x.attempt
    . rw [heq]
      exact ⟨err, herr, htransient⟩
    . exact hflying.failed a hpos (by omega)
  refine { next_le := h.next_le, launched := h.launched, launched_le := h.launched_le, parallel := ?_, nodup := ?_,
           flying := ?_, landed := ?_, calls := h.calls, callsNodup := h.callsNodup, ended := ?_, answered := ?_, exhausted := ?_ }
  . have hparallel := h.parallel
    rw [hsplit] at hparallel
    rw [hinflight]
    simp only [length_append, length_cons] at hparallel ⊢
    omega
  . have hnodup := h.nodup
    rw [hsplit] at hnodup
    rw [hinflight]
    simp only [map_append, map_cons, nodup_append, nodup_cons, mem_cons] at hnodup ⊢
    exact ⟨hnodup.1, hnodup.2.1.2, fun i hi j hj => hnodup.2.2 i hi j (.inr hj)⟩
  . intro y hy
    rw [hinflight] at hy
    exact (h.flying y (hsub y hy)).extend (fun _ hi => hi) (fun _ hz => hz) (fun _ hz _ => hz)
  . intro _ i hi
    rw [hinflight]
    cases h.landed hrunning i hi with
    | inr hexhausted => exact .inr hexhausted
    | inl hmem =>
      rw [hsplit] at hmem
      simp only [map_append, map_cons, mem_append, mem_cons] at hmem ⊢
      rcases hmem with hmem | rfl | hmem
      . exact .inl (.inl hmem)
      . exact .inr hexhausted
      . exact .inl (.inr hmem)
  all_goals simp [Race.fail, hrunning]

theorem running (h : c.Valid s) (hx : x ∈ s.inflight) : s.returned = none := by
  cases hreturned : s.returned with
  | none => rfl
  | some result =>
    rw [h.ended result hreturned] at hx
    cases hx

theorem ends (h : c.Valid s) (hx : x ∈ s.inflight) : c.Valid (c.ends s x) := by
  have hrunning := h.running hx
  unfold Contest.ends
  split
  next response hok =>
    apply h.finish
    . intro served heq
      cases heq
      exact ⟨x.attempt, (h.flying x hx).tried x.attempt (h.flying x hx).pos (Nat.le_refl _), hok⟩
    . nofun
  next err herr =>
    split
    next hpermanent =>
      apply h.finish
      . nofun
      . intro _ err' heq htransient
        cases heq
        rw [htransient] at hpermanent
        cases hpermanent
    next htransient =>
      have htransient : isTransient err = true := by simpa using htransient
      split
      next hmore => exact h.retry hrunning hx herr htransient hmore
      next hmore => exact (h.fail hrunning hx herr htransient hmore).turn hrunning

end Valid

theorem turn_busy (s : Race) (h : (c.turn s).returned = none) : (c.turn s).inflight ≠ [] := by
  unfold turn at h ⊢
  dsimp only at h ⊢
  split at h
  . cases h
  next hne =>
    rw [if_neg hne]
    simpa using hne

theorem ends_busy (hx : x ∈ s.inflight) (h : (c.ends s x).returned = none) : (c.ends s x).inflight ≠ [] := by
  unfold ends at h ⊢
  split
  next hok =>
    rw [hok] at h
    cases h
  next err herr =>
    simp only [herr] at h
    split
    next hpermanent =>
      rw [if_pos hpermanent] at h
      cases h
    next htransient =>
      rw [if_neg htransient] at h
      split
      next hmore =>
        simp only [Race.retry, ne_eq, map_eq_nil_iff]
        exact ne_nil_of_mem hx
      next hmore =>
        rw [if_neg hmore] at h
        exact turn_busy _ h

theorem step_cases {m : Move} (h : c.step s m = some s')
    : (∃ x ∈ s.inflight, s' = c.ends s x)
        ∨ s.returned = none ∧ c.canLaunch s = true ∧ s' = c.turn s := by
  cases m with
  | ends index =>
    simp only [step, Option.map_eq_some_iff] at h
    obtain ⟨x, hfind, rfl⟩ := h
    exact .inl ⟨x, mem_of_find?_eq_some hfind, rfl⟩
  | hedge =>
    simp only [step, Option.ite_none_right_eq_some, Bool.and_eq_true, Option.isNone_iff_eq_none, Option.some.injEq] at h
    exact .inr ⟨h.1.1, h.1.2, h.2.symm⟩

theorem Valid.step {m : Move} (h : c.Valid s) (hstep : c.step s m = some s') : c.Valid s' := by
  cases step_cases hstep with
  | inl hends =>
    obtain ⟨x, hx, rfl⟩ := hends
    exact h.ends hx
  | inr hhedge =>
    obtain ⟨hrunning, -, rfl⟩ := hhedge
    exact h.turn hrunning

theorem step_busy {m : Move} (hstep : c.step s m = some s') (h : s'.returned = none) : s'.inflight ≠ [] := by
  cases step_cases hstep with
  | inl hends =>
    obtain ⟨x, hx, rfl⟩ := hends
    exact ends_busy hx h
  | inr hhedge =>
    obtain ⟨-, -, rfl⟩ := hhedge
    exact turn_busy s h

theorem Reaches.valid {moves : List Move} (h : c.Reaches moves s) : c.Valid s :=
  Run.invariant (fun _ _ _ hvalid hstep => hvalid.step hstep) h ((Valid.start).turn rfl)

theorem Reaches.busy {moves : List Move} (h : c.Reaches moves s) (hrunning : s.returned = none) : s.inflight ≠ [] :=
  Run.invariant (P := fun s => s.returned = none → s.inflight ≠ []) (fun _ _ _ _ hstep => step_busy hstep) h
    (turn_busy {}) hrunning

section

variable (c)

/-- How many attempts and candidates are left. -/
def remaining (s : Race) : Nat :=
  (c.gw.providers - s.next) * (c.attempts + 1) + (s.inflight.map fun x => c.attempts + 1 - x.attempt).sum

def bound (s : Race) : Nat :=
  if s.returned.isSome then 0 else c.remaining s

end

theorem Fills.remaining_le (h : c.Fills s s')
    : c.remaining s' ≤ c.remaining s ∧ (c.canLaunch s = true → c.remaining s' < c.remaining s) := by
  have hleft (s : Race) (hlaunch : c.canLaunch s = true) : (c.gw.providers - s.next) * (c.attempts + 1)
      = (c.gw.providers - (s.next + 1)) * (c.attempts + 1) + (c.attempts + 1) := by
    have hnext := ((canLaunch_iff).mp hlaunch).2.2
    rw [← Nat.succ_mul]
    congr 1
    omega
  induction h with
  | stop hstop =>
    refine ⟨Nat.le_refl _, ?_⟩
    intro hlaunch
    rw [hstop] at hlaunch
    cases hlaunch
  | @launch s hlaunch hallow =>
    have hlt : c.remaining s.launch < c.remaining s := by
      simp only [remaining, Race.launch, map_append, sum_append, map_cons, map_nil, sum_cons,
        sum_nil, hleft s hlaunch]
      omega
    exact ⟨Nat.le_of_lt hlt, fun _ => hlt⟩
  | @skip s s' hlaunch hallow _ ih =>
    have hlt : c.remaining { s with next := s.next + 1 } < c.remaining s := by
      simp only [remaining, hleft s hlaunch]
      omega
    exact ⟨Nat.le_trans ih.1 (Nat.le_of_lt hlt), fun _ => Nat.lt_of_le_of_lt ih.1 hlt⟩

theorem bound_turn (s : Race) : c.bound (c.turn s) ≤ c.remaining (c.fill s) := by
  unfold turn
  dsimp only
  split
  . exact Nat.zero_le _
  . unfold bound
    split
    . exact Nat.zero_le _
    . exact Nat.le_refl _

theorem Valid.bound_ends (h : c.Valid s) (hx : x ∈ s.inflight) : c.bound (c.ends s x) < c.bound s := by
  have hrunning : c.bound s = c.remaining s := by
    unfold bound
    rw [h.running hx]
    rfl
  obtain ⟨front, back, hsplit, hfront, hback⟩ := split_inflight h.nodup hx
  have hle := (h.flying x hx).le
  have hsum : c.remaining s = (c.gw.providers - s.next) * (c.attempts + 1)
      + ((front.map fun x => c.attempts + 1 - x.attempt).sum + ((c.attempts + 1 - x.attempt)
        + (back.map fun x => c.attempts + 1 - x.attempt).sum)) := by
    unfold remaining
    rw [hsplit]
    simp
  rw [hrunning]
  unfold Contest.ends
  split
  . show 0 < _
    omega
  next err herr =>
    split
    . show 0 < _
      omega
    . split
      next hmore =>
        have hretry : c.bound (s.retry x) ≤ c.remaining (s.retry x) := by
          unfold bound
          split
          . exact Nat.zero_le _
          . exact Nat.le_refl _
        apply Nat.lt_of_le_of_lt hretry
        unfold remaining at hsum ⊢
        rw [hsum, retry_inflight hsplit hfront hback]
        simp only [map_append, map_cons, sum_append, sum_cons, Race.retry]
        omega
      next =>
        apply Nat.lt_of_le_of_lt (bound_turn _)
        apply Nat.lt_of_le_of_lt (fills_fill (s.fail x err)).remaining_le.1
        unfold remaining at hsum ⊢
        rw [hsum, fail_inflight hsplit hfront hback]
        simp only [map_append, sum_append, Race.fail]
        omega

theorem Valid.bound_step {m : Move} (h : c.Valid s) (hstep : c.step s m = some s') : c.bound s' < c.bound s := by
  cases step_cases hstep with
  | inl hends =>
    obtain ⟨x, hx, rfl⟩ := hends
    exact h.bound_ends hx
  | inr hhedge =>
    obtain ⟨hrunning, hlaunch, rfl⟩ := hhedge
    apply Nat.lt_of_le_of_lt (bound_turn s)
    apply Nat.lt_of_lt_of_eq ((fills_fill s).remaining_le.2 hlaunch)
    unfold bound
    rw [hrunning]
    rfl

theorem Reaches.length_le {moves : List Move} (h : c.Reaches moves s)
    : moves.length ≤ c.gw.providers * (c.attempts + 1) := by
  have hgo (s s' : Race) (moves : List Move) (hvalid : c.Valid s)
      (h : Run (fun s m s' => c.step s m = some s') s moves s') : moves.length + c.bound s' ≤ c.bound s := by
    induction h with
    | nil => simp
    | cons hstep _ ih =>
      have hrest := ih (hvalid.step hstep)
      have hless := hvalid.bound_step hstep
      rw [length_cons]
      omega
  have hstart := hgo c.start s moves ((Valid.start).turn rfl) h
  have hbound : c.bound c.start ≤ c.remaining {} := Nat.le_trans (bound_turn {}) (fills_fill {}).remaining_le.1
  have hremaining : c.remaining {} = c.gw.providers * (c.attempts + 1) := by simp [remaining]
  omega

section

variable (c)

/-- What failover returns that goes on where the race is, with nothing in flight. -/
def sequentialAt (s : Race) : Except Error (Served ChatResponse) :=
  failover c.gw.maxFailovers c.allow (fun i => c.tryProvider i 1) s.launched s.lastErr
    (range' s.next (c.gw.providers - s.next))

/-- What failover returns that goes on where the race is, with this attempt in flight. -/
def resume (s : Race) (x : Attempt) : Except Error (Served ChatResponse) :=
  match c.tryProvider x.index x.attempt with
  | .ok response => .ok ⟨x.index, response⟩
  | .error (err, transient) =>
    if !transient then .error err else c.sequentialAt { s with lastErr := some err }

/-- The race can only return what failover does. -/
structure Follows (s : Race) : Prop where
  returned : ∀ result, s.returned = some result → result = c.dispatchSequential
  running : s.returned = none → ∃ x, s.inflight = [x] ∧ c.resume s x = c.dispatchSequential

end

theorem range'_next (h : s.next < c.gw.providers) : range' s.next (c.gw.providers - s.next)
    = s.next :: range' (s.next + 1) (c.gw.providers - (s.next + 1)) := by
  rw [show c.gw.providers - s.next = (c.gw.providers - (s.next + 1)) + 1 by omega, range'_succ]

theorem sequentialAt_stop (hsingle : c.gw.hedge.maxParallel = 1) (hempty : s.inflight = [])
    (hstop : c.canLaunch s = false) : c.sequentialAt s = .error (s.lastErr.getD noHealthy) := by
  unfold sequentialAt
  by_cases hnext : s.next < c.gw.providers
  . have hspent : s.launched > c.gw.maxFailovers := by
      by_contra hle
      have hlaunch : c.canLaunch s = true :=
        (canLaunch_iff).mpr ⟨by rw [hempty, hsingle]; exact Nat.one_pos, Nat.le_of_not_lt hle, hnext⟩
      rw [hlaunch] at hstop
      cases hstop
    rw [range'_next hnext, failover, if_pos hspent]
  . rw [show c.gw.providers - s.next = 0 by omega]
    rfl

theorem Fills.sequentialAt (hsingle : c.gw.hedge.maxParallel = 1) (hempty : s.inflight = []) (h : c.Fills s s')
    : (s'.inflight = [] ∧ c.sequentialAt s = .error (s'.lastErr.getD noHealthy))
        ∨ ∃ x, s'.inflight = [x] ∧ c.resume s' x = c.sequentialAt s := by
  induction h with
  | stop hstop => exact .inl ⟨hempty, sequentialAt_stop hsingle hempty hstop⟩
  | @launch s hlaunch hallow =>
    obtain ⟨-, hle, hnext⟩ := (canLaunch_iff).mp hlaunch
    refine .inr ⟨⟨s.next, 1⟩, by simp [Race.launch, hempty], ?_⟩
    rw [Contest.sequentialAt, range'_next hnext, failover, if_neg (Nat.not_lt.mpr hle)]
    simp only [hallow, Bool.not_true, Bool.false_eq_true, if_false, resume]
    cases c.tryProvider s.next 1 with
    | ok response => rfl
    | error e => rfl
  | @skip s s' hlaunch hallow _ ih =>
    obtain ⟨-, hle, hnext⟩ := (canLaunch_iff).mp hlaunch
    have hskip : c.sequentialAt s = c.sequentialAt { s with next := s.next + 1 } := by
      rw [Contest.sequentialAt, range'_next hnext, failover, if_neg (Nat.not_lt.mpr hle)]
      simp only [hallow, Bool.not_false, if_true]
      rfl
    rw [hskip]
    exact ih hempty

theorem Follows.turn (hsingle : c.gw.hedge.maxParallel = 1) (hempty : s.inflight = []) (hrunning : s.returned = none)
    (h : c.sequentialAt s = c.dispatchSequential) : c.Follows (c.turn s) := by
  have hfills : c.Fills s (c.fill s) := fills_fill s
  unfold Contest.turn
  dsimp only
  cases hfills.sequentialAt hsingle hempty with
  | inl hover =>
    rw [hover.1, isEmpty_nil, if_pos rfl]
    refine { returned := ?_, running := nofun }
    intro result heq
    cases heq
    rw [← hover.2]
    exact h
  | inr hflying =>
    obtain ⟨x, hx, hresume⟩ := hflying
    rw [hx, isEmpty_cons, if_neg Bool.false_ne_true]
    refine { returned := ?_, running := fun _ => ⟨x, hx, hresume.trans h⟩ }
    rw [hfills.returned, hrunning]
    nofun

theorem Follows.step {m : Move} (hsingle : c.gw.hedge.maxParallel = 1) (hvalid : c.Valid s) (h : c.Follows s)
    (hstep : c.step s m = some s') : c.Follows s' := by
  cases step_cases hstep with
  | inr hhedge =>
    obtain ⟨hrunning, hlaunch, -⟩ := hhedge
    obtain ⟨x, hx, -⟩ := h.running hrunning
    have hlength := ((canLaunch_iff).mp hlaunch).1
    rw [hx, hsingle] at hlength
    exact absurd hlength (Nat.lt_irrefl 1)
  | inl hends =>
    obtain ⟨x, hx, rfl⟩ := hends
    have hrunning := hvalid.running hx
    obtain ⟨x', hx', hresume⟩ := h.running hrunning
    rw [hx', mem_singleton] at hx
    subst hx
    unfold resume at hresume
    rw [tryProvider] at hresume
    unfold ends
    split
    next response hok =>
      simp only [hok] at hresume
      refine { returned := ?_, running := nofun }
      intro result heq
      cases heq
      exact hresume
    next err herr =>
      simp only [herr] at hresume
      split
      next hpermanent =>
        simp only [hpermanent, if_true, Bool.not_false] at hresume
        refine { returned := ?_, running := nofun }
        intro result heq
        cases heq
        exact hresume
      next htransient =>
        rw [if_neg htransient] at hresume
        split
        next hmore =>
          rw [if_pos hmore] at hresume
          refine { returned := ?_, running := fun _ => ⟨⟨x.index, x.attempt + 1⟩, ?_, hresume⟩ }
          . simp [Race.retry, hrunning]
          . simp [Race.retry, hx']
        next hmore =>
          simp only [if_neg hmore, Bool.not_true, Bool.false_eq_true, if_false] at hresume
          have hfail : c.sequentialAt (s.fail x err) = c.dispatchSequential := hresume
          apply Follows.turn (s := s.fail x err) hsingle _ hrunning hfail
          simp [Race.fail, hx']

theorem Reaches.follows {moves : List Move} (hsingle : c.gw.hedge.maxParallel = 1) (h : c.Reaches moves s)
    : c.Follows s := by
  have hstart : c.sequentialAt {} = c.dispatchSequential := by
    unfold sequentialAt dispatchSequential
    rw [range_eq_range']
    rfl
  have hboth : c.Valid s ∧ c.Follows s :=
    Run.invariant (P := fun s => c.Valid s ∧ c.Follows s)
      (fun _ _ _ hboth hstep => ⟨hboth.1.step hstep, hboth.2.step hsingle hboth.1 hstep⟩) h
      ⟨(Valid.start).turn rfl, Follows.turn hsingle rfl rfl hstart⟩
  exact hboth.2

namespace Valid

theorem distinct (h : c.Valid s) : (s.calls.map Attempt.index).dedup.length ≤ c.gw.maxFailovers + 1 := by
  apply Nat.le_trans _ h.launched_le
  rw [h.launched]
  apply List.Subperm.length_le
  apply subperm_of_subset (nodup_dedup _)
  intro i hi
  obtain ⟨x, hx, rfl⟩ := mem_map.mp (mem_dedup.mp hi)
  exact (h.calls x hx).1

theorem retried (h : c.Valid s) (index : Nat) : (s.calls.filter fun x => x.index = index).length ≤ c.attempts := by
  have hnodup : ((s.calls.filter fun x => x.index = index).map Attempt.attempt).Nodup := by
    apply List.Nodup.map_on _ (h.callsNodup.filter _)
    rintro ⟨i, a⟩ hx ⟨j, b⟩ hy heq
    have hi := (mem_filter.mp hx).2
    have hj := (mem_filter.mp hy).2
    simp only [decide_eq_true_eq] at hi hj heq
    rw [hi, hj, heq]
  have hsub : (s.calls.filter fun x => x.index = index).map Attempt.attempt ⊆ range' 1 c.attempts := by
    intro a ha
    obtain ⟨x, hx, rfl⟩ := mem_map.mp ha
    obtain ⟨-, hpos, hle⟩ := h.calls x (mem_filter.mp hx).1
    rw [mem_range'_1]
    omega
  have hlength := (subperm_of_subset hnodup hsub).length_le
  rw [length_map, length_range'] at hlength
  exact hlength

end Valid

end

/-- What is asked of a race after any moves. -/
structure Safe (moves : List Move) (s : Race) : Prop where
  terminates : moves.length ≤ c.gw.providers * (c.attempts + 1)
  -- The end of any attempt in flight brings the race on, and there is one until the race has returned.
  progress : s.returned = none → s.inflight ≠ [] ∧ ∀ x ∈ s.inflight, c.step s (.ends x.index) ≠ none
  ended : s.returned ≠ none → ∀ m, c.step s m = none
  parallel : s.inflight.length ≤ c.gw.hedge.maxParallel
  launched : (s.calls.map Attempt.index).dedup.length ≤ c.gw.maxFailovers + 1
  attempts : ∀ index, (s.calls.filter fun x => x.index = index).length ≤ max 1 c.gw.retry.maxAttempts
  ok : ∀ served, s.returned = some (.ok served) →
    ∃ a, ⟨served.index, a⟩ ∈ s.calls ∧ c.chat served.index a = .ok served.response
  transient : ∀ err, s.returned = some (.error err) → isTransient err = true → ∀ index ∈ c.candidates,
    ∀ a, 1 ≤ a → a ≤ max 1 c.gw.retry.maxAttempts →
      ⟨index, a⟩ ∈ s.calls ∧ ∃ err, c.chat index a = .error err ∧ isTransient err = true
  sequential : c.gw.hedge.maxParallel = 1 → ∀ result, s.returned = some result → result = c.dispatchSequential

theorem dispatchHedged_safe (hparallel : 1 ≤ c.gw.hedge.maxParallel) {moves : List Move} {s : Race}
    (h : c.Reaches moves s) : c.Safe moves s := by
  have hvalid := h.valid
  refine { terminates := h.length_le, progress := ?_, ended := ?_, parallel := hvalid.parallel,
           launched := hvalid.distinct, attempts := hvalid.retried, ok := hvalid.answered, transient := ?_,
           sequential := fun hsingle => (h.follows hsingle).returned }
  . intro hrunning
    refine ⟨h.busy hrunning, ?_⟩
    intro x hx hnone
    simp only [step, Option.map_eq_none_iff, find?_eq_none] at hnone
    exact hnone x hx (beq_self_eq_true _)
  . intro hreturned m
    obtain ⟨result, hresult⟩ := Option.ne_none_iff_exists'.mp hreturned
    have hempty := hvalid.ended result hresult
    cases m with
    | ends index => simp [step, hempty]
    | hedge => simp [step, hresult]
  . intro err hresult htransient index hindex a hpos hle
    obtain ⟨hfailed, htried⟩ := hvalid.exhausted hparallel err hresult htransient index hindex
    exact ⟨htried a hpos hle, hfailed a hpos hle⟩

def answer : ChatResponse :=
  { message := .assistant "ok", model := "m", usage := { costUsd := 1 }, finishReason := "stop" }

def secondAnswers : Contest where
  gw := { providers := 2, retry := { maxAttempts := 1 }, hedge := { enabled := true } }
  allow := fun _ => true
  chat := fun index _ => if index = 1 then .ok answer else .error (.provider "unavailable" none)

theorem secondAnswers_reaches : secondAnswers.Reaches [.hedge, .ends 1] {
    next := 2
    launched := 2
    returned := some (.ok ⟨1, answer⟩)
    calls := [⟨0, 1⟩, ⟨1, 1⟩] } := by
  have hstart : secondAnswers.start
      = { next := 1, launched := 1, inflight := [⟨0, 1⟩], calls := [⟨0, 1⟩] } := by
    simp [start, turn, fill, canLaunch, Race.launch, secondAnswers]
  have hhedge : secondAnswers.step secondAnswers.start .hedge
      = some { next := 2, launched := 2, inflight := [⟨0, 1⟩, ⟨1, 1⟩], calls := [⟨0, 1⟩, ⟨1, 1⟩] } := by
    rw [hstart]
    simp [step, turn, fill, canLaunch, Race.launch, secondAnswers]
  exact .cons hhedge (.cons rfl (.nil _))

theorem dispatchHedged_safe_second
    : ∃ s, s.returned = some (.ok ⟨1, answer⟩) ∧ secondAnswers.Safe [.hedge, .ends 1] s :=
  ⟨_, rfl, secondAnswers.dispatchHedged_safe (by decide) secondAnswers_reaches⟩

end Wovyr.Provider.Contest
