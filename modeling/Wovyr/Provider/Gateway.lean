import Wovyr.Provider.Breaker

/-!
This module contains the dispatch of chat calls over the candidates of a gateway. All calls share
the breakers, and a call can be dropped between any two moves.
-/

namespace Wovyr.Provider

inductive Phase where
  | admitted
  | calling
  -- The backoff before the next attempt.
  | sleeping (untilMs : Nat)
deriving DecidableEq

structure Call where
  dispatch : Nat
  index : Nat
  attempt : Nat
  phase : Phase
  -- The period of the breaker in which it let the call in.
  period : Nat

def Call.inFlight (c : Call) : Bool :=
  c.phase == .admitted || c.phase == .calling

structure Dispatch where
  maxParallel : Nat
  maxAttempts : Nat
  delayMs : Nat
  next : Nat := 0
  hops : Nat := 0
  -- The next candidate is looked for, or this is when a hedge may be launched.
  wait : Option Nat := none

structure RetryConfig where
  maxAttempts : Nat := 3

structure HedgeConfig where
  enabled : Bool := false
  delayMs : Nat := 800
  maxParallel : Nat := 2

structure Gateway where
  providers : Nat
  breaker : BreakerConfig := .standard
  retry : RetryConfig := {}
  hedge : HedgeConfig := {}
  maxFailovers : Nat := 2

namespace Gateway

variable (gw : Gateway)

def dispatchSequential : Dispatch :=
  { maxParallel := 1, maxAttempts := gw.retry.maxAttempts, delayMs := 0 }

def dispatchHedged : Dispatch :=
  { maxParallel := gw.hedge.maxParallel
    maxAttempts := gw.retry.maxAttempts
    delayMs := gw.hedge.delayMs }

def chat : Dispatch :=
  if gw.hedge.enabled then gw.dispatchHedged else gw.dispatchSequential

-- What fails before its stream begins is not retried.
def chatStream : Dispatch :=
  { maxParallel := 1, maxAttempts := 1, delayMs := 0 }

structure State where
  nowMs : Nat := 0
  lanes : Nat → Lane := fun _ => {}
  dispatches : Nat → Option Dispatch := fun _ => none
  calls : List Call := []

namespace State

variable (s : State)

def inflight (d : Nat) : Nat :=
  s.calls.countP fun c => c.dispatch == d

def canLaunch (d : Nat) (x : Dispatch) : Bool :=
  decide (s.inflight d < x.maxParallel) && decide (x.hops ≤ gw.maxFailovers) && decide (x.next < gw.providers)

def slots (p : Nat) : Nat :=
  s.calls.countP fun c => c.index == p && c.period == (s.lanes p).period

def slotsOf (d p : Nat) : Nat :=
  s.calls.countP fun c => c.dispatch == d && (c.index == p && c.period == (s.lanes p).period)

def setLane (p : Nat) (l : Lane) : State :=
  { s with lanes := Function.update s.lanes p l }

def setDispatch (d : Nat) (x : Dispatch) : State :=
  { s with dispatches := Function.update s.dispatches d (some x) }

def finish (d : Nat) : State :=
  { s with
    lanes := fun p => (s.lanes p).lose (s.slotsOf d p)
    dispatches := Function.update s.dispatches d none
    calls := s.calls.filter fun c => c.dispatch != d }

def launch (d : Nat) (x : Dispatch) : State :=
  let (allowed, lane) := (s.lanes x.next).allow gw.breaker s.nowMs
  if allowed then
    let call : Call := { dispatch := d, index := x.next, attempt := 1, phase := .admitted, period := lane.period }
    { s with calls := s.calls ++ [call] }.setLane x.next lane
      |>.setDispatch d { x with next := x.next + 1, hops := x.hops + 1, wait := some (s.nowMs + x.delayMs) }
  else
    (s.setLane x.next lane).setDispatch d { x with next := x.next + 1 }

def consider (d : Nat) (x : Dispatch) : State :=
  if s.canLaunch gw d x then
    s.launch gw d x
  else if s.inflight d = 0 then
    s.finish d
  else
    s.setDispatch d { x with wait := some (s.nowMs + x.delayMs) }

def begins (k : Nat) (c : Call) (own : Bool) : State :=
  { s with calls := s.calls.set k c }.setLane c.index ((s.lanes c.index).start s.nowMs own)

def succeed (k : Nat) (c : Call) : State :=
  ({ s with calls := s.calls.eraseIdx k }.setLane c.index (s.lanes c.index).onSuccess).finish c.dispatch

def failTransient (k : Nat) (c : Call) (x : Dispatch) (delayMs : Nat) : State :=
  let s' := s.setLane c.index ((s.lanes c.index).onFailure gw.breaker s.nowMs)
  if c.attempt < x.maxAttempts then
    { s' with calls := s.calls.set k { c with phase := .sleeping (s.nowMs + delayMs) } }
  else
    { s' with calls := s.calls.eraseIdx k }.setDispatch c.dispatch { x with wait := none }

end State

inductive Move where
  | tick (nowMs : Nat)
  | chat (d : Nat)
  | chatStream (d : Nat)
  | consider (d : Nat)
  | hedge (d : Nat)
  | start (k : Nat)
  | wake (k : Nat)
  | succeed (k : Nat)
  | transient (k : Nat) (retryAfterMs : Option Nat) (jitterMs : Nat)
  | permanent (k : Nat)
  | drop (d : Nat)

-- A move that is not possible in a state changes nothing.
def step (s : State) : Move → State
  | .tick nowMs => if s.nowMs ≤ nowMs ∧ nowMs < 2 ^ 64 then { s with nowMs } else s
  | .chat d => if (s.dispatches d).isNone then s.setDispatch d gw.chat else s
  | .chatStream d => if (s.dispatches d).isNone then s.setDispatch d chatStream else s
  | .consider d =>
    match s.dispatches d with
    | some x => if x.wait.isNone then s.consider gw d x else s
    | none => s
  | .hedge d =>
    match s.dispatches d with
    | some x =>
      if (∃ t ∈ x.wait, t ≤ s.nowMs) ∧ s.canLaunch gw d x = true then
        s.setDispatch d { x with wait := none }
      else
        s
    | none => s
  | .start k =>
    match s.calls[k]? with
    | some c =>
      if c.phase = .admitted then
        s.begins k { c with phase := .calling } (c.period == (s.lanes c.index).period)
      else
        s
    | none => s
  | .wake k =>
    match s.calls[k]? with
    | some c =>
      match c.phase with
      | .sleeping untilMs =>
        if untilMs ≤ s.nowMs then
          s.begins k { c with phase := .calling, attempt := c.attempt + 1 } false
        else
          s
      | _ => s
    | none => s
  | .succeed k =>
    match s.calls[k]? with
    | some c => if c.phase = .calling then s.succeed k c else s
    | none => s
  | .transient k retryAfterMs jitterMs =>
    match s.calls[k]? with
    | some c =>
      match s.dispatches c.dispatch with
      | some x => if c.phase = .calling then s.failTransient gw k c x (retryAfterMs.getD jitterMs) else s
      | none => s
    | none => s
  | .permanent k =>
    match s.calls[k]? with
    | some c => if c.phase = .calling then s.finish c.dispatch else s
    | none => s
  | .drop d => if (s.dispatches d).isSome then s.finish d else s

def after (moves : List Move) : State :=
  moves.foldl gw.step {}

def oneProvider (halfOpenMaxCalls : Nat) (h : halfOpenMaxCalls < 2 ^ 32 := by decide) : Gateway :=
  { providers := 1
    breaker := { BreakerConfig.strict with halfOpenMaxCalls, halfOpenMaxCalls_lt := h }
    retry := { maxAttempts := 1 } }

end Wovyr.Provider.Gateway
