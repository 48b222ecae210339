import Wovyr.Lib.Map
import Wovyr.Lib.Prog
import Wovyr.Workflow.Condition

/-!
This module contains the world of the engine and its primitive actions. The stores do not fail, but
the process can stop before any write to them.
-/

namespace Wovyr.Workflow

structure ActivityContext where
  id : String
  activityType : String
  name : Option String
  inputs : Value
  vars : Variables
  attempt : Nat

inductive ActivityError where
  | retryable (msg : String)
  | permanent (msg : String)
  | interrupted (msg : String)
deriving Repr, DecidableEq, Inhabited

def ActivityError.display : ActivityError → String
  | .retryable m => "retryable: " ++ m
  | .permanent m => "permanent: " ++ m
  | .interrupted m => "interrupted: " ++ m

inductive Reply where
  | output (value : Value)
  | error (e : ActivityError)
  | panic (reason : String)
deriving Repr, DecidableEq, Inhabited

structure Reaction (ω : Type) where
  executor : ω
  progress : List String
  reply : Reply

inductive Backend where
  | memory
  | file
deriving Repr, DecidableEq, Inhabited

def stemChar (c : Char) : Char :=
  if c.isAlphanum || c == '-' || c == '_' then c else '_'

namespace Backend

def keyChars : Backend → List Char → List Char
  | .memory => id
  | .file => List.map stemChar

def key (backend : Backend) (executionId : String) : String :=
  String.ofList (backend.keyChars executionId.toList)

end Backend

structure Engine (ω : Type) where
  platform : Platform
  backend : Backend
  execute : ω → ActivityContext → Reaction ω
  nowMillis : ω → Nat
  timers : Bool
  subworkflows : Option (ω → String → Option Definition)
  maxSubworkflowDepth : Nat := 16
  maxActivityOutputBytes : Nat := 1024 * 1024

structure PendingTimer where
  executionId : String
  timerId : String
  fireAtMs : Nat
deriving Repr, DecidableEq, Inhabited

structure Call where
  executionId : String
  rollback : Bool
  context : ActivityContext
  reply : Reply

structure World (ω : Type) where
  executor : ω
  events : Std.ExtTreeMap String (List WorkflowEvent) := ∅
  checkpoints : Std.ExtTreeMap String ExecutionState := ∅
  timers : List PendingTimer := []
  calls : List Call := []
  writes : Nat
  picks : List Nat := []

namespace World

variable {ω : Type} (e : Engine ω)

def append (w : World ω) (executionId : String) (event : WorkflowEvent) : World ω :=
  let key := e.backend.key executionId
  { w with events := w.events.insert key (w.events[key]?.getD [] ++ [event]) }

def save (w : World ω) (state : ExecutionState) : World ω :=
  { w with checkpoints := w.checkpoints.insert (e.backend.key state.executionId) state }

def latest (w : World ω) (executionId : String) : Option ExecutionState :=
  w.checkpoints[e.backend.key executionId]?

def schedule (w : World ω) (timer : PendingTimer) : World ω :=
  { w with
    timers := w.timers.filter
      (fun t => !(t.executionId == timer.executionId && t.timerId == timer.timerId)) ++ [timer] }

def cancelTimer (w : World ω) (executionId timerId : String) : World ω :=
  { w with
    timers := w.timers.filter
      fun t => !(t.executionId == executionId && t.timerId == timerId) }

def react (w : World ω) (executionId : String) (rollback : Bool) (context : ActivityContext)
    : World ω :=
  let reaction := e.execute w.executor context
  { w with
    executor := reaction.executor
    calls := w.calls ++ [⟨executionId, rollback, context, reaction.reply⟩] }

end World

structure Process (ω : Type) where
  executor : ω
  gas : Nat
  writes : Nat
  picks : List Nat := []

def World.boot {ω : Type} (w : World ω) (process : Process ω) : World ω :=
  { w with executor := process.executor, writes := process.writes, picks := process.picks }

abbrev Action (ω α : Type) := Prog (World ω) Error α

namespace Engine

variable {ω : Type} (e : Engine ω)

-- The process stops instead of the write that is one too many.
def persist (f : World ω → World ω) : Action ω Unit :=
  fun w => if w.writes = 0 then (.halted, w) else (.ok (), f { w with writes := w.writes - 1 })

def emit (state : ExecutionState) (event : WorkflowEvent) : Action ω ExecutionState := do
  persist (·.append e state.executionId event)
  return { state with version := state.version + 1 }

def emitAll (state : ExecutionState) : List WorkflowEvent → Action ω ExecutionState
  | [] => return state
  | event :: events => do
    let state ← e.emit state event
    emitAll state events

def checkpoint (state : ExecutionState) : Action ω Unit :=
  persist (·.save e state)

def transition (state : ExecutionState) (target : WorkflowState) (event : WorkflowEvent)
    : Action ω ExecutionState :=
  if state.status.canTransition target then
    e.emit { state with status := target } event
  else
    Prog.fail (.runtime
      s!"invalid workflow transition {state.status.debug} -> {target.debug}")

def latest (executionId : String) : Action ω (Option ExecutionState) :=
  Prog.gets (·.latest e executionId)

def callExecutor (executionId : String) (rollback : Bool) (context : ActivityContext)
    : Action ω (List String × Reply) := do
  let reaction ← Prog.gets fun w => e.execute w.executor context
  Prog.modify (·.react e executionId rollback context)
  return (reaction.progress, reaction.reply)

-- Which of the tasks that are under way goes on next.
def pick (n : Nat) : Action ω Nat := do
  let picks ← Prog.gets (·.picks)
  Prog.modify fun w => { w with picks := w.picks.tail }
  return picks.headD 0 % n

def recordOf (state : ExecutionState) (id : String) : Action ω ActivityRecord :=
  Prog.ofOption (state.activity? id)

end Engine

def ActivityDef.context (a : ActivityDef) (vars : Variables) (attempt : Nat) : ActivityContext where
  id := a.id
  activityType := a.activityType
  name := a.name
  inputs := a.inputs
  vars := vars
  attempt := attempt

inductive IsolatedResult where
  | completed (output : Value)
  | failed (msg : String)
  | interrupted (msg : String)
deriving Repr, DecidableEq, Inhabited

structure IsolatedOutcome where
  id : String
  attempts : Nat
  events : List WorkflowEvent
  result : IsolatedResult
deriving Repr, DecidableEq, Inhabited

structure Task where
  activity : ActivityDef
  policy : RetryPolicy
  vars : Variables
  attempt : Nat
  events : List WorkflowEvent := []

namespace Engine

variable {ω : Type} (e : Engine ω)

def settle (task : Task) (attempt : Nat) (reply : Reply) (kind : String)
    : Except Error (Task ⊕ IsolatedOutcome) :=
  let events := task.events ++ [.activityStarted task.activity.id attempt]
  match reply with
  | .output output => .ok (.inr ⟨task.activity.id, attempt, events, .completed output⟩)
  | .error (.interrupted msg) => .ok (.inr ⟨task.activity.id, attempt, events, .interrupted msg⟩)
  | .error (.permanent msg) => .ok (.inr ⟨task.activity.id, attempt, events, .failed msg⟩)
  | .error (.retryable msg) =>
    if task.policy.maxAttempts ≤ attempt then
      .ok (.inr ⟨task.activity.id, attempt, events,
        .failed s!"retries exhausted after {attempt} attempts: {msg}"⟩)
    else
      let delay := e.platform.nextDelay task.policy attempt
      .ok (.inl { task with
        attempt
        events := events ++ [.activityRetried task.activity.id attempt delay msg] })
  | .panic reason => .error (.runtime s!"{kind} task panicked: {reason}")

def advance (executionId kind : String) (task : Task) : Action ω (Task ⊕ IsolatedOutcome) := do
  let attempt := task.attempt + 1
  let (_, reply) ← e.callExecutor executionId false (task.activity.context task.vars attempt)
  Prog.ofExcept (e.settle task attempt reply kind)

-- The tasks of a batch go on in any order until each of them has come to an end.
def race (executionId : String) : Nat → List (Task ⊕ IsolatedOutcome) → Action ω (List IsolatedOutcome)
  | 0, _ => Prog.halt
  | gas + 1, slots => do
    let running := (List.range slots.length).filter fun i => (slots[i]?.bind Sum.getLeft?).isSome
    if running = [] then
      return slots.filterMap Sum.getRight?
    let k ← pick running.length
    match running[k]?.bind fun i => (slots[i]?.bind Sum.getLeft?).map fun task => (i, task) with
    | some (i, task) =>
      let slot ← e.advance executionId "activity" task
      race executionId gas (slots.set i slot)
    | none => Prog.halt

end Wovyr.Workflow.Engine
