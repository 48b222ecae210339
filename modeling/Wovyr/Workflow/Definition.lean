import Std.Data.ExtTreeMap
import Wovyr.Common
import Wovyr.Json.Value

/-!
This module contains the states of a workflow execution and of its activities, the events that are
logged, the snapshot that is checkpointed, and workflow definitions with their validation.
-/

namespace Wovyr.Workflow

inductive WorkflowState where
  | created
  | validated
  | scheduled
  | running
  | waiting
  | resumed
  | compensating
  | completed
  | failed
  | cancelled
deriving Repr, DecidableEq, Inhabited

namespace WorkflowState

def isTerminal : WorkflowState → Bool
  | .completed | .failed | .cancelled => true
  | _ => false

def canTransition : WorkflowState → WorkflowState → Bool
  | .created, .validated => true
  | .validated, .scheduled => true
  | .scheduled, .running => true
  | .running, .waiting => true
  | .waiting, .resumed => true
  | .resumed, .running => true
  | .running, .completed => true
  | .running, .failed => true
  | .running, .cancelled => true
  | .failed, .compensating => true
  | .compensating, .failed => true
  | _, _ => false

def debug : WorkflowState → String
  | .created => "Created"
  | .validated => "Validated"
  | .scheduled => "Scheduled"
  | .running => "Running"
  | .waiting => "Waiting"
  | .resumed => "Resumed"
  | .compensating => "Compensating"
  | .completed => "Completed"
  | .failed => "Failed"
  | .cancelled => "Cancelled"

end WorkflowState

inductive ActivityState where
  | created
  | ready
  | scheduled
  | running
  | completed
  | failed
  | retrying
  | waiting
  | skipped
deriving Repr, DecidableEq, Inhabited

structure ActivityRecord where
  state : ActivityState := .created
  attempts : Nat := 0
  output : Option Value := none
  lastError : Option String := none
deriving Repr, DecidableEq, Inhabited

inductive WorkflowEvent where
  | workflowCreated (workflow version : String)
  | workflowValidated
  | workflowScheduled
  | workflowStarted
  | activityReady (id : String)
  | activityStarted (id : String) (attempt : Nat)
  | activityProgress (id : String) (attempt : Nat) (message : String)
  | activityCompleted (id : String) (output : Value)
  | activitySkipped (id : String)
  | activityWaiting (id waitingFor : String)
  | timerScheduled (id : String) (fireAtMs : Nat)
  | activityRetried (id : String) (attempt delayMs : Nat) (reason : String)
  | activityFailed (id error : String)
  | workflowCompleted
  | workflowFailed (error : String)
  | workflowInterrupted (activity : String)
  | compensationStarted
  | compensationStepCompleted (activity compensation : String)
  | compensationStepFailed (activity compensation error : String)
  | compensationCompleted
  | workflowCancelled
deriving Repr, DecidableEq, Inhabited

abbrev Variables := Std.ExtTreeMap String Value

structure ExecutionState where
  executionId : String
  workflowName : String
  workflowVersion : String
  status : WorkflowState
  vars : Variables
  activities : Std.ExtTreeMap String ActivityRecord
  completedOrder : List String
  definitionHash : Option String
  version : Nat

inductive RunOutcome where
  | completed
  | failed (msg : String)
  | compensated (msg : String)
  | interrupted (msg : String)
deriving Repr, DecidableEq, Inhabited

namespace ExecutionState

def activity? (state : ExecutionState) (id : String) : Option ActivityRecord :=
  state.activities[id]?

def setRecord (state : ExecutionState) (id : String) (record : ActivityRecord) : ExecutionState :=
  { state with activities := state.activities.insert id record }

def setActivity (state : ExecutionState) (id : String) (target : ActivityState) : ExecutionState :=
  match state.activity? id with
  | some record => state.setRecord id { record with state := target }
  | none => state

def setVariable (state : ExecutionState) (key : String) (value : Value) : ExecutionState :=
  { state with vars := state.vars.insert key value }

def removeVariable (state : ExecutionState) (key : String) : ExecutionState :=
  { state with vars := state.vars.erase key }

def complete (state : ExecutionState) (id : String) (record : ActivityRecord) (output : Value)
    : ExecutionState :=
  let state := state.setRecord id { record with state := .completed, output := some output }
  { state.setVariable id output with completedOrder := state.completedOrder ++ [id] }

end ExecutionState

inductive RetryStrategy where
  | fixed
  | linear
  | exponential
deriving Repr, DecidableEq, Inhabited

structure RetryPolicy where
  maxAttempts : Nat := 3
  strategy : RetryStrategy := .exponential
  initialDelayMs : Nat := 100
  maxDelayMs : Nat := 30000
  multiplier : Rat := 2
deriving Repr, DecidableEq, Inhabited

structure ActivityDef where
  id : String
  activityType : String
  name : Option String := none
  inputs : Value := .null
  retry : Option RetryPolicy := none
  compensate : Option String := none
deriving Repr, DecidableEq, Inhabited

structure Transition where
  source : String
  target : String
  when : Option String := none
deriving Repr, DecidableEq, Inhabited

structure Metadata where
  name : String
  version : String := "0.0.0"
deriving Repr, DecidableEq, Inhabited

structure Spec where
  vars : Variables := ∅
  activities : List ActivityDef
  transitions : List Transition := []
  retry : Option RetryPolicy := none

structure Definition where
  kind : Option String := none
  metadata : Metadata
  spec : Spec
  sourceHash : Option String := none

structure ForEachBody where
  activityType : String
  name : Option String := none
  inputs : Value := .null
  retry : Option RetryPolicy := none
deriving Repr, DecidableEq, Inhabited

structure ForEachInputs where
  items : Value
  activity : ForEachBody
  maxConcurrent : Option Nat := none
  maxItems : Option Nat := none
  maxTotalCostUsd : Option Rat := none
  maxTotalTokens : Option Nat := none
deriving Repr, DecidableEq, Inhabited

structure ForEachSpec where
  items : Value
  body : ForEachBody
  maxConcurrent : Nat
  maxItems : Nat
  maxTotalCostUsd : Option Rat
  maxTotalTokens : Option Nat
deriving Repr, DecidableEq, Inhabited

-- What the engine takes from `serde` and from the floating-point arithmetic of the machine.
structure Platform where
  writeF64 : Rat → List Char
  displayF64 : Rat → String
  displayUsd : Rat → String
  parseF64 : String → Option Rat
  ofInt : Int → Rat
  addF64 : Rat → Rat → Rat
  nextDelay : RetryPolicy → Nat → Nat
  decodeForEach : Value → Except String ForEachInputs

def Platform.integral : Platform where
  writeF64 q := (toString q.num ++ ".0").toList
  displayF64 q := toString q.num
  displayUsd q := toString q.num ++ ".00"
  parseF64 s := (Text.parseUnsigned (2 ^ 64) s).map fun n => (n : Rat)
  ofInt n := n
  addF64 x y := x + y
  nextDelay policy _ := policy.initialDelayMs
  decodeForEach _ := .error "missing field `items`"

-- The inputs of one activity are read, no others.
def Platform.reading (inputs : Value) (decoded : ForEachInputs) : Platform :=
  { Platform.integral with
    decodeForEach := fun value => if value = inputs then .ok decoded else .error "missing field `items`" }

def isForEach (activityType : String) : Bool :=
  activityType == "for_each" || activityType == "map"

def defaultForEachConcurrency : Nat := 8

def defaultForEachMaxItems : Nat := 1000

def positive (activity : ActivityDef) (field : String) (fallback : Nat)
    : Option Nat → Except Error Nat
  | some 0 => .error (.invalid s!"for_each activity `{activity.id}`: {field} must be at least 1")
  | some n => .ok n
  | none => .ok fallback

def ForEachSpec.parse (p : Platform) (activity : ActivityDef) : Except Error ForEachSpec := do
  let parsed ←
    match p.decodeForEach activity.inputs with
    | .error e =>
      throw (.invalid ("for_each activity `" ++ activity.id ++ "` has invalid inputs (" ++ e
        ++ "); expected \x7bitems: <$\x7b...\x7d or array>, activity: \x7btype, ...\x7d\x7d"))
    | .ok parsed => pure parsed
  match parsed.items with
  | .string _ | .array _ => pure ()
  | _ =>
    throw (.invalid ("for_each activity `" ++ activity.id
      ++ "`: `items` must be a `$\x7b...\x7d` reference or a literal array"))
  let bodyType := parsed.activity.activityType
  if isForEach bodyType || bodyType == "wait" || bodyType == "workflow" then
    throw (.invalid
      s!"for_each activity `{activity.id}`: body type `{bodyType}` is engine-native and cannot run as a per-item body")
  let maxConcurrent ← positive activity "max_concurrent" defaultForEachConcurrency parsed.maxConcurrent
  let maxItems ← positive activity "max_items" defaultForEachMaxItems parsed.maxItems
  match parsed.maxTotalCostUsd with
  | some cap =>
    if cap ≤ 0 then
      throw (.invalid
        s!"for_each activity `{activity.id}`: max_total_cost_usd must be a finite value greater than 0 (got {p.displayF64 cap})")
  | none => pure ()
  if parsed.maxTotalTokens = some 0 then
    throw (.invalid s!"for_each activity `{activity.id}`: max_total_tokens must be at least 1")
  return {
    items := parsed.items
    body := parsed.activity
    maxConcurrent
    maxItems
    maxTotalCostUsd := parsed.maxTotalCostUsd
    maxTotalTokens := parsed.maxTotalTokens
  }

theorem ForEachSpec.maxConcurrent_pos {p : Platform} {a : ActivityDef} {spec : ForEachSpec}
    (h : ForEachSpec.parse p a = .ok spec) : 0 < spec.maxConcurrent := by
  have hpositive (bound : Option Nat) (n : Nat)
      (hn : positive a "max_concurrent" defaultForEachConcurrency bound = .ok n) : 0 < n := by
    unfold positive at hn
    split at hn
    . cases hn
    next m hm =>
      cases hn
      exact Nat.pos_of_ne_zero hm
    . cases hn
      decide
  -- Whatever is checked before and after it, the bound is the one that was found.
  simp only [ForEachSpec.parse, bind, Except.bind, throw, throwThe, MonadExceptOf.throw, pure,
    Except.pure] at h
  repeat' split at h
  all_goals first
    | cases h; dsimp only; exact hpositive _ _ (by assumption)
    | cases h

namespace Definition

def activity (d : Definition) (id : String) : Option ActivityDef :=
  d.spec.activities.find? (·.id == id)

def compensationTargets (d : Definition) : List String :=
  d.spec.activities.filterMap (·.compensate)

def inbound (d : Definition) (id : String) : List Transition :=
  d.spec.transitions.filter (·.target == id)

def retryFor (d : Definition) (id : String) : RetryPolicy :=
  (((d.activity id).bind (·.retry)).or d.spec.retry).getD {}

-- Ids that are not empty, free of brackets and distinct from those before them.
def checkIds (seen : List String) : List ActivityDef → Except Error Unit
  | [] => .ok ()
  | a :: activities =>
    if Text.trim a.id = "" then
      .error (.invalid "activity id must not be empty")
    else if '[' ∈ a.id.toList ∨ ']' ∈ a.id.toList then
      .error (.invalid
        s!"activity id `{a.id}` must not contain `[`/`]` (reserved for for_each item-instance ids)")
    else if a.id ∈ seen then
      .error (.invalid s!"duplicate activity id `{a.id}`")
    else
      checkIds (a.id :: seen) activities

def checkForEach (p : Platform) : List ActivityDef → Except Error Unit
  | [] => .ok ()
  | a :: activities =>
    if isForEach a.activityType then
      match ForEachSpec.parse p a with
      | .error e => .error e
      | .ok _ => checkForEach p activities
    else
      checkForEach p activities

def checkCompensation (ids : List String) : List ActivityDef → Except Error Unit
  | [] => .ok ()
  | a :: activities =>
    match a.compensate with
    | some comp =>
      if comp ∈ ids then
        checkCompensation ids activities
      else
        .error (.invalid s!"activity `{a.id}` compensates with unknown activity `{comp}`")
    | none => checkCompensation ids activities

def checkTransitions (ids : List String) : List Transition → Except Error Unit
  | [] => .ok ()
  | t :: transitions =>
    if t.source ∉ ids then
      .error (.invalid s!"transition references unknown activity `{t.source}`")
    else if t.target ∉ ids then
      .error (.invalid s!"transition references unknown activity `{t.target}`")
    else
      checkTransitions ids transitions

def lower (indegree : Std.ExtTreeMap String Nat) (queue : List String)
    : List Transition → Std.ExtTreeMap String Nat × List String
  | [] => (indegree, queue)
  | t :: transitions =>
    let degree := indegree[t.target]?.getD 0 - 1
    lower (indegree.insert t.target degree) (if degree = 0 then t.target :: queue else queue)
      transitions

-- Kahn's algorithm, the number of activities it visits. Every activity is queued at most once.
def kahn (transitions : List Transition) : Nat → Std.ExtTreeMap String Nat → List String → Nat → Nat
  | 0, _, _, visited => visited
  | _ + 1, _, [], visited => visited
  | n + 1, indegree, node :: queue, visited =>
    let (indegree, queue) := lower indegree queue (transitions.filter (·.source == node))
    kahn transitions n indegree queue (visited + 1)

def indegrees (d : Definition) : Std.ExtTreeMap String Nat :=
  d.spec.transitions.foldl (fun degrees t => degrees.insert t.target (degrees[t.target]?.getD 0 + 1))
    (d.spec.activities.foldl (fun degrees a => degrees.insert a.id 0) ∅)

def checkAcyclic (d : Definition) : Except Error Unit :=
  let queue := (d.indegrees.toList.filter (·.2 == 0)).map Prod.fst
  let visited := kahn d.spec.transitions d.spec.activities.length d.indegrees queue.reverse 0
  if visited ≠ d.spec.activities.length then
    .error (.invalid "workflow graph contains a cycle")
  else
    .ok ()

def validate (p : Platform) (d : Definition) : Except Error Unit := do
  match d.kind with
  | some kind =>
    if kind ≠ "Workflow" then
      throw (.invalid s!"unsupported kind `{kind}`, expected `Workflow`")
  | none => pure ()
  if Text.trim d.metadata.name = "" then
    throw (.invalid "metadata.name must not be empty")
  if d.spec.activities = [] then
    throw (.invalid "a workflow must declare at least one activity")
  checkIds [] d.spec.activities
  checkForEach p d.spec.activities
  let ids := d.spec.activities.map (·.id)
  checkCompensation ids d.spec.activities
  checkTransitions ids d.spec.transitions
  checkAcyclic d

end Definition

structure ActivityUsage where
  costUsd : Rat := 0
  totalTokens : Nat := 0
deriving Repr, DecidableEq, Inhabited

def field? (key : String) : Value → Option Value
  | .object fields => (fields.find? (·.1 == key)).map Prod.snd
  | _ => none

def asF64 (p : Platform) : Value → Option Rat
  | .int n => some (p.ofInt n)
  | .float q => some q
  | _ => none

def asU64 : Value → Option Nat
  | .int (.ofNat n) => some n
  | _ => none

namespace ActivityUsage

def usageOutputKey : String := "__usage"

def fromOutput (p : Platform) (output : Value) : ActivityUsage :=
  match field? usageOutputKey output with
  | none => {}
  | some usage =>
    { costUsd := (((field? "cost_usd" usage).bind (asF64 p)).filter (0 ≤ ·)).getD 0
      totalTokens := ((field? "total_tokens" usage).bind asU64).getD 0 }

def add (p : Platform) (a b : ActivityUsage) : ActivityUsage where
  costUsd := p.addF64 a.costUsd b.costUsd
  totalTokens := min (a.totalTokens + b.totalTokens) (2 ^ 64 - 1)

def exceeds (p : Platform) (usage : ActivityUsage) (maxTotalCostUsd : Option Rat)
    (maxTotalTokens : Option Nat) : Option String :=
  match maxTotalCostUsd.filter (· < usage.costUsd) with
  | some cap =>
    some s!"aggregate cost ${p.displayUsd usage.costUsd} crossed the max_total_cost_usd budget of ${p.displayUsd cap}"
  | none =>
    (maxTotalTokens.filter (· < usage.totalTokens)).map fun cap =>
      s!"aggregate usage of {usage.totalTokens} tokens crossed the max_total_tokens budget of {cap}"

end Wovyr.Workflow.ActivityUsage
