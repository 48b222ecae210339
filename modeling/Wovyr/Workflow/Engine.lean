import Wovyr.Workflow.Executor

/-!
This module contains the workflow engine. Loops take a number of rounds as gas, to run out of it is as if the
process had stopped.
-/

namespace Wovyr.Workflow

inductive Step where
  | completed
  | failed (msg : String)
  | interrupted (msg : String)
deriving Repr, DecidableEq, Inhabited

inductive BatchStep where
  | allSettled
  | failed (msg : String)
  | interrupted (activity msg : String)
deriving Repr, DecidableEq, Inhabited

inductive Edge where
  | live
  | dead
  | pending
deriving Repr, DecidableEq, Inhabited

inductive TimerDeadline where
  | after (ms : Nat)
  | at (ms : Nat)
deriving Repr, DecidableEq, Inhabited

inductive WaitSpec where
  | event (name : String)
  | timer (id : String) (deadline : Option TimerDeadline)
deriving Repr, DecidableEq, Inhabited

def unitMillis : String → Option Nat
  | "ms" => some 1
  | "s" => some 1000
  | "m" => some 60000
  | "h" => some 3600000
  | "d" => some 86400000
  | _ => none

def parseDurationMs (value : Value) : Except Error Nat :=
  match asU64 value with
  | some n => .ok n
  | none =>
    match value with
    | .string s =>
      let s := Text.trim s
      let num := s.toList.takeWhile Char.isDigit
      let unit := Text.trim (String.ofList (s.toList.drop num.length))
      if num.length = s.toList.length then
        .error (.invalid s!"timer duration `{s}` needs a unit (ms/s/m/h/d)")
      else
        match Text.parseUnsigned (2 ^ 64) (String.ofList num) with
        | none => .error (.invalid s!"invalid timer duration `{s}`")
        | some n =>
          match unitMillis unit with
          | none => .error (.invalid s!"unknown timer duration unit `{unit}` (use ms/s/m/h/d)")
          | some mult => .ok (min (n * mult) (2 ^ 64 - 1))
    | _ => .error (.invalid "timer `after` must be a number (ms) or a string")

def asStr : Value → Option String
  | .string s => some s
  | _ => none

namespace WaitSpec

def deadlineOf (timer : Value) : Except Error TimerDeadline :=
  match field? "after" timer with
  | some after => (parseDurationMs after).map .after
  | none =>
    match (field? "at" timer).bind asU64 with
    | some ms => .ok (.at ms)
    | none =>
      .error (.invalid "a `timer` object needs an `after` duration or an `at` epoch-ms instant")

def fromInputs (activityId : String) (inputs : Value) : Except Error WaitSpec :=
  match (field? "event" inputs).bind asStr with
  | some name => .ok (.event name)
  | none =>
    match field? "timer" inputs with
    | some (.string id) => .ok (.timer id none)
    | some (.object fields) => do
      let deadline ← deadlineOf (.object fields)
      return .timer (((field? "id" (.object fields)).bind asStr).getD activityId) (some deadline)
    | _ => .error (.invalid "a `wait` activity needs an `event` or `timer` input")

def variableKey : WaitSpec → String
  | .event name => "event." ++ name
  | .timer id _ => "timer." ++ id

def describe : WaitSpec → String
  | .event name => s!"event '{name}'"
  | .timer id none => s!"timer '{id}'"
  | .timer id (some (.after ms)) => s!"timer '{id}' (after {ms}ms)"
  | .timer id (some (.at ms)) => s!"timer '{id}' (at {ms})"

end WaitSpec

def timerMarker (id : String) : String := "__timer_set." ++ id

def forEachMarker (id : String) : String := "__for_each." ++ id

def instanceId (parentId : String) (index : Nat) : String :=
  parentId ++ "[" ++ toString index ++ "]"

def jsonKind : Value → String
  | .null => "null"
  | .bool _ => "a boolean"
  | .int _ | .float _ => "a number"
  | .string _ => "a string"
  | .array _ => "an array"
  | .object _ => "an object"

-- The variables of a completed child, less the markers of the engine and the run input.
def childResult (child : ExecutionState) : Value :=
  .object (child.vars.toList.filter fun (k, _) => !("__".toList.isPrefixOf k.toList) && k != "input")

def ForEachSpec.instance (spec : ForEachSpec) (id : String) (index : Nat) : ActivityDef where
  id := instanceId id index
  activityType := spec.body.activityType
  name := spec.body.name
  inputs := spec.body.inputs

def itemVars (vars : Variables) (item : Value) (index : Nat) : Variables :=
  (vars.insert "item" item).insert "item_index" (.int index)

namespace Engine

variable {ω : Type} (e : Engine ω)

def classifyEdge (state : ExecutionState) (t : Transition) : Edge :=
  match (state.activity? t.source).map ActivityRecord.state with
  | some .completed =>
    match Condition.evaluate e.platform state.vars (t.when.getD "") with
    | .ok true => .live
    | _ => .dead
  | some .skipped | some .failed => .dead
  | _ => .pending

def edges (d : Definition) (state : ExecutionState) (id : String) : List Edge :=
  (d.inbound id).map (e.classifyEdge state)

def isReady (d : Definition) (state : ExecutionState) (id : String) : Option Bool :=
  (state.activity? id).map fun record =>
    match record.state with
    | .created | .ready | .retrying | .waiting =>
      d.inbound id = [] || (!(e.edges d state id).contains .pending && (e.edges d state id).contains .live)
    | _ => false

def isDead (d : Definition) (state : ExecutionState) (id : String) : Option Bool :=
  (state.activity? id).map fun record =>
    match record.state with
    | .created | .ready | .retrying =>
      d.inbound id ≠ [] && (e.edges d state id).all (· == .dead)
    | _ => false

def forward (d : Definition) : List ActivityDef :=
  d.spec.activities.filter fun a => !d.compensationTargets.contains a.id

-- The first activity that satisfies a condition which can panic.
def firstId (holds : String → Option Bool) : List ActivityDef → Option (Option String)
  | [] => some none
  | a :: activities =>
    match holds a.id with
    | none => none
    | some true => some (some a.id)
    | some false => firstId holds activities

def nextReady (d : Definition) (state : ExecutionState) : Option (Option String) :=
  firstId (e.isReady d state) (forward d)

def readyBatch (d : Definition) (state : ExecutionState) : Option (List String) :=
  let candidates := (forward d).filter fun a =>
    a.activityType != "wait" && a.activityType != "workflow" && !isForEach a.activityType
  (candidates.filterMapM fun a =>
    (e.isReady d state a.id).map fun ready => if ready then some a.id else none : Option _)

def forwardComplete (d : Definition) (state : ExecutionState) : Option Bool :=
  (firstId (fun id => (state.activity? id).map fun record =>
    !(record.state == .completed || record.state == .skipped)) (forward d)).map Option.isNone

def checkOutputSize (id : String) (output : Value) : Option String :=
  let size := (Bytes.utf8 (Json.render e.platform.writeF64 output)).length
  if e.maxActivityOutputBytes < size then
    some s!"activity `{id}` output is {size} bytes, over the {e.maxActivityOutputBytes}-byte cap (WFL-303) — every future checkpoint of this execution re-serializes the full state, so this would bloat all of them; keep outputs small, or store the large payload externally (object storage, a blob store) and pass a reference instead"
  else
    none

def applySkips (d : Definition) : Nat → ExecutionState → Action ω ExecutionState
  | 0, state => return state
  | n + 1, state => do
    match ← Prog.ofOption (firstId (e.isDead d state) (forward d)) with
    | none => return state
    | some id =>
      let state ← e.emit (state.setActivity id .skipped) (.activitySkipped id)
      e.checkpoint state
      applySkips d n state

def terminalActivityFailure (state : ExecutionState) (id : String) (attempt : Nat) (msg : String)
    : Action ω (ExecutionState × Step) := do
  let record ← recordOf state id
  let state := state.setRecord id { record with attempts := attempt, state := .failed, lastError := some msg }
  let state ← e.emit state (.activityFailed id msg)
  e.checkpoint state
  return (state, .failed s!"activity `{id}` failed: {msg}")

def completeActivity (state : ExecutionState) (id : String) (record : ActivityRecord) (output : Value)
    : Action ω (ExecutionState × Step) := do
  let state ← e.emit (state.complete id record output) (.activityCompleted id output)
  e.checkpoint state
  return (state, .completed)

def failOnce (state : ExecutionState) (id msg : String) : Action ω (ExecutionState × Step) := do
  let record ← recordOf state id
  e.terminalActivityFailure state id (record.attempts + 1) msg

def runAttempts (a : ActivityDef) (policy : RetryPolicy)
    : Nat → ExecutionState → Action ω (ExecutionState × Step)
  | 0, _ => Prog.halt
  | gas + 1, state => do
    let record ← recordOf state a.id
    let attempt := record.attempts + 1
    let state ← e.emit (state.setActivity a.id .running) (.activityStarted a.id attempt)
    let (progress, reply) ← e.callExecutor state.executionId false (a.context state.vars attempt)
    let state ← e.emitAll state (progress.map (.activityProgress a.id attempt))
    let record ← recordOf state a.id
    match reply with
    | .panic _ => Prog.halt
    | .output output =>
      match e.checkOutputSize a.id output with
      | some msg => e.terminalActivityFailure state a.id attempt msg
      | none => e.completeActivity state a.id { record with attempts := attempt } output
    | .error (.interrupted msg) =>
      let state := state.setActivity a.id .ready
      e.checkpoint state
      return (state, .interrupted msg)
    | .error (.permanent msg) => e.terminalActivityFailure state a.id attempt msg
    | .error (.retryable msg) =>
      if policy.maxAttempts ≤ attempt then
        e.terminalActivityFailure state a.id attempt
          s!"retries exhausted after {attempt} attempts: {msg}"
      else
        let delay := e.platform.nextDelay policy attempt
        let state := state.setRecord a.id
          { record with attempts := attempt, state := .retrying, lastError := some msg }
        let state ← e.emit state (.activityRetried a.id attempt delay msg)
        e.checkpoint state
        runAttempts a policy gas state

-- The deadline of a timer is registered once, when the activity first suspends.
def registerTimer (state : ExecutionState) (a : ActivityDef) : WaitSpec → Action ω ExecutionState
  | .timer id (some deadline) =>
    if state.vars.contains (timerMarker id) then
      return state
    else if e.timers then do
      let now ← Prog.gets fun w => e.nowMillis w.executor
      let fireAt :=
        match deadline with
        | .after ms => min (now + ms) (2 ^ 64 - 1)
        | .at ms => ms
      persist (·.schedule ⟨state.executionId, id, fireAt⟩)
      e.emit (state.setVariable (timerMarker id) (.int fireAt)) (.timerScheduled id fireAt)
    else
      Prog.fail (.invalid
        s!"wait activity `{a.id}` declares a wall-clock timer but the engine has no timer store; attach one with Engine::with_timer_store")
  | _ => return state

def clearTimer (state : ExecutionState) : WaitSpec → Action ω ExecutionState
  | .timer id (some _) => do
    if e.timers then
      persist (·.cancelTimer state.executionId id)
    return state.removeVariable (timerMarker id)
  | _ => return state

def runWait (state : ExecutionState) (a : ActivityDef) : Action ω (ExecutionState × Step) := do
  let spec ← Prog.ofExcept (WaitSpec.fromInputs a.id a.inputs)
  match state.vars[spec.variableKey]? with
  | some payload =>
    let record ← recordOf state a.id
    let state ← e.clearTimer (state.complete a.id record payload) spec
    let state ← e.emit state (.activityCompleted a.id payload)
    e.checkpoint state
    return (state, .completed)
  | none =>
    let state ← e.registerTimer state a spec
    let state ← e.emit (state.setActivity a.id .waiting) (.activityWaiting a.id spec.describe)
    e.checkpoint state
    return (state, .interrupted s!"waiting for {spec.describe}")

def initialState (d : Definition) (executionId : String) (input : Value) : ExecutionState where
  executionId := executionId
  workflowName := d.metadata.name
  workflowVersion := d.metadata.version
  status := .created
  vars :=
    let vars := d.spec.vars.insert "input" input
    let vars :=
      match input with
      | .object fields => fields.foldl (fun (vars : Variables) (k, v) => vars.insert k v) vars
      | _ => vars
    vars.insert "__execution_id" (.string executionId)
  activities := d.spec.activities.foldl (fun records a => records.insert a.id {}) ∅
  completedOrder := []
  definitionHash := d.sourceHash
  version := 0

def start (d : Definition) (executionId : String) (input : Value) : Action ω ExecutionState := do
  let state := initialState d executionId input
  let state ← e.emit state (.workflowCreated d.metadata.name d.metadata.version)
  let state ← e.transition state .validated .workflowValidated
  let state ← e.transition state .scheduled .workflowScheduled
  let state ← e.transition state .running .workflowStarted
  e.checkpoint state
  return state

-- An execution is resumed with the definition it was started with.
def pinned (d : Definition) (state : ExecutionState) : Bool :=
  match state.definitionHash with
  | none => true
  | some pin =>
    (match d.sourceHash with
      | some current => current == pin
      | none => true) && d.metadata.version == state.workflowVersion

def assertPinnedDefinition (d : Definition) (state : ExecutionState) : Except Error Unit :=
  if pinned d state then
    .ok ()
  else
    .error (.invalid
      s!"definition for workflow `{state.workflowName}` changed since execution `{state.executionId}` started (pinned version {state.workflowVersion}, current version {d.metadata.version}); resume it with the original definition")

section

variable (drive : Definition → ExecutionState → Action ω (RunOutcome × ExecutionState))

def runWith (d : Definition) (executionId : String) (input : Value)
    : Action ω (RunOutcome × ExecutionState) := do
  let state ← e.start d executionId input
  drive d state

def resumeWith (d : Definition) (executionId : String) : Action ω (RunOutcome × ExecutionState) := do
  match ← e.latest executionId with
  | none => Prog.fail (.notFound s!"no checkpoint for execution `{executionId}`")
  | some state =>
    Prog.ofExcept (assertPinnedDefinition d state)
    match state.status with
    | .completed => return (.completed, state)
    | .failed => return (.failed "workflow previously failed", state)
    | .cancelled => return (.failed "workflow was cancelled", state)
    | _ => drive d state

def separators : List Char → Nat
  | ':' :: ':' :: rest => separators rest + 1
  | _ :: rest => separators rest
  | [] => 0

def childId (state : ExecutionState) (a : ActivityDef) : String :=
  state.executionId ++ "::" ++ a.id

def runChild (d : Definition) (id : String) (input : Value) : Action ω (RunOutcome × ExecutionState) := do
  match ← e.latest id with
  | some _ => e.resumeWith drive d id
  | none => e.runWith drive d id input

def settleChild (state : ExecutionState) (a : ActivityDef) (childName : String)
    (outcome : RunOutcome) (child : ExecutionState) : Action ω (ExecutionState × Step) := do
  match outcome with
  | .completed =>
    let record ← recordOf state a.id
    e.completeActivity state a.id record (childResult child)
  | .failed msg | .compensated msg =>
    e.failOnce state a.id
      s!"child workflow `{childName}` ({state.executionId}::{a.id}) failed: {msg}"
  | .interrupted msg =>
    let state := state.setActivity a.id .ready
    e.checkpoint state
    return (state, .interrupted s!"child workflow `{childName}` suspended: {msg}")

def runSubworkflow (state : ExecutionState) (a : ActivityDef) : Action ω (ExecutionState × Step) := do
  match e.subworkflows with
  | none =>
    Prog.fail (.invalid
      s!"workflow activity `{a.id}` requires a child-workflow resolver; attach one with Engine::with_subworkflows")
  | some resolver =>
    match a.name with
    | none =>
      Prog.fail (.invalid s!"workflow activity `{a.id}` needs a `name` (the child workflow name)")
    | some childName =>
      match ← Prog.gets fun w => resolver w.executor childName with
      | none => Prog.fail (.invalid s!"unknown child workflow `{childName}` for activity `{a.id}`")
      | some child =>
        let depth := separators (childId state a).toList
        if e.maxSubworkflowDepth < depth then
          e.failOnce state a.id
            s!"sub-workflow nesting depth {depth} exceeded the maximum of {e.maxSubworkflowDepth} at activity `{a.id}` (child `{childName}`) — likely a recursive or mutually-recursive workflow"
        else
          let (outcome, childState) ← e.runChild drive child (childId state a) a.inputs
          e.settleChild state a childName outcome childState

end

def completeForEach (state : ExecutionState) (id : String) (outputs : List Value)
    : Action ω (ExecutionState × Step) := do
  match e.checkOutputSize id (.array outputs) with
  | some msg => e.failOnce state id msg
  | none =>
    let record ← recordOf state id
    e.completeActivity state id { record with attempts := record.attempts + 1 } (.array outputs)

-- The collection of a `for_each` activity, kept under its marker from the first round on.
def forEachItems (state : ExecutionState) (a : ActivityDef) (spec : ForEachSpec)
    : Except String (Bool × List Value) :=
  match state.vars[forEachMarker a.id]? with
  | some (.array items) => .ok (false, items)
  | _ =>
    match Template.resolve e.platform state.vars spec.items with
    | .array items =>
      if spec.maxItems < items.length then
        .error s!"for_each `items` resolved to {items.length} elements, over the max_items bound of {spec.maxItems} — raise `max_items` if this fan-out is intended"
      else
        .ok (true, items)
    | resolved => .error s!"for_each `items` must resolve to an array, got {jsonKind resolved}"

def addInstances (id : String) : List Nat → ExecutionState → ExecutionState
  | [], state => state
  | index :: indices, state =>
    let state :=
      match state.activity? (instanceId id index) with
      | some _ => state
      | none => state.setRecord (instanceId id index) {}
    addInstances id indices state

def pendingItems (state : ExecutionState) (id : String) (n : Nat) : List Nat :=
  (List.range n).filter fun i =>
    ((state.activity? (instanceId id i)).map (·.state)) != some .completed

structure FanOut where
  inFlight : List (Nat × (Task ⊕ IsolatedOutcome))
  queue : List Nat
  joined : List (Nat × IsolatedOutcome) := []
  spent : ActivityUsage := {}
  overBudget : Option String := none

def launch (state : ExecutionState) (a : ActivityDef) (spec : ForEachSpec) (policy : RetryPolicy)
    (items : List Value) (index : Nat) : Nat × (Task ⊕ IsolatedOutcome) :=
  (index, .inl {
    activity := spec.instance a.id index
    policy
    vars := itemVars state.vars (items[index]?.getD .null) index
    attempt := ((state.activity? (instanceId a.id index)).map (·.attempts)).getD 0 })

-- A finished item is joined, and while the budget lasts the next one is launched.
def FanOut.join (p : Platform) (spec : ForEachSpec) (launch : Nat → Nat × (Task ⊕ IsolatedOutcome))
    (f : FanOut) (k index : Nat) (outcome : IsolatedOutcome) : FanOut :=
  let spent :=
    match outcome.result with
    | .completed output => f.spent.add p (ActivityUsage.fromOutput p output)
    | _ => f.spent
  let overBudget := f.overBudget.or (spent.exceeds p spec.maxTotalCostUsd spec.maxTotalTokens)
  let inFlight := f.inFlight.eraseIdx k
  let joined := f.joined ++ [(index, outcome)]
  match overBudget, f.queue with
  | none, next :: queue => { inFlight := inFlight ++ [launch next], queue, joined, spent, overBudget }
  | _, queue => { inFlight, queue, joined, spent, overBudget }

def fanOut (executionId : String) (spec : ForEachSpec) (launch : Nat → Nat × (Task ⊕ IsolatedOutcome))
    : Nat → FanOut → Action ω FanOut
  | 0, _ => Prog.halt
  | gas + 1, f => do
    if f.inFlight = [] then
      return f
    let k ← pick f.inFlight.length
    match f.inFlight[k]? with
    | some (index, .inl task) =>
      let slot ← e.advance executionId "for_each item" task
      fanOut executionId spec launch gas { f with inFlight := f.inFlight.set k (index, slot) }
    | some (index, .inr outcome) =>
      fanOut executionId spec launch gas (f.join e.platform spec launch k index outcome)
    | none => Prog.halt

structure Verdicts where
  failure : Option String := none
  interrupt : Option (String × String) := none
deriving Repr, DecidableEq, Inhabited

def Verdicts.fail (v : Verdicts) (msg : String) : Verdicts :=
  { v with failure := v.failure.or (some msg) }

def Verdicts.suspend (v : Verdicts) (id msg : String) : Verdicts :=
  { v with interrupt := v.interrupt.or (some (id, msg)) }

def commitFailure (state : ExecutionState) (outcome : IsolatedOutcome) (msg : String)
    : Action ω ExecutionState := do
  let record ← recordOf state outcome.id
  let state := state.setRecord outcome.id
    { record with attempts := outcome.attempts, state := .failed, lastError := some msg }
  let state ← e.emit state (.activityFailed outcome.id msg)
  e.checkpoint state
  return state

def commitInterrupt (state : ExecutionState) (outcome : IsolatedOutcome) : Action ω ExecutionState := do
  let state := state.setActivity outcome.id .ready
  e.checkpoint state
  return state

def commitItem (state : ExecutionState) (v : Verdicts) (index : Nat) (outcome : IsolatedOutcome)
    : Action ω (ExecutionState × Verdicts) := do
  let state ← e.emitAll (state.setActivity outcome.id .running) outcome.events
  match outcome.result with
  | .completed output =>
    let record ← recordOf state outcome.id
    let state := state.setRecord outcome.id
      { record with attempts := outcome.attempts, state := .completed, output := some output }
    let state ← e.emit state (.activityCompleted outcome.id output)
    e.checkpoint state
    return (state, v)
  | .failed msg =>
    let state ← e.commitFailure state outcome msg
    return (state, v.fail s!"item {index} failed: {msg}")
  | .interrupted msg =>
    let state ← e.commitInterrupt state outcome
    return (state, v.suspend outcome.id s!"item {index} suspended: {msg}")

def commitItems (state : ExecutionState) (v : Verdicts)
    : List (Nat × IsolatedOutcome) → Action ω (ExecutionState × Verdicts)
  | [] => return (state, v)
  | (index, outcome) :: outcomes => do
    let (state, v) ← e.commitItem state v index outcome
    commitItems state v outcomes

def itemOutput (state : ExecutionState) (id : String) (index : Nat) : Value :=
  ((state.activity? (instanceId id index)).bind (·.output)).getD .null

def finishForEach (state : ExecutionState) (a : ActivityDef) (items : List Value) (f : FanOut)
    (v : Verdicts) : Action ω (ExecutionState × Step) := do
  match v.failure, f.overBudget, v.interrupt with
  | some msg, _, _ => e.failOnce state a.id msg
  | none, some msg, _ =>
    e.failOnce state a.id
      s!"for_each `{a.id}`: {msg} after {f.joined.length} of {items.length} items — raise the budget if this fan-out is intended (the remaining items were never started)"
  | none, none, some (_, msg) =>
    let state := state.setActivity a.id .ready
    e.checkpoint state
    return (state, .interrupted s!"for_each `{a.id}`: {msg}")
  | none, none, none =>
    let outputs := (List.range items.length).map (itemOutput state a.id)
    e.completeForEach (state.removeVariable (forEachMarker a.id)) a.id outputs

def runItems (d : Definition) (gas : Nat) (state : ExecutionState) (a : ActivityDef)
    (spec : ForEachSpec) (items : List Value) : Action ω (ExecutionState × Step) := do
  let state := addInstances a.id (List.range items.length) state
  let policy := (spec.body.retry.or d.spec.retry).getD {}
  let pending := pendingItems state a.id items.length
  let go := launch state a spec policy items
  let f ← e.fanOut state.executionId spec go gas {
    inFlight := (pending.take spec.maxConcurrent).map go
    queue := pending.drop spec.maxConcurrent }
  let (state, v) ← e.commitItems state {} (f.joined.mergeSort fun x y => x.1 ≤ y.1)
  e.finishForEach state a items f v

def runForEach (d : Definition) (gas : Nat) (state : ExecutionState) (a : ActivityDef)
    : Action ω (ExecutionState × Step) := do
  let spec ← Prog.ofExcept (ForEachSpec.parse e.platform a)
  match e.forEachItems state a spec with
  | .error msg => e.failOnce state a.id msg
  | .ok (isNew, items) =>
    let marked := if isNew then state.setVariable (forEachMarker a.id) (.array items) else state
    if isNew then
      e.checkpoint marked
    if items = [] then
      e.completeForEach (marked.removeVariable (forEachMarker a.id)) a.id []
    else
      e.runItems d gas marked a spec items

def commitActivity (state : ExecutionState) (v : Verdicts) (outcome : IsolatedOutcome)
    : Action ω (ExecutionState × Verdicts) := do
  let state ← e.emitAll (state.setActivity outcome.id .running) outcome.events
  match outcome.result with
  | .completed output =>
    let record ← recordOf state outcome.id
    let (state, _) ← e.completeActivity state outcome.id { record with attempts := outcome.attempts } output
    return (state, v)
  | .failed msg =>
    let state ← e.commitFailure state outcome msg
    return (state, v.fail s!"activity `{outcome.id}` failed: {msg}")
  | .interrupted msg =>
    let state ← e.commitInterrupt state outcome
    return (state, v.suspend outcome.id msg)

def commitActivities (state : ExecutionState) (v : Verdicts)
    : List IsolatedOutcome → Action ω (ExecutionState × Verdicts)
  | [] => return (state, v)
  | outcome :: outcomes => do
    let (state, v) ← e.commitActivity state v outcome
    commitActivities state v outcomes

def batchTasks (d : Definition) (state : ExecutionState)
    : List String → Option (List (Task ⊕ IsolatedOutcome))
  | [] => some []
  | id :: ids =>
    match d.activity id, state.activity? id, batchTasks d state ids with
    | some a, some record, some tasks =>
      some (.inl {
        activity := a
        policy := d.retryFor id
        vars := state.vars
        attempt := record.attempts } :: tasks)
    | _, _, _ => none

def runReadyBatch (d : Definition) (gas : Nat) (state : ExecutionState) (batch : List String)
    : Action ω (ExecutionState × BatchStep) := do
  let tasks ← Prog.ofOption (batchTasks d state batch)
  let outcomes ← e.race state.executionId gas tasks
  let (state, v) ← e.commitActivities state {} outcomes
  match v.failure, v.interrupt with
  | some msg, _ => return (state, .failed msg)
  | none, some (activity, msg) => return (state, .interrupted activity msg)
  | none, none => return (state, .allSettled)

def runCompensation (a : ActivityDef) (policy : RetryPolicy)
    : Nat → Nat → ExecutionState → Action ω (ExecutionState × Except String Unit)
  | 0, _, _ => Prog.halt
  | gas + 1, attempts, state => do
    let attempt := attempts + 1
    let (_, reply) ← e.callExecutor state.executionId true (a.context state.vars attempt)
    match reply with
    | .panic _ => Prog.halt
    | .output output =>
      let record ← recordOf state a.id
      let state := state.setRecord a.id
        { record with state := .completed, attempts := attempt, output := some output }
      return (state.setVariable a.id output, .ok ())
    | .error (.retryable msg) =>
      if attempt < policy.maxAttempts then
        runCompensation a policy gas attempt state
      else
        return (state, .error (ActivityError.retryable msg).display)
    | .error err => return (state, .error err.display)

-- The completed activities that declare a handler, the last one first.
def rollbackPlan (d : Definition) (state : ExecutionState) : List (String × String) :=
  state.completedOrder.reverse.filterMap fun id =>
    ((d.activity id).bind (·.compensate)).map fun comp => (id, comp)

def rollback (d : Definition) (gas : Nat) (error : String)
    : List (String × String) → ExecutionState → Action ω (ExecutionState × RunOutcome)
  | [], state => do
    let state ← e.transition state .failed .compensationCompleted
    e.checkpoint state
    return (state, .compensated error)
  | (activityId, compId) :: plan, state => do
    let a ← Prog.ofOption (d.activity compId)
    match ← e.runCompensation a (d.retryFor compId) gas 0 state with
    | (state, .ok ()) =>
      let state ← e.emit state (.compensationStepCompleted activityId compId)
      e.checkpoint state
      rollback d gas error plan state
    | (state, .error compErr) =>
      let state ← e.emit state (.compensationStepFailed activityId compId compErr)
      e.checkpoint state
      return (state, .failed s!"compensation failed: {compErr} (original failure: {error})")

def markFailed (state : ExecutionState) (error : String) : Action ω ExecutionState := do
  if state.status = .running then
    let state ← e.transition state .failed (.workflowFailed error)
    e.checkpoint state
    return state
  else
    return state

def compensate (d : Definition) (gas : Nat) (state : ExecutionState) (error : String)
    : Action ω (RunOutcome × ExecutionState) := do
  let state ← e.markFailed state error
  if rollbackPlan d state = [] then
    return (.failed error, state)
  else
    let plan := rollbackPlan d state
    let state ← e.transition state .compensating .compensationStarted
    e.checkpoint state
    let (state, outcome) ← e.rollback d gas error plan state
    return (outcome, state)

def interrupt (state : ExecutionState) (activity msg : String)
    : Action ω (RunOutcome × ExecutionState) := do
  let state ← e.emit state (.workflowInterrupted activity)
  e.checkpoint state
  return (.interrupted msg, state)

def runActivity (drive : Definition → ExecutionState → Action ω (RunOutcome × ExecutionState))
    (d : Definition) (gas : Nat) (state : ExecutionState) (id : String)
    : Action ω (ExecutionState × Step) := do
  let a ← Prog.ofOption (d.activity id)
  if a.activityType = "wait" then
    e.runWait state a
  else if a.activityType = "workflow" then
    e.runSubworkflow drive state a
  else if isForEach a.activityType then
    e.runForEach d gas state a
  else
    e.runAttempts a (d.retryFor id) gas state

def finish (state : ExecutionState) : Action ω (RunOutcome × ExecutionState) := do
  let state ← e.transition state .completed .workflowCompleted
  e.checkpoint state
  return (.completed, state)

-- The one activity that is ready, or the end of the road.
def driveOne (drive : Definition → ExecutionState → Action ω (RunOutcome × ExecutionState))
    (d : Definition) (gas : Nat) (state : ExecutionState) : Action ω (RunOutcome × ExecutionState) := do
  match ← Prog.ofOption (e.nextReady d state) with
  | none => e.compensate d gas state "workflow is blocked: no runnable activities remain"
  | some id =>
    let (state, step) ← e.runActivity drive d gas state id
    match step with
    | .completed => drive d state
    | .failed msg => e.compensate d gas state msg
    | .interrupted msg => e.interrupt state id msg

def drive : Nat → Definition → ExecutionState → Action ω (RunOutcome × ExecutionState)
  | 0, _, _ => Prog.halt
  | gas + 1, d, state => do
    let state ← e.applySkips d d.spec.activities.length state
    if ← Prog.ofOption (forwardComplete d state) then
      e.finish state
    else
      let batch ← Prog.ofOption (e.readyBatch d state)
      if 1 < batch.length then
        let (state, step) ← e.runReadyBatch d gas state batch
        match step with
        | .allSettled => drive gas d state
        | .failed msg => e.compensate d gas state msg
        | .interrupted activity msg => e.interrupt state activity msg
      else
        e.driveOne (drive gas) d gas state

def resume (gas : Nat) (d : Definition) (executionId : String)
    : Action ω (RunOutcome × ExecutionState) :=
  e.resumeWith (e.drive gas) d executionId

def deliver (gas : Nat) (d : Definition) (executionId key : String) (payload : Value)
    : Action ω (RunOutcome × ExecutionState) := do
  match ← e.latest executionId with
  | none => Prog.fail (.notFound s!"no checkpoint for execution `{executionId}`")
  | some state =>
    e.checkpoint (state.setVariable key payload)
    e.resume gas d executionId

def signalEvent (gas : Nat) (d : Definition) (executionId name : String) (payload : Value)
    : Action ω (RunOutcome × ExecutionState) :=
  e.deliver gas d executionId ("event." ++ name) payload

def fireTimer (gas : Nat) (d : Definition) (executionId timer : String)
    : Action ω (RunOutcome × ExecutionState) :=
  e.deliver gas d executionId ("timer." ++ timer) (.bool true)

def skipOpen (record : ActivityRecord) : ActivityRecord :=
  match record.state with
  | .completed | .failed | .skipped => record
  | _ => { record with state := .skipped }

def cancel (executionId : String) : Action ω ExecutionState := do
  match ← e.latest executionId with
  | none => Prog.fail (.notFound s!"execution `{executionId}` not found")
  | some state =>
    if state.status.isTerminal then
      Prog.fail (.conflict
        s!"execution `{executionId}` is already {state.status.debug} and cannot be cancelled")
    else
      let activities := state.activities.map fun _ record => skipOpen record
      let state ← e.transition { state with activities } .cancelled .workflowCancelled
      e.checkpoint state
      return state

end Wovyr.Workflow.Engine
