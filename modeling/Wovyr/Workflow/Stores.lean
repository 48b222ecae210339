import Wovyr.Lib.Lines
import Wovyr.Workflow.Executor

/-!
This module contains the stores of the event log and of the checkpoints: the one in memory and the one
over the files of a directory. The file system is a map from names to contents, and the JSON codec is a
parameter.
-/

namespace Wovyr.Workflow

structure ExecutionFilter where
  workflowName : Option String := none
  status : Option WorkflowState := none
  limit : Option Nat := none
deriving Repr, DecidableEq, Inhabited

def ExecutionFilter.matchesState (filter : ExecutionFilter) (state : ExecutionState) : Bool :=
  (match filter.workflowName with
    | some name => state.workflowName == name
    | none => true)
  && (match filter.status with
    | some status => state.status == status
    | none => true)

def applyFilter (snapshots : List ExecutionState) (filter : ExecutionFilter) : List ExecutionState :=
  let sorted := (snapshots.filter filter.matchesState).mergeSort fun a b => a.executionId ≤ b.executionId
  match filter.limit with
  | some limit => sorted.take limit
  | none => sorted

structure Codec where
  encodeEvent : WorkflowEvent → String
  decodeEvent : String → Except Error WorkflowEvent
  encodeState : ExecutionState → String
  decodeState : String → Except Error ExecutionState

structure Scan where
  entries : List ExecutionState → List ExecutionState
  names : List String → List String
  entries_perm : ∀ l, (entries l).Perm l
  names_perm : ∀ l, (names l).Perm l

inductive StoreOp where
  | append (executionId : String) (event : WorkflowEvent)
  | load (executionId : String)
  | loadPage (executionId : String) (offset limit : Nat)
  | save (snapshot : ExecutionState)
  | latest (executionId : String)
  | list (filter : ExecutionFilter)
  | reopen

inductive StoreResult where
  | appended (seq : Nat)
  | events (r : Except Error (List WorkflowEvent))
  | saved
  | snapshot (r : Except Error (Option ExecutionState))
  | snapshots (r : Except Error (List ExecutionState))
  | reopened

structure InMemoryStore where
  events : Std.ExtTreeMap String (List WorkflowEvent) := ∅
  checkpoints : Std.ExtTreeMap String ExecutionState := ∅

namespace InMemoryStore

def append (store : InMemoryStore) (executionId : String) (event : WorkflowEvent) : Nat × InMemoryStore :=
  let log := store.events[executionId]?.getD [] ++ [event]
  (log.length, { store with events := store.events.insert executionId log })

def load (store : InMemoryStore) (executionId : String) : List WorkflowEvent :=
  store.events[executionId]?.getD []

def loadPage (store : InMemoryStore) (executionId : String) (offset limit : Nat) : List WorkflowEvent :=
  ((store.load executionId).drop offset).take limit

def save (store : InMemoryStore) (snapshot : ExecutionState) : InMemoryStore :=
  { store with checkpoints := store.checkpoints.insert snapshot.executionId snapshot }

def latest (store : InMemoryStore) (executionId : String) : Option ExecutionState :=
  store.checkpoints[executionId]?

def list (scan : Scan) (store : InMemoryStore) (filter : ExecutionFilter) : List ExecutionState :=
  applyFilter (scan.entries store.checkpoints.values) filter

-- The clones of a store share what is behind it.
def step (scan : Scan) (store : InMemoryStore) : StoreOp → StoreResult × InMemoryStore
  | .append id event => ((store.append id event).1 |> .appended, (store.append id event).2)
  | .load id => (.events (.ok (store.load id)), store)
  | .loadPage id offset limit => (.events (.ok (store.loadPage id offset limit)), store)
  | .save snapshot => (.saved, store.save snapshot)
  | .latest id => (.snapshot (.ok (store.latest id)), store)
  | .list filter => (.snapshots (.ok (store.list scan filter)), store)
  | .reopen => (.reopened, store)

end InMemoryStore

structure FileStore where
  dir : Std.ExtTreeMap String String := ∅
  seqs : Std.ExtTreeMap String Nat := ∅

namespace FileStore

def stem (executionId : String) : String :=
  String.ofList (executionId.toList.map stemChar)

def eventsPath (executionId : String) : String :=
  stem executionId ++ ".events.jsonl"

def checkpointPath (executionId : String) : String :=
  stem executionId ++ ".checkpoint.json"

def loadLines (dir : Std.ExtTreeMap String String) (path : String) : List String :=
  match dir[path]? with
  | some contents => Lines.lines contents
  | none => []

def isBlank (line : String) : Bool :=
  Text.trim line == ""

section

variable (codec : Codec)

def append (store : FileStore) (executionId : String) (event : WorkflowEvent) : Nat × FileStore :=
  let path := eventsPath executionId
  let contents := store.dir[path]?.getD "" ++ codec.encodeEvent event ++ "\n"
  let dir := store.dir.insert path contents
  let seq :=
    match store.seqs[executionId]? with
    | some last => last + 1
    | none => (loadLines dir path).length
  (seq, { dir, seqs := store.seqs.insert executionId seq })

def load (store : FileStore) (executionId : String) : Except Error (List WorkflowEvent) :=
  ((loadLines store.dir (eventsPath executionId)).filter fun line => !isBlank line).mapM codec.decodeEvent

-- The lines that are skipped are counted with the blank ones, those of the page without them.
def readPage : Nat → List String → Except Error (List WorkflowEvent)
  | 0, _ | _ + 1, [] => .ok []
  | limit + 1, line :: lines =>
    if isBlank line then
      readPage (limit + 1) lines
    else
      match codec.decodeEvent line with
      | .ok event => (readPage limit lines).map (event :: ·)
      | .error err => .error err

def loadPage (store : FileStore) (executionId : String) (offset limit : Nat)
    : Except Error (List WorkflowEvent) :=
  readPage codec limit ((loadLines store.dir (eventsPath executionId)).drop offset)

def save (store : FileStore) (snapshot : ExecutionState) : FileStore :=
  { store with dir := store.dir.insert (checkpointPath snapshot.executionId) (codec.encodeState snapshot) }

def latest (store : FileStore) (executionId : String) : Except Error (Option ExecutionState) :=
  match store.dir[checkpointPath executionId]? with
  | some contents => (codec.decodeState contents).map some
  | none => .ok none

-- The id of an execution is taken from its snapshot, the name of the file does not give it back.
def list (scan : Scan) (store : FileStore) (filter : ExecutionFilter) : Except Error (List ExecutionState) :=
  let names := (scan.names store.dir.keys).filter (".checkpoint.json".toList.isSuffixOf ·.toList)
  (names.mapM fun name => codec.decodeState (store.dir[name]?.getD "")).map (applyFilter · filter)

def step (scan : Scan) (store : FileStore) : StoreOp → StoreResult × FileStore
  | .append id event => ((append codec store id event).1 |> .appended, (append codec store id event).2)
  | .load id => (.events (store.load codec id), store)
  | .loadPage id offset limit => (.events (store.loadPage codec id offset limit), store)
  | .save snapshot => (.saved, store.save codec snapshot)
  | .latest id => (.snapshot (store.latest codec id), store)
  | .list filter => (.snapshots (store.list codec scan filter), store)
  | .reopen => (.reopened, { store with seqs := ∅ })

end

end Wovyr.Workflow.FileStore
