import Mathlib.Data.Rat.Defs
import Wovyr.Common
import Wovyr.Lib.Semver

/-!
This module contains the component tree of a generated interface and its structural validation.
-/

namespace Wovyr.Ui

def schemaVersion : String := "1.0.0"

def maxNodes : Nat := 512

def maxDepth : Nat := 32

structure Provenance where
  executionId : Option String := none
  activityId : Option String := none
  runId : Option String := none
  modelId : Option String := none
  promptRef : Option String := none
deriving Repr, DecidableEq, Inhabited

inductive TextStyle where
  | body
  | heading
  | caption
deriving Repr, DecidableEq, Inhabited

inductive Tone where
  | neutral
  | info
  | success
  | warning
  | danger
deriving Repr, DecidableEq, Inhabited

inductive ActionClass where
  | confirm
  | approve
  | submit
  | cancel
  | reject
  | destructive
  | neutral
deriving Repr, DecidableEq, Inhabited

def ActionClass.isAffirmative : ActionClass → Bool
  | .confirm | .approve | .submit | .destructive => true
  | _ => false

structure KeyValueEntry where
  key : String
  value : String
deriving Repr, DecidableEq, Inhabited

structure SelectOption where
  value : String
  label : String
deriving Repr, DecidableEq, Inhabited

inductive UiNode where
  | column (children : List UiNode)
  | row (children : List UiNode)
  | card (title : Option String) (children : List UiNode)
  | divider
  | text (text : String) (style : TextStyle)
  | badge (text : String) (tone : Tone)
  | keyValue (entries : List KeyValueEntry)
  | image (url alt : String)
  | textInput (name label : String) (placeholder : Option String) (required multiline : Bool)
  | numberInput (name label : String) (min max : Option Rat) (required : Bool)
  | select (name label : String) (options : List SelectOption) (required : Bool)
  | checkbox (name label : String) (checked : Bool)
  | button (action label : String) (actionClass : ActionClass)
deriving Repr, Inhabited

structure UiFrame where
  schemaVersion : String
  title : Option String
  provenance : Provenance
  root : UiNode
deriving Repr, Inhabited

def ensureVersionSupported (version : String) : Except Error Unit :=
  match Semver.parse schemaVersion, Semver.parse version with
  | .error e, _ => .error (.runtime s!"bad built-in schema version: {e.display}")
  | .ok _, .error e =>
    .error (.invalid s!"invalid ui frame schema_version `{version}`: {e.display}")
  | .ok ours, .ok theirs =>
    if theirs.major ≠ ours.major ∨ theirs.compare ours = .gt then
      .error (.invalid
        s!"ui frame schema_version `{version}` is newer than this runtime understands (`{schemaVersion}`); refusing to render a shape it may not fully validate")
    else
      .ok ()

structure Seen where
  count : Nat := 0
  inputNames : List String := []
  actionIds : List String := []
deriving Repr, DecidableEq, Inhabited

def registerInput (seen : Seen) (name label : String) : Except Error Seen :=
  if name = "" ∨ label = "" then
    .error (.invalid "ui input nodes require a non-empty `name` and `label`")
  else if name ∈ seen.inputNames then
    .error (.invalid s!"duplicate ui input name `{name}` — decision values must be unambiguous")
  else
    .ok { seen with inputNames := seen.inputNames ++ [name] }

def registerAction (seen : Seen) (action label : String) : Except Error Seen :=
  if action = "" ∨ label = "" then
    .error (.invalid "ui button nodes require a non-empty `action` and `label`")
  else if action ∈ seen.actionIds then
    .error (.invalid s!"duplicate ui action id `{action}` — decisions must be unambiguous")
  else
    .ok { seen with actionIds := seen.actionIds ++ [action] }

def checkOptions (name : String) (seen : List String) : List SelectOption → Except Error Unit
  | [] => .ok ()
  | opt :: options =>
    if opt.value = "" ∨ opt.label = "" then
      .error (.invalid s!"ui select `{name}` has an option with an empty value or label")
    else if opt.value ∈ seen then
      .error (.invalid s!"ui select `{name}` has duplicate option value `{opt.value}`")
    else
      checkOptions name (seen ++ [opt.value]) options

-- A node other than a container, once it is counted.
def validateLeaf (seen : Seen) : UiNode → Except Error Seen
  | .text text _ => if text = "" then .error (.invalid "ui text node with empty text") else .ok seen
  | .badge text _ =>
    if text = "" then .error (.invalid "ui badge node with empty text") else .ok seen
  | .keyValue entries =>
    if entries = [] then .error (.invalid "ui key_value node with no entries") else .ok seen
  | .image url alt =>
    if url = "" then
      .error (.invalid "ui image node with empty url")
    else if alt = "" then
      .error (.invalid "ui image node requires non-empty alt text")
    else
      .ok seen
  | .textInput name label _ _ _ => registerInput seen name label
  | .numberInput name label min max _ => do
    let seen ← registerInput seen name label
    match min, max with
    | some min, some max =>
      if max < min then throw (.invalid s!"ui number_input `{name}` has min > max") else return seen
    | _, _ => return seen
  | .select name label options _ => do
    let seen ← registerInput seen name label
    if options = [] then
      throw (.invalid s!"ui select `{name}` has no options")
    checkOptions name [] options
    return seen
  | .checkbox name label _ => registerInput seen name label
  | .button action label _ => registerAction seen action label
  | .column _ | .row _ | .card _ _ | .divider => .ok seen

mutual

def validateNode (depth : Nat) (seen : Seen) (node : UiNode) : Except Error Seen :=
  let seen := { seen with count := seen.count + 1 }
  if maxNodes < seen.count then
    .error (.invalid s!"ui frame exceeds the protocol cap of {maxNodes} nodes")
  else if maxDepth < depth then
    .error (.invalid s!"ui frame exceeds the protocol depth cap of {maxDepth}")
  else
    match node with
    | .column children | .row children | .card _ children => validateNodes (depth + 1) seen children
    | leaf => validateLeaf seen leaf

def validateNodes (depth : Nat) (seen : Seen) : List UiNode → Except Error Seen
  | [] => .ok seen
  | node :: nodes =>
    match validateNode depth seen node with
    | .error e => .error e
    | .ok seen => validateNodes depth seen nodes

end

namespace UiFrame

def validate (frame : UiFrame) : Except Error Unit := do
  ensureVersionSupported frame.schemaVersion
  let seen ← validateNode 1 {} frame.root
  if seen.inputNames ≠ [] ∧ seen.actionIds = [] then
    throw (.invalid "ui frame declares input nodes but no button to submit them")
  return ()

end UiFrame

mutual

def collect (node : UiNode) : List UiNode :=
  match node with
  | .column children => node :: collectAll children
  | .row children => node :: collectAll children
  | .card _ children => node :: collectAll children
  | _ => [node]

def collectAll : List UiNode → List UiNode
  | [] => []
  | node :: nodes => collect node ++ collectAll nodes

end

def UiNode.input? : UiNode → Option (String × String)
  | .textInput name label _ _ _ => some (name, label)
  | .numberInput name label _ _ _ => some (name, label)
  | .select name label _ _ => some (name, label)
  | .checkbox name label _ => some (name, label)
  | _ => none

def UiNode.button? : UiNode → Option (String × String × ActionClass)
  | .button action label actionClass => some (action, label, actionClass)
  | _ => none

namespace UiFrame

def nodes (frame : UiFrame) : List UiNode :=
  collect frame.root

def isInteractive (frame : UiFrame) : Bool :=
  frame.nodes.any fun n => n.input?.isSome || n.button?.isSome

def actions (frame : UiFrame) : List (String × String × ActionClass) :=
  frame.nodes.filterMap UiNode.button?

def inputs (frame : UiFrame) : List (String × String) :=
  frame.nodes.filterMap UiNode.input?

end Wovyr.Ui.UiFrame
