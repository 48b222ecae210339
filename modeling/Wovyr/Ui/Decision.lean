import Std.Data.ExtTreeMap
import Wovyr.Json.Value
import Wovyr.Ui.Frame

/-!
This module contains the decisions of a human over a presented frame and their validation against
the frame.
-/

namespace Wovyr.Ui

structure Float64 where
  ofInt : Int → Rat
  display : Rat → String

structure UiDecision where
  action : String
  values : Std.ExtTreeMap String Value

def findInput (frame : UiFrame) (name : String) : Option UiNode :=
  frame.nodes.find? fun node => node.input?.map Prod.fst == some name

section

variable (f64 : Float64)

def asF64 : Value → Option Rat
  | .int n => some (f64.ofInt n)
  | .float q => some q
  | _ => none

def checkMinimum (name : String) (n : Rat) : Option Rat → Except Error Unit
  | some min =>
    if n < min then
      .error (.invalid
        s!"input `{name}` value {f64.display n} is below the minimum {f64.display min}")
    else
      .ok ()
  | none => .ok ()

def checkMaximum (name : String) (n : Rat) : Option Rat → Except Error Unit
  | some max =>
    if max < n then
      .error (.invalid
        s!"input `{name}` value {f64.display n} is above the maximum {f64.display max}")
    else
      .ok ()
  | none => .ok ()

def checkValue (input : UiNode) (name : String) (value : Value) : Except Error Unit :=
  match input with
  | .textInput _ _ _ required _ =>
    match value with
    | .string text =>
      if required ∧ text = "" then
        .error (.invalid s!"required input `{name}` must be non-empty")
      else
        .ok ()
    | _ => .error (.invalid s!"input `{name}` expects a string value")
  | .numberInput _ _ min max _ =>
    match asF64 f64 value with
    | none => .error (.invalid s!"input `{name}` expects a numeric value")
    | some n => do
      checkMinimum f64 name n min
      checkMaximum f64 name n max
  | .select _ _ options _ =>
    match value with
    | .string chosen =>
      if options.any (·.value == chosen) then
        .ok ()
      else
        .error (.invalid s!"input `{name}` value `{chosen}` is not one of the declared options")
    | _ => .error (.invalid s!"input `{name}` expects a string option value")
  | .checkbox _ _ _ =>
    match value with
    | .bool _ => .ok ()
    | _ => .error (.invalid s!"input `{name}` expects a boolean value")
  | _ => .error (.invalid s!"`{name}` does not accept a submitted value")

def checkValues (frame : UiFrame) : List (String × Value) → Except Error Unit
  | [] => .ok ()
  | (name, value) :: values =>
    match findInput frame name with
    | none => .error (.invalid s!"decision supplies a value for undeclared input `{name}`")
    | some input => do
      checkValue f64 input name value
      checkValues frame values

def UiNode.required? : UiNode → Option String
  | .textInput name _ _ true _ => some name
  | .numberInput name _ _ _ true => some name
  | .select name _ _ true => some name
  | _ => none

def checkRequired (decision : UiDecision) : List UiNode → Except Error Unit
  | [] => .ok ()
  | node :: nodes =>
    match node.required? with
    | none => checkRequired decision nodes
    | some name =>
      if decision.values.contains name then
        checkRequired decision nodes
      else
        .error (.invalid s!"decision `{decision.action}` requires a value for input `{name}`")

def declaredActions (actions : List (String × String × ActionClass)) : String :=
  if actions = [] then
    "none"
  else
    ", ".intercalate (actions.map fun a => "`" ++ a.1 ++ "`")

def validateDecision (frame : UiFrame) (decision : UiDecision) : Except Error Unit :=
  match frame.actions.find? fun a => a.1 == decision.action with
  | none =>
    .error (.invalid
      s!"decision action `{decision.action}` is not declared by the frame (declared: {declaredActions frame.actions})")
  | some (_, _, actionClass) => do
    checkValues f64 frame decision.values.toList
    if actionClass.isAffirmative then
      checkRequired decision frame.nodes

end

end Wovyr.Ui
