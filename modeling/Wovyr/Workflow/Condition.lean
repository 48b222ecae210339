import Wovyr.Json.Text
import Wovyr.Workflow.Definition

/-!
This module contains the guard expressions of transitions and the resolution of placeholders in
inputs.
-/

namespace Wovyr.Value

mutual

def equals : Value → Value → Bool
  | .array xs, .array ys => equalsAll xs ys
  | .object xs, .object ys => xs.length == ys.length && equalsFields xs ys
  | v, w => v == w

def equalsAll : List Value → List Value → Bool
  | [], [] => true
  | x :: xs, y :: ys => equals x y && equalsAll xs ys
  | _, _ => false

def equalsFields : List (String × Value) → List (String × Value) → Bool
  | [], _ => true
  | (key, v) :: fields, other => (other.lookup key).any (fun w => equals v w) && equalsFields fields other

end

-- The fields of an object have no order.
example : equals (.object [("x", .int 1), ("y", .int 2)]) (.object [("y", .int 2), ("x", .int 1)]) = true := by decide

end Value

namespace Workflow

def lookupPath (vars : Variables) (path : String) : Value :=
  match Text.split '.' path with
  | [] => .null
  | head :: parts =>
    match vars[head]? with
    | none => .null
    | some value => (parts.foldlM (fun current part => field? part current) value).getD .null

namespace Condition

/-
Finds the operator outside quotes. The result is what stands before it and what stands after it.
-/
def findOp (op : List Char) (quote : Option Char) (before : List Char)
    : List Char → Option (List Char × List Char)
  | [] => none
  | c :: rest =>
    match quote with
    | some q => findOp op (if c = q then none else some q) (c :: before) rest
    | none =>
      if c = '\'' ∨ c = '"' then
        findOp op (some c) (c :: before) rest
      else if op.isPrefixOf (c :: rest) then
        some (before.reverse, (c :: rest).drop op.length)
      else
        findOp op none (c :: before) rest

theorem findOp_length {op before text left right : List Char} {quote : Option Char}
    (hop : op ≠ []) (h : findOp op quote before text = some (left, right))
    : right.length < text.length := by
  induction text generalizing quote before with
  | nil => cases h
  | cons c rest ih =>
    unfold findOp at h
    split at h
    . have := ih h
      simp only [List.length_cons]
      omega
    . split at h
      . have := ih h
        simp only [List.length_cons]
        omega
      . split at h
        . cases h
          have := List.length_pos_of_ne_nil hop
          simp only [List.length_drop, List.length_cons]
          omega
        . have := ih h
          simp only [List.length_cons]
          omega

def splitTop (sep : Char) (text : List Char) : List (List Char) :=
  match _h : findOp [sep, sep] none [] text with
  | none => [text]
  | some (before, rest) => before :: splitTop sep rest
termination_by text.length
decreasing_by exact findOp_length (by simp) _h

def trim (text : List Char) : List Char :=
  (text.dropWhile Text.isWhitespace).rdropWhile Text.isWhitespace

def quoted (q : Char) (token : List Char) : Bool :=
  token.head? == some q && token.getLast? == some q && 2 ≤ token.length

section

variable (p : Platform) (vars : Variables)

def resolve (token : List Char) : Value :=
  let token := trim token
  if quoted '\'' token || quoted '"' token then
    .string (String.ofList (token.drop 1).dropLast)
  else
    match String.ofList token with
    | "true" => .bool true
    | "false" => .bool false
    | "null" => .null
    | path =>
      match p.parseF64 path with
      | some n => .float n
      | none => lookupPath vars path

def valuesEqual (a b : Value) : Bool :=
  match asF64 p a, asF64 p b with
  | some x, some y => x == y
  | _, _ => a.equals b

inductive Operator where
  | eq
  | ne
  | ge
  | le
  | gt
  | lt
deriving Repr, DecidableEq, Inhabited

def Operator.text : Operator → List Char
  | .eq => ['=', '=']
  | .ne => ['!', '=']
  | .ge => ['>', '=']
  | .le => ['<', '=']
  | .gt => ['>']
  | .lt => ['<']

def operators : List Operator :=
  [.eq, .ne, .ge, .le, .gt, .lt]

def Operator.apply (op : Operator) (lhs rhs : Value) : Bool :=
  match op with
  | .eq => valuesEqual p lhs rhs
  | .ne => !valuesEqual p lhs rhs
  | .ge => (asF64 p lhs).any fun a => (asF64 p rhs).any fun b => b ≤ a
  | .le => (asF64 p lhs).any fun a => (asF64 p rhs).any fun b => a ≤ b
  | .gt => (asF64 p lhs).any fun a => (asF64 p rhs).any fun b => b < a
  | .lt => (asF64 p lhs).any fun a => (asF64 p rhs).any fun b => a < b

def truthy : Value → Bool
  | .null => false
  | .bool b => b
  | .string s => s ≠ ""
  | .int n => n ≠ 0
  | .float q => q ≠ 0
  | _ => true

def evalCompare (expr : List Char) : Except String Bool :=
  let expr := trim expr
  if expr = [] then
    .error "empty comparison"
  else
    match operators.findSome? fun op => (findOp op.text none [] expr).map fun sides => (op, sides) with
    | some (op, lhs, rhs) => .ok (op.apply p (resolve p vars lhs) (resolve p vars rhs))
    | none => .ok (truthy (resolve p vars expr))

def evalAnd : List (List Char) → Except String Bool
  | [] => .ok true
  | part :: parts =>
    match evalCompare p vars part with
    | .error e => .error e
    | .ok false => .ok false
    | .ok true => evalAnd parts

def evalOr : List (List Char) → Except String Bool
  | [] => .ok false
  | part :: parts =>
    match evalAnd p vars (splitTop '&' part) with
    | .error e => .error e
    | .ok true => .ok true
    | .ok false => evalOr parts

def evaluate (expr : String) : Except String Bool :=
  let expr := trim expr.toList
  if expr = [] then .ok true else evalOr p vars (splitTop '|' expr)

end

end Condition

namespace Template

section

variable (p : Platform) (vars : Variables)

def valueToString : Value → List Char
  | .string s => s.toList
  | .null => []
  | other => Json.render p.writeF64 other

def closing : List Char → Option (List Char × List Char)
  | [] => none
  | '\x7d' :: rest => some ([], rest)
  | c :: rest => (closing rest).map fun (path, rest) => (c :: path, rest)

theorem closing_length {text path rest : List Char} (h : closing text = some (path, rest))
    : rest.length < text.length := by
  fun_induction closing text generalizing path with
  | case1 => cases h
  | case2 rest' =>
    cases h
    simp
  | case3 c rest' _ ih =>
    simp only [Option.map_eq_some_iff, Prod.exists, Prod.mk.injEq] at h
    obtain ⟨path', rest'', hclosing, -, rfl⟩ := h
    have := ih hclosing
    simp only [List.length_cons]
    omega

def embed (text : List Char) : List Char :=
  match text with
  | '$' :: '\x7b' :: after =>
    match _h : closing after with
    | none => '$' :: '\x7b' :: after
    | some (path, rest) =>
      valueToString p (lookupPath vars (Text.trim (String.ofList path))) ++ embed rest
  | c :: rest => c :: embed rest
  | [] => []
termination_by text.length
decreasing_by
  . have := closing_length _h
    simp only [List.length_cons]
    omega
  . simp

def substitute (s : String) : Value :=
  match (Text.stripPrefix "$\x7b" (Text.trim s)).bind (Text.stripSuffix "\x7d") with
  | some path => lookupPath vars (Text.trim path)
  | none => .string (String.ofList (embed p vars s.toList))

mutual

def resolve : Value → Value
  | .string s => substitute p vars s
  | .array items => .array (resolveList items)
  | .object fields => .object (resolveFields fields)
  | other => other

def resolveList : List Value → List Value
  | [] => []
  | v :: vs => resolve v :: resolveList vs

def resolveFields : List (String × Value) → List (String × Value)
  | [] => []
  | (k, v) :: fields => (k, resolve v) :: resolveFields fields

end

end

end Wovyr.Workflow.Template
