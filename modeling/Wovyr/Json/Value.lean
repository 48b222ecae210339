import Mathlib.Data.Rat.Defs
import Mathlib.Data.List.Lookmap

/-!
This module contains the JSON values that `serde_json` passes between the parts of the program.
-/

namespace Wovyr

/--
A `serde_json::Value`. Integers cover `u64` and `i64`, a finite `f64` is the rational it denotes.
An object keeps its fields in the order in which they were inserted.
-/
inductive Value where
  | null
  | bool (b : Bool)
  | int (n : Int)
  | float (q : Rat)
  | string (s : String)
  | array (xs : List Value)
  | object (fields : List (String × Value))
deriving Repr, Inhabited

namespace Value

mutual

protected def decEq (v w : Value) : Decidable (v = w) :=
  match v, w with
  | .null, .null => isTrue rfl
  | .bool a, .bool b => decidable_of_iff (a = b) (by simp)
  | .int a, .int b => decidable_of_iff (a = b) (by simp)
  | .float a, .float b => decidable_of_iff (a = b) (by simp)
  | .string a, .string b => decidable_of_iff (a = b) (by simp)
  | .array xs, .array ys =>
    match Value.decEqList xs ys with
    | isTrue h => isTrue (by rw [h])
    | isFalse h => isFalse (by simpa using h)
  | .object xs, .object ys =>
    match Value.decEqFields xs ys with
    | isTrue h => isTrue (by rw [h])
    | isFalse h => isFalse (by simpa using h)
  | .null, .bool _ | .null, .int _ | .null, .float _ | .null, .string _ | .null, .array _
  | .null, .object _ | .bool _, .null | .bool _, .int _ | .bool _, .float _ | .bool _, .string _
  | .bool _, .array _ | .bool _, .object _ | .int _, .null | .int _, .bool _ | .int _, .float _
  | .int _, .string _ | .int _, .array _ | .int _, .object _ | .float _, .null | .float _, .bool _
  | .float _, .int _ | .float _, .string _ | .float _, .array _ | .float _, .object _
  | .string _, .null | .string _, .bool _ | .string _, .int _ | .string _, .float _
  | .string _, .array _ | .string _, .object _ | .array _, .null | .array _, .bool _
  | .array _, .int _ | .array _, .float _ | .array _, .string _ | .array _, .object _
  | .object _, .null | .object _, .bool _ | .object _, .int _ | .object _, .float _
  | .object _, .string _ | .object _, .array _ => isFalse (by simp)

protected def decEqList (xs ys : List Value) : Decidable (xs = ys) :=
  match xs, ys with
  | [], [] => isTrue rfl
  | [], _ :: _ => isFalse (by simp)
  | _ :: _, [] => isFalse (by simp)
  | x :: xs, y :: ys =>
    match Value.decEq x y, Value.decEqList xs ys with
    | isTrue hx, isTrue hxs => isTrue (by rw [hx, hxs])
    | isFalse hx, _ => isFalse (by simp [hx])
    | _, isFalse hxs => isFalse (by simp [hxs])

protected def decEqFields (xs ys : List (String × Value)) : Decidable (xs = ys) :=
  match xs, ys with
  | [], [] => isTrue rfl
  | [], _ :: _ => isFalse (by simp)
  | _ :: _, [] => isFalse (by simp)
  | (k, x) :: xs, (l, y) :: ys =>
    match decEq k l, Value.decEq x y, Value.decEqFields xs ys with
    | isTrue hk, isTrue hx, isTrue hxs => isTrue (by rw [hk, hx, hxs])
    | isFalse hk, _, _ => isFalse (by simp [hk])
    | _, isFalse hx, _ => isFalse (by simp [hx])
    | _, _, isFalse hxs => isFalse (by simp [hxs])

end

instance : DecidableEq Value := Value.decEq

end Wovyr.Value
