import Wovyr.Lib.Except
import Wovyr.Lib.Text

/-!
This module contains the error type that all crates share, less the two variants that wrap an error
of a library, and the error envelope of the HTTP API.
-/

namespace Wovyr

inductive Error where
  | config (msg : String)
  | notFound (msg : String)
  | invalid (msg : String)
  | forbidden (msg : String)
  | conflict (msg : String)
  | quotaExceeded (msg : String)
  | provider (message : String) (retryAfterMs : Option Nat)
  | tool (msg : String)
  | runtime (msg : String)
deriving Repr, DecidableEq, Inhabited

def Error.display : Error → String
  | .config msg => "configuration error: " ++ msg
  | .notFound msg => "not found: " ++ msg
  | .invalid msg => "invalid input: " ++ msg
  | .forbidden msg => "forbidden: " ++ msg
  | .conflict msg => "conflict: " ++ msg
  | .quotaExceeded msg => "quota exceeded: " ++ msg
  | .provider message _ => "provider error: " ++ message
  | .tool msg => "tool error: " ++ msg
  | .runtime msg => "runtime error: " ++ msg

structure ApiError where
  status : Nat
  code : String
  message : String
deriving Repr, DecidableEq, Inhabited

def ApiError.ofError : Error → ApiError
  | .config msg => ⟨400, "validation_failed", msg⟩
  | .invalid msg => ⟨400, "validation_failed", msg⟩
  | .notFound msg => ⟨404, "not_found", msg⟩
  | .forbidden msg => ⟨403, "forbidden", msg⟩
  | .conflict msg => ⟨409, "conflict", msg⟩
  | .quotaExceeded msg => ⟨429, "quota_exceeded", msg⟩
  | .provider message _ => ⟨502, "provider_error", message⟩
  | other => ⟨500, "internal_error", other.display⟩

instance : MonadLift (Except Error) (Except ApiError) where
  monadLift
    | .ok a => .ok a
    | .error e => .error (ApiError.ofError e)

theorem liftM_eq_ok (x : Except Error α) (a : α)
    : (liftM x : Except ApiError α) = .ok a ↔ x = .ok a := by
  cases x <;> simp [liftM, monadLift, MonadLift.monadLift]

end Wovyr
