import Wovyr.Lib.Client
import Wovyr.Lib.Map
import Wovyr.Provider.Breaker

/-!
This module contains the circuit breaker that gateways share through a store of counters.
-/

namespace Wovyr.Provider

def asI64 (n : Nat) : Int :=
  Int.bmod n (2 ^ 64)

def asU64 (i : Int) : Nat :=
  (i % 2 ^ 64).toNat

def asU32 (i : Int) : Nat :=
  (i % 2 ^ 32).toNat

theorem asU64_asI64 {n : Nat} (h : n < 2 ^ 64) : asU64 (asI64 n) = n := by
  unfold asU64 asI64
  have hmod : Int.bmod n (2 ^ 64) % 2 ^ 64 = (n : Int) % 2 ^ 64 := Int.bmod_emod
  omega

theorem asU32_natCast {n : Nat} (h : n < 2 ^ 32) : asU32 n = n := by
  unfold asU32
  omega

inductive KvOp where
  | incr (key : String) (ttlMs : Nat)
  | getI64 (key : String)
  | setI64 (key : String) (value : Int) (ttlMs : Nat)
  | del (keys : List String)
deriving DecidableEq

def KvRes : KvOp → Type
  | .incr _ _ => Except Unit Int
  | .getI64 _ => Except Unit (Option Int)
  | .setI64 _ _ _ => Except Unit Unit
  | .del _ => Except Unit Unit

abbrev BreakerKv (α : Type) := Client KvOp KvRes α

-- A value and when its lifetime ends.
abbrev Kv := Std.ExtTreeMap String (Int × Option Nat)

namespace Kv

-- The time of a store that enforces lifetimes.
variable (clock : Option Nat)

def isLive (e : Int × Option Nat) : Bool :=
  clock.all fun now => e.2.all fun deadline => decide (now < deadline)

def get? (kv : Kv) (key : String) : Option (Int × Option Nat) :=
  (kv[key]?).filter (isLive clock)

def exec : (op : KvOp) → Kv → KvRes op × Kv
  | .incr key ttlMs, kv =>
    let (value, deadline) := (get? clock kv key).getD (0, clock.map (· + ttlMs))
    let value := Int.bmod (value + 1) (2 ^ 64)
    (.ok value, kv.insert key (value, deadline))
  | .getI64 key, kv => (.ok ((get? clock kv key).map Prod.fst), kv)
  | .setI64 key value ttlMs, kv => (.ok (), kv.insert key (value, clock.map (· + ttlMs)))
  | .del keys, kv => (.ok (), keys.foldl (fun kv key => kv.erase key) kv)

@[simp]
theorem get?_insert (kv : Kv) (key key' : String) (e : Int × Option Nat)
    : get? clock (kv.insert key e) key' = if key = key' then (some e).filter (isLive clock) else get? clock kv key' := by
  unfold get?
  rw [Map.getElem?_insert]
  split
  . rfl
  . rfl

@[simp]
theorem get?_erase (kv : Kv) (key key' : String)
    : get? clock (kv.erase key) key' = if key = key' then none else get? clock kv key' := by
  unfold get?
  rw [Map.getElem?_erase]
  split
  . rfl
  . rfl

def down : (op : KvOp) → Kv → KvRes op × Kv
  | .incr _ _, kv => (.error (), kv)
  | .getI64 _, kv => (.error (), kv)
  | .setI64 _ _ _, kv => (.error (), kv)
  | .del _, kv => (.error (), kv)

end Kv

-- It accepts lifetimes and does not enforce them.
def InMemoryKv.exec : (op : KvOp) → Kv → KvRes op × Kv :=
  Kv.exec none

structure SharedCircuitBreaker where
  cfg : BreakerConfig
  keyPrefix : String

namespace SharedCircuitBreaker

variable (b : SharedCircuitBreaker) (nowMs : Nat)

def kFails : String := b.keyPrefix ++ ":fails"

def kOpen : String := b.keyPrefix ++ ":open"

def kHalf : String := b.keyPrefix ++ ":half"

@[simp]
theorem kFails_ne_kOpen : b.kFails ≠ b.kOpen := by
  simp [kFails, kOpen]

@[simp]
theorem kFails_ne_kHalf : b.kFails ≠ b.kHalf := by
  simp [kFails, kHalf]

@[simp]
theorem kOpen_ne_kHalf : b.kOpen ≠ b.kHalf := by
  simp [kOpen, kHalf]

def failsTtlMs : Nat :=
  max (min (b.cfg.openDurationMs * 4) (2 ^ 64 - 1)) 30000

-- The cool-down has elapsed, so that a bounded number of trials is let in.
def tryHalfOpen : BreakerKv Bool :=
  .call (.incr b.kHalf b.cfg.openDurationMs) fun
    | .ok n => .done (decide (asU32 n ≤ b.cfg.halfOpenMaxCalls))
    | .error _ => .done true

def allow : BreakerKv Bool :=
  .call (.getI64 b.kOpen) fun
    | .ok none => .done true
    | .ok (some openUntil) => if nowMs < asU64 openUntil then .done false else b.tryHalfOpen
    | .error _ => .done true

def onSuccess : BreakerKv Unit :=
  .call (.del [b.kFails, b.kOpen, b.kHalf]) fun _ => .done ()

def clearHalf : BreakerKv Unit :=
  .call (.del [b.kHalf]) fun _ => .done ()

def trip : BreakerKv Unit :=
  .call (.setI64 b.kOpen (asI64 ((nowMs + b.cfg.openDurationMs) % 2 ^ 64)) b.failsTtlMs) fun _ =>
    b.clearHalf

def inHalfOpen : KvRes (.getI64 b.kOpen) → Bool
  | .ok (some openUntil) => decide (asU64 openUntil ≤ nowMs)
  | _ => false

def decideTrip (fails : Nat) : BreakerKv Unit :=
  .call (.getI64 b.kOpen) fun res =>
    if b.inHalfOpen nowMs res || decide (b.cfg.failureThreshold ≤ fails) then b.trip nowMs else .done ()

def onFailure : BreakerKv Unit :=
  .call (.incr b.kFails b.failsTtlMs) fun
    | .ok n => b.decideTrip nowMs (asU32 n)
    | .error _ => .done ()

end Wovyr.Provider.SharedCircuitBreaker
