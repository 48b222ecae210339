import Wovyr.Common

/-!
This module contains the cron expressions of the schedules, with the calendar they are evaluated
against. The sets of permitted values are bit masks.
-/

namespace Wovyr.Workflow

-- A little over four years, in minutes.
def maxLookaheadMinutes : Nat := 4 * 366 * 24 * 60

structure Cron where
  minutes : Nat
  hours : Nat
  doms : Nat
  months : Nat
  dows : Nat
  domRestricted : Bool
  dowRestricted : Bool
deriving Repr, DecidableEq, Inhabited

namespace Cron

def monthNames : List String :=
  ["jan", "feb", "mar", "apr", "may", "jun", "jul", "aug", "sep", "oct", "nov", "dec"]

def dowNames : List String :=
  ["sun", "mon", "tue", "wed", "thu", "fri", "sat"]

-- Names of months count from one, those of days from zero.
def parseValue (token : String) (names : Option (List String)) (min max : Nat) : Except Error Nat :=
  let index :=
    match names with
    | some names => (names.findIdx? (· == Text.asciiLower token)).map (· + Nat.min min 1)
    | none => none
  match (Text.parseUnsigned (2 ^ 32) token).or index with
  | some n => .ok n
  | none => .error (.invalid s!"invalid cron value `{token}` (expected {min}..={max} or a name)")

-- The sum wraps. Every round that does not end the loop has a value of its own up to `hi`.
def stepMask (hi step : Nat) : Nat → Nat → Nat → Nat
  | 0, _, mask => mask
  | rounds + 1, v, mask =>
    if v ≤ hi then
      stepMask hi step rounds ((v + step) % 2 ^ 32) (mask ||| 1 <<< v)
    else
      mask

def parsePart (min max : Nat) (names : Option (List String)) (mask : Nat) (part : String)
    : Except Error Nat := do
  let part := Text.trim part
  let (rangePart, step) ←
    match Text.splitOnce '/' part with
    | some (r, s) =>
      match Text.parseUnsigned (2 ^ 32) s with
      | none => .error (.invalid s!"invalid cron step `{s}`")
      | some 0 => .error (.invalid "cron step must be > 0")
      | some step => .ok (Text.trim r, step)
    | none => .ok (part, 1)
  let (lo, hi) ←
    if rangePart = "*" then
      .ok (min, max)
    else
      match Text.splitOnce '-' rangePart with
      | some (a, b) => do
        let lo ← parseValue (Text.trim a) names min max
        let hi ← parseValue (Text.trim b) names min max
        .ok (lo, hi)
      | none => do
        let v ← parseValue rangePart names min max
        .ok (v, v)
  if lo < min ∨ max < hi ∨ hi < lo then
    .error (.invalid
      s!"cron value out of range or inverted in `{part}` (expected {min}..={max})")
  else
    .ok (stepMask hi step (hi + 2) lo mask)

def parseField (spec : String) (min max : Nat) (names : Option (List String)) : Except Error Nat :=
  let spec := Text.trim spec
  if spec = "" then
    .error (.invalid "empty cron field")
  else
    (Text.split ',' spec).foldlM (parsePart min max names) 0

def normalize (expr : String) : String :=
  match Text.asciiLower expr with
  | "@hourly" => "0 * * * *"
  | "@daily" => "0 0 * * *"
  | "@midnight" => "0 0 * * *"
  | "@weekly" => "0 0 * * 0"
  | "@monthly" => "0 0 1 * *"
  | "@yearly" => "0 0 1 1 *"
  | "@annually" => "0 0 1 1 *"
  | _ => expr

def parse (expr : String) : Except Error Cron :=
  let expr := Text.trim expr
  match Text.splitWhitespace (normalize expr) with
  | [minutes, hours, doms, months, dows] => do
    let minutesMask ← parseField minutes 0 59 none
    let hoursMask ← parseField hours 0 23 none
    let domsMask ← parseField doms 1 31 none
    let monthsMask ← parseField months 1 12 (some monthNames)
    let dowsMask ← parseField dows 0 7 (some dowNames)
    -- Sunday can be written as 7.
    let dowsMask := if dowsMask.testBit 7 then (dowsMask - 1 <<< 7) ||| 1 else dowsMask
    .ok {
      minutes := minutesMask
      hours := hoursMask
      doms := domsMask
      months := monthsMask
      dows := dowsMask
      domRestricted := Text.trim doms != "*"
      dowRestricted := Text.trim dows != "*" }
  | fields =>
    .error (.invalid s!"cron expression must have 5 fields (got {fields.length}): `{expr}`")

def civilFromDays (z : Int) : Int × Nat × Nat :=
  let z := z + 719468
  let era := (if 0 ≤ z then z else z - 146096).tdiv 146097
  let doe := (z - era * 146097).toNat
  let yoe := (doe - doe / 1460 + doe / 36524 - doe / 146096) / 365
  let y := (yoe : Int) + era * 400
  let doy := doe - (365 * yoe + yoe / 4 - yoe / 100)
  let mp := (5 * doy + 2) / 153
  let d := doy - (153 * mp + 2) / 5 + 1
  let m := if mp < 10 then mp + 3 else mp - 9
  (if m ≤ 2 then y + 1 else y, m, d)

def civilFields (epochSecs : Nat) : Int × Nat × Nat × Nat × Nat × Nat :=
  let days := epochSecs / 86400
  let rem := epochSecs % 86400
  let hour := rem / 3600
  let minute := rem % 3600 / 60
  let weekday := (days % 7 + 4) % 7
  let (year, month, day) := civilFromDays days
  (year, month, day, hour, minute, weekday)

def isMatch (c : Cron) (month day dow hour minute : Nat) : Bool :=
  if !c.minutes.testBit minute || !c.hours.testBit hour || !c.months.testBit month then
    false
  else
    let domOk := c.doms.testBit day
    let dowOk := c.dows.testBit dow
    match c.domRestricted, c.dowRestricted with
    | true, true => domOk || dowOk
    | true, false => domOk
    | false, true => dowOk
    | false, false => true

-- The product wraps.
def scan (c : Cron) : Nat → Nat → Option Nat
  | 0, _ => none
  | minutes + 1, minuteIdx =>
    let (_, month, day, hour, minute, dow) := civilFields (minuteIdx * 60)
    if c.isMatch month day dow hour minute then
      some (minuteIdx * 60000 % 2 ^ 64)
    else
      scan c minutes (minuteIdx + 1)

def nextAfter (c : Cron) (afterMs : Nat) : Option Nat :=
  c.scan maxLookaheadMinutes (afterMs / 60000 + 1)

end Wovyr.Workflow.Cron
