import Wovyr.Lib.Map
import Wovyr.Ui.Hash
import Wovyr.Ui.Soundness

/-!
This module contains the trust layer of the server: how the policy of a tenant is found and how a
frame is judged before it is presented.
-/

namespace Wovyr.Server.Ui

open Wovyr.Ui

inductive PolicySource where
  | unrestricted
  | floor
  | policy (policy : UiPolicy)
deriving Repr, DecidableEq, Inhabited

-- What is found under the path of a policy file, where `document` holds what the YAML decodes to.
inductive PolicyFile where
  | notFound
  | unreadable (reason : String)
  | document (decoded : Except String UiPolicy)
deriving Repr, Inhabited

structure UiRuntime where
  policies : Std.ExtTreeMap String UiPolicy := ∅
  policiesDir : Option (String → PolicyFile) := none
  defaultPolicy : Option UiPolicy := none
  unrestricted : Bool := false

inductive PresentError where
  | invalid (msg : String)
  | policyResolution (err : Error)
  | blocked (rule : String)
deriving Repr, DecidableEq, Inhabited

namespace PresentError

def toApiError : PresentError → ApiError
  | .invalid msg => ⟨400, "validation_failed", msg⟩
  | .policyResolution err => ⟨500, "internal_error", err.display⟩
  | .blocked rule => ⟨403, "blocked", s!"ui frame blocked by policy rule `{rule}`"⟩

end PresentError

def fromYaml : Except String UiPolicy → Except Error UiPolicy
  | .error e => .error (.invalid s!"invalid ui policy: {e}")
  | .ok policy => policy.check

def sanitize (u : Unicode) (tenant : String) : String :=
  String.ofList (tenant.toList.map fun c =>
    if u.isAlphanumeric c || c == '-' || c == '_' then c else '_')

section

variable (u : Unicode) (decode : Value → Except String UiFrame)

def fromValue (value : Value) : Except Error UiFrame :=
  match decode value with
  | .error e => .error (.invalid s!"invalid ui frame: {e}")
  | .ok frame =>
    match frame.validate with
    | .error e => .error e
    | .ok () => .ok frame

namespace UiRuntime

def fallback (rt : UiRuntime) : PolicySource :=
  match rt.defaultPolicy with
  | some policy => .policy policy
  | none => .floor

def policyFor (rt : UiRuntime) (tenant : String) : Except Error PolicySource :=
  if rt.unrestricted then
    .ok .unrestricted
  else
    match rt.policies[tenant]? with
    | some policy => .ok (.policy policy)
    | none =>
      match rt.policiesDir with
      | none => .ok rt.fallback
      | some dir =>
        match dir (sanitize u tenant ++ ".yaml") with
        | .document decoded => (fromYaml decoded).map .policy
        | .notFound => .ok rt.fallback
        | .unreadable e => .error (.config s!"ui policy for tenant `{tenant}` is unreadable: {e}")

def verdictOf (source : PolicySource) (frame : UiFrame) : Option (Verdict × String) :=
  match source with
  | .unrestricted => some (.allow, "unrestricted")
  | .floor => some (hostedFloor frame, "hosted-floor")
  | .policy policy => (evaluate u policy frame).map fun verdict => (verdict, policy.reference)

-- The result is `none` where a redaction panics.
def judgeFrame (rt : UiRuntime) (tenant : String) (frameValue : Value)
    (stamp : Provenance → Provenance) : Option (Except PresentError (UiFrame × String)) :=
  match fromValue decode frameValue with
  | .error e => some (.error (.invalid e.display))
  | .ok frame =>
    let frame := { frame with provenance := stamp frame.provenance }
    match rt.policyFor u tenant with
    | .error e => some (.error (.policyResolution e))
    | .ok source =>
      match verdictOf u source frame with
      | none => none
      | some (.allow, policyRef) => some (.ok (frame, policyRef))
      | some (.redact redacted _, policyRef) => some (.ok (redacted, policyRef))
      | some (.block rule _, _) => some (.error (.blocked rule))

end UiRuntime

theorem fromValue_eq_ok {value : Value} {frame : UiFrame}
    : fromValue decode value = .ok frame ↔ decode value = .ok frame ∧ frame.validate = .ok () := by
  unfold fromValue
  split
  . simp_all
  . next frame' hdecode =>
    rw [hdecode]
    split
    . next hvalid =>
      simp only [reduceCtorEq, false_iff, not_and, Except.ok.injEq]
      rintro rfl
      simp [hvalid]
    . next hvalid =>
      simp only [Except.ok.injEq]
      constructor
      . rintro rfl
        exact ⟨rfl, hvalid⟩
      . exact And.left

theorem validate_stamp (frame : UiFrame) (provenance : Provenance)
    : { frame with provenance }.validate = frame.validate :=
  rfl

theorem judgeFrame_eq_ok {rt : UiRuntime} {tenant : String} {value : Value}
    {stamp : Provenance → Provenance} {shown : UiFrame} {policyRef : String}
    : rt.judgeFrame u decode tenant value stamp = some (.ok (shown, policyRef))
        ↔
      ∃ frame source verdict,
        fromValue decode value = .ok frame
          ∧ rt.policyFor u tenant = .ok source
          ∧ UiRuntime.verdictOf u source { frame with provenance := stamp frame.provenance }
              = some (verdict, policyRef)
          ∧ verdict.shown { frame with provenance := stamp frame.provenance } = some shown := by
  unfold UiRuntime.judgeFrame
  split
  . next hvalue => simp [hvalue]
  . next frame hvalue =>
    dsimp only
    split
    . next hpolicy => simp [hpolicy]
    . next source hpolicy =>
      simp only [hvalue, hpolicy, Except.ok.injEq]
      split
      . next hverdict => simp [hverdict]
      . next hverdict => simp [hverdict, Verdict.shown, and_comm]
      . next hverdict => simp [hverdict, Verdict.shown, and_comm]
      . next hverdict => simp [hverdict, Verdict.shown]

-- Every frame that is presented under the policy satisfies its rules.
def PolicySound (policy : UiPolicy) : Prop :=
  ∀ (rt : UiRuntime) (tenant : String) (value : Value) (stamp : Provenance → Provenance)
    (frame : UiFrame) (policyRef : String),
    rt.policyFor u tenant = .ok (.policy policy) →
    rt.judgeFrame u decode tenant value stamp = some (.ok (frame, policyRef)) →
    Sound u policy frame

-- A frame that is presented without a policy has no input and no button.
def FloorSound : Prop :=
  ∀ (rt : UiRuntime) (tenant : String) (value : Value) (stamp : Provenance → Provenance)
    (frame : UiFrame) (policyRef : String),
    rt.policyFor u tenant = .ok .floor →
    rt.judgeFrame u decode tenant value stamp = some (.ok (frame, policyRef)) →
    frame.inputs = [] ∧ frame.actions = []

theorem policySound_of_covered {policy : UiPolicy} (hcovered : Covered u policy)
    : PolicySound u decode policy := by
  intro rt tenant value stamp shown policyRef hpolicy hjudge
  obtain ⟨frame, source, verdict, hvalue, hsource, hverdict, hshown⟩ :=
    (judgeFrame_eq_ok u decode).mp hjudge
  rw [hpolicy, Except.ok.injEq] at hsource
  subst hsource
  simp only [UiRuntime.verdictOf, Option.map_eq_some_iff, Prod.mk.injEq] at hverdict
  obtain ⟨verdict, hevaluate, rfl, -⟩ := hverdict
  have hvalid := ((fromValue_eq_ok decode).mp hvalue).2
  rw [← validate_stamp frame (stamp frame.provenance)] at hvalid
  obtain ⟨hvalid', hpassed⟩ := evaluate_shown u hvalid hevaluate hshown
  exact sound_of_passed u hcovered hvalid' hpassed

theorem hostedFloor_shown {frame shown : UiFrame} (h : (hostedFloor frame).shown frame = some shown)
    : shown.inputs = [] ∧ shown.actions = [] := by
  unfold hostedFloor at h
  split at h
  . cases h
  . next hinteractive =>
    cases h
    simp only [UiFrame.isInteractive, Bool.not_eq_true, List.any_eq_false, Bool.or_eq_true,
      not_or, Option.isSome_eq_false_iff, Option.isNone_iff_eq_none] at hinteractive
    constructor
    . exact List.filterMap_eq_nil_iff.mpr fun node hnode => (hinteractive node hnode).1
    . exact List.filterMap_eq_nil_iff.mpr fun node hnode => (hinteractive node hnode).2

theorem floorSound : FloorSound u decode := by
  intro rt tenant value stamp shown policyRef hpolicy hjudge
  obtain ⟨frame, source, verdict, hvalue, hsource, hverdict, hshown⟩ :=
    (judgeFrame_eq_ok u decode).mp hjudge
  rw [hpolicy, Except.ok.injEq] at hsource
  subst hsource
  cases hverdict
  exact hostedFloor_shown hshown

def UiRuntime.only (policy : UiPolicy) : UiRuntime where
  defaultPolicy := some policy

theorem policyFor_only (policy : UiPolicy) (tenant : String)
    : (UiRuntime.only policy).policyFor u tenant = .ok (.policy policy) := by
  simp [UiRuntime.policyFor, UiRuntime.only, UiRuntime.fallback]

theorem covered_of_policySound {policy : UiPolicy}
    (hdecode : ∀ token, decode (credentialFrame token).toValue = .ok (credentialFrame token))
    (h : PolicySound u decode policy) : Covered u policy := by
  by_contra hcovered
  obtain ⟨token, hvalid, hevaluate, hsound⟩ := exists_credentialFrame_of_not_covered u hcovered
  apply hsound
  apply h (UiRuntime.only policy) "acme" (credentialFrame token).toValue id (credentialFrame token)
    policy.reference
  . exact policyFor_only u policy "acme"
  . rw [judgeFrame_eq_ok]
    refine ⟨credentialFrame token, .policy policy, .allow, ?_, policyFor_only u policy "acme", ?_, rfl⟩
    . exact (fromValue_eq_ok decode).mpr ⟨hdecode token, hvalid⟩
    . simp only [UiRuntime.verdictOf, id]
      rw [hevaluate]
      rfl

end

theorem policySound_and_floorSound_iff_covered (u : Unicode) (decode : Value → Except String UiFrame)
    (hdecode : ∀ token, decode (credentialFrame token).toValue = .ok (credentialFrame token))
    (policy : UiPolicy)
    : PolicySound u decode policy ∧ FloorSound u decode ↔ Covered u policy := by
  constructor
  . intro h
    exact covered_of_policySound u decode hdecode h.1
  . intro h
    exact ⟨policySound_of_covered u decode h, floorSound u decode⟩

def tokenPolicy (tokens : List String) : UiPolicy where
  name := "strict"
  version := 1
  rules := { sensitiveInputTokens := tokens }

def readCredential : Value → Except String UiFrame
  | .object ((_, .object ((_, .array (.object ((_, .string token) :: _) :: _)) :: _)) :: _) =>
    .ok (credentialFrame token)
  | _ => .error "missing field `root`"

theorem readCredential_toValue (token : String)
    : readCredential (credentialFrame token).toValue = .ok (credentialFrame token) := by
  simp [credentialFrame, UiFrame.toValue, UiNode.toValue, toValues, record, Wovyr.Ui.optional,
    Json.sortFields, List.insertionSort, List.orderedInsert, Json.byKey, readCredential]

theorem policySound_api_key_split
    : PolicySound .asciiOnly readCredential (tokenPolicy ["api_key", "key"])
        ∧
      FloorSound .asciiOnly readCredential := by
  rw [policySound_and_floorSound_iff_covered _ _ readCredential_toValue]
  right
  right
  right
  decide

theorem not_policySound_api_key
    : (UiRuntime.only (tokenPolicy ["api_key"])).judgeFrame .asciiOnly readCredential "acme"
          (credentialFrame "API_KEY").toValue id
        = some (.ok (credentialFrame "API_KEY", "strict@v1"))
        ∧
      ¬Sound .asciiOnly (tokenPolicy ["api_key"]) (credentialFrame "API_KEY")
        ∧
      ¬PolicySound .asciiOnly readCredential (tokenPolicy ["api_key"]) := by
  have hsound : ¬Sound .asciiOnly (tokenPolicy ["api_key"]) (credentialFrame "API_KEY") := by
    intro h
    have hinput : ("API_KEY", "API_KEY") ∈ (credentialFrame "API_KEY").inputs := by decide
    have := h.sensitive rfl _ hinput "API_KEY" (by simp) "api_key" (by decide)
    exact this.1 (by decide)
  have hjudge : (UiRuntime.only (tokenPolicy ["api_key"])).judgeFrame .asciiOnly readCredential "acme"
      (credentialFrame "API_KEY").toValue id
      = some (.ok (credentialFrame "API_KEY", "strict@v1")) := by
    rw [judgeFrame_eq_ok]
    refine ⟨credentialFrame "API_KEY", .policy (tokenPolicy ["api_key"]), .allow, ?_,
      policyFor_only _ _ "acme", ?_, rfl⟩
    . exact (fromValue_eq_ok _).mpr
        ⟨readCredential_toValue _, validate_credentialFrame (by decide)⟩
    . simp only [UiRuntime.verdictOf, id]
      rw [evaluate_credentialFrame _ (by decide) (by decide) (by decide)]
      rfl
  refine ⟨hjudge, hsound, ?_⟩
  intro h
  exact hsound (h _ "acme" _ id _ _ (policyFor_only _ _ "acme") hjudge)

end Wovyr.Server.Ui
