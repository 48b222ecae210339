import Wovyr.Ui.Frame

/-!
This module contains the policies for generated interfaces and their evaluation on a frame. A
redaction works on byte offsets, where the program panics the result is `none`.
-/

namespace Wovyr.Ui

def defaultSensitiveInputTokens : List String :=
  ["password", "passcode", "passphrase", "card", "cvv", "cvc", "ssn", "secret", "token", "iban",
    "passport", "otp", "pin", "tan", "mfa", "2fa", "credit", "apikey"]

def negativeLabelTokens : List String :=
  ["cancel", "no", "stop", "back", "reject", "decline", "abort", "dismiss", "never"]

def destructiveLabelTokens : List String :=
  ["delete", "remove", "terminate", "destroy", "drop", "wipe", "erase", "purge", "revoke"]

structure PolicyRules where
  maxNodes : Nat := 256
  maxDepth : Nat := 16
  allowDestructiveActions : Bool := false
  allowSensitiveInputNames : Bool := false
  sensitiveInputTokens : List String := []
  allowedMediaOrigins : List String := []
  redactTextPatterns : List String := []
deriving Repr, DecidableEq, Inhabited

structure UiPolicy where
  name : String
  version : Nat
  rules : PolicyRules
deriving Repr, DecidableEq, Inhabited

-- The checks of `from_yaml` on a document that was parsed.
def UiPolicy.check (policy : UiPolicy) : Except Error UiPolicy :=
  if policy.name = "" then
    .error (.invalid "ui policy requires a non-empty name")
  else if policy.version = 0 then
    .error (.invalid "ui policy version must be >= 1 (versions are audited; 0 is reserved)")
  else
    .ok policy

def UiPolicy.reference (policy : UiPolicy) : String :=
  policy.name ++ "@v" ++ toString policy.version

inductive Verdict where
  | allow
  | redact (frame : UiFrame) (rules : List String)
  | block (rule reason : String)
deriving Repr, Inhabited

def hostedFloor (frame : UiFrame) : Verdict :=
  if frame.isInteractive then
    .block "hosted_floor" "no ui policy is configured for this tenant; interactive frames are denied by default (display-only frames pass)"
  else
    .allow

mutual

def depth : UiNode → Nat
  | .column children => 1 + maxDepthOf children
  | .row children => 1 + maxDepthOf children
  | .card _ children => 1 + maxDepthOf children
  | _ => 1

def maxDepthOf : List UiNode → Nat
  | [] => 0
  | node :: nodes => max (depth node) (maxDepthOf nodes)

end

def frameDepth (frame : UiFrame) : Nat :=
  depth frame.root

section

variable (u : Unicode)

def UiPolicy.sensitiveTokens (policy : UiPolicy) : List String :=
  if policy.rules.sensitiveInputTokens = [] then
    defaultSensitiveInputTokens
  else
    policy.rules.sensitiveInputTokens.map u.lower

-- Whether an origin of the allow-list, an exact host or a `.suffix`, covers the host.
def originPermits (host origin : String) : Bool :=
  let origin := u.lower origin
  match Text.stripPrefix "." origin with
  | some suffix => host == suffix || ("." ++ suffix).toList.isSuffixOf host.toList
  | none => host == origin

def mediaViolation (url : String) (allowed : List String) : Option String :=
  if allowed = [] then
    some "frame embeds an image but the policy allows no media origins"
  else
    match (Text.stripPrefix "https://" url).or (Text.stripPrefix "HTTPS://" url) with
    | none => some s!"image url `{url}` is not https — media references must be https"
    | some withoutScheme =>
      let rest := withoutScheme.toList.takeWhile fun c => !(c == '/' || c == '?' || c == '#')
      let host := u.lower (String.ofList (rest.takeWhile (· ≠ ':')))
      if host = "" then
        some s!"image url `{url}` has no host"
      else if allowed.any (originPermits u host) then
        none
      else
        some s!"image origin `{host}` is not in the policy's allowed media origins"

def mediaBlock (policy : UiPolicy) (node : UiNode) : Option Verdict :=
  match node with
  | .image url _ => (mediaViolation u url policy.rules.allowedMediaOrigins).map (.block "media_origin")
  | _ => none

def sensitiveToken (sensitive : List String) (field : String) : Option String :=
  (u.tokens field).find? (· ∈ sensitive)

def sensitiveBlock (policy : UiPolicy) (sensitive : List String) (node : UiNode) : Option Verdict :=
  match node.input? with
  | none => none
  | some (name, label) =>
    match (sensitiveToken u sensitive name).or (sensitiveToken u sensitive label) with
    | none => none
    | some token =>
      some (.block "sensitive_input"
        s!"input `{name}` is named/labelled like a credential or PII prompt (matched token `{token}`); generated frames must never collect credentials (policy `{policy.reference}`)")

def ActionClass.debug : ActionClass → String
  | .confirm => "Confirm"
  | .approve => "Approve"
  | .submit => "Submit"
  | .cancel => "Cancel"
  | .reject => "Reject"
  | .destructive => "Destructive"
  | .neutral => "Neutral"

def actionBlock (policy : UiPolicy) (button : String × String × ActionClass) : Option Verdict :=
  let (action, label, actionClass) := button
  if actionClass = .destructive ∧ policy.rules.allowDestructiveActions = false then
    some (.block "destructive_action"
      s!"action `{action}` declares class `destructive`, which policy `{policy.reference}` does not allow")
  else if actionClass.isAffirmative ∧ (u.tokens label).any (· ∈ negativeLabelTokens) then
    some (.block "intent_mismatch"
      s!"action `{action}` declares affirmative class `{actionClass.debug}` but its label reads as backing out — a deceptive control shape")
  else if actionClass ≠ .destructive ∧ (u.tokens label).any (· ∈ destructiveLabelTokens) then
    some (.block "intent_mismatch"
      s!"action `{action}` has a destructive-reading label but declares class `{actionClass.debug}` — destructive effects must be declared as `destructive`")
  else
    none

def splitAtByte : List Char → Nat → Option (List Char × List Char)
  | cs, 0 => some ([], cs)
  | [], _ + 1 => none
  | c :: cs, n + 1 =>
    if c.utf8Size ≤ n + 1 then
      (splitAtByte cs (n + 1 - c.utf8Size)).map fun (before, after) => (c :: before, after)
    else
      none

def replaceRange (text : List Char) (start stop : Nat) (replacement : List Char)
    : Option (List Char) :=
  match splitAtByte text start with
  | none => none
  | some (before, rest) =>
    match splitAtByte rest (stop - start) with
    | none => none
    | some (_, after) => some (before ++ replacement ++ after)

def byteLength (cs : List Char) : Nat :=
  (cs.map Char.utf8Size).sum

def blackout (pattern : List Char) : List Char :=
  List.replicate pattern.length '█'

-- The occurrences of a pattern are searched in the lower case of the text as it was given, from the
-- byte offset `start` on, where `lower` is what is left of it.
def scrubPattern (pattern lower : List Char) (start : Nat) (text : List Char) (hit : Bool)
    : Option (List Char × Bool) :=
  match lower with
  | [] => some (text, hit)
  | c :: rest =>
    if pattern ≠ [] ∧ pattern.isPrefixOf (c :: rest) then
      match replaceRange text start (start + byteLength pattern) (blackout pattern) with
      | none => none
      | some text =>
        scrubPattern pattern ((c :: rest).drop pattern.length) (start + byteLength pattern) text true
    else
      scrubPattern pattern rest (start + c.utf8Size) text hit
termination_by lower.length
decreasing_by
  . have hpattern : 0 < pattern.length := by
      apply List.length_pos_of_ne_nil
      tauto
    simp only [List.length_drop, List.length_cons]
    omega
  . simp

def scrub (patterns : List String) (text : String) : Option (String × Bool) :=
  let lower := u.toLowercase text.toList
  let result := patterns.foldlM (fun (text, hit) pattern =>
    scrubPattern (u.toLowercase pattern.toList) lower 0 text hit) (text.toList, false)
  result.map fun (text, hit) => (String.ofList text, hit)

def scrubEntries (patterns : List String) : List KeyValueEntry → Option (List KeyValueEntry × Bool)
  | [] => some ([], false)
  | entry :: entries =>
    match scrub u patterns entry.value, scrubEntries patterns entries with
    | some (value, hit), some (entries, hit') => some ({ entry with value } :: entries, hit || hit')
    | _, _ => none

mutual

def redactNode (patterns : List String) : UiNode → Option (UiNode × Bool)
  | .text text style => (scrub u patterns text).map fun (text, hit) => (.text text style, hit)
  | .badge text tone => (scrub u patterns text).map fun (text, hit) => (.badge text tone, hit)
  | .keyValue entries =>
    (scrubEntries u patterns entries).map fun (entries, hit) => (.keyValue entries, hit)
  | .column children =>
    (redactNodes patterns children).map fun (children, hit) => (.column children, hit)
  | .row children => (redactNodes patterns children).map fun (children, hit) => (.row children, hit)
  | .card title children =>
    (redactNodes patterns children).map fun (children, hit) => (.card title children, hit)
  | node => some (node, false)

def redactNodes (patterns : List String) : List UiNode → Option (List UiNode × Bool)
  | [] => some ([], false)
  | node :: nodes =>
    match redactNode patterns node, redactNodes patterns nodes with
    | some (node, hit), some (nodes, hit') => some (node :: nodes, hit || hit')
    | _, _ => none

end

def blocked (policy : UiPolicy) (frame : UiFrame) : Option Verdict :=
  if policy.rules.maxNodes < frame.nodes.length then
    some (.block "max_nodes"
      s!"frame has {frame.nodes.length} nodes; policy `{policy.reference}` allows {policy.rules.maxNodes}")
  else if policy.rules.maxDepth < frameDepth frame then
    some (.block "max_depth"
      s!"frame depth {frameDepth frame} exceeds policy `{policy.reference}` budget {policy.rules.maxDepth}")
  else
    let media := frame.nodes.findSome? (mediaBlock u policy)
    let sensitive :=
      if policy.rules.allowSensitiveInputNames then
        none
      else
        frame.nodes.findSome? (sensitiveBlock u policy (policy.sensitiveTokens u))
    let actions := frame.actions.findSome? (actionBlock u policy)
    media.or (sensitive.or actions)

def evaluate (policy : UiPolicy) (frame : UiFrame) : Option Verdict :=
  match blocked u policy frame with
  | some verdict => some verdict
  | none =>
    if policy.rules.redactTextPatterns = [] then
      some .allow
    else
      match redactNode u policy.rules.redactTextPatterns frame.root with
      | none => none
      | some (root, true) => some (.redact { frame with root } ["redact_text"])
      | some (_, false) => some .allow

end

end Wovyr.Ui
