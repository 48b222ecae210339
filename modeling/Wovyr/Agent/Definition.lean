import Wovyr.Common
import Wovyr.Provider.Types
import Wovyr.Tools.Tool

/-!
This module contains what an agent is, what a run of it is given, and the events of a run. The history of a run
is compacted to keep it within a budget of tokens, which are estimated.
-/

namespace Wovyr.Agent

open Provider Tools

inductive GuardrailStage where
  | input
  | output
deriving DecidableEq

def GuardrailStage.debug : GuardrailStage → String
  | .input => "Input"
  | .output => "Output"

inductive GuardrailDecision where
  | allow
  | redact (replacement : String)
  | block (reason : String)

structure Guardrail where
  name : String
  appliesTo : GuardrailStage → Bool := fun _ => true
  check : GuardrailStage → String → Except Error GuardrailDecision

abbrev Guardrails := List Guardrail

namespace Guardrails

def checksOutput (gs : Guardrails) : Bool :=
  gs.any fun g => g.appliesTo .output

def apply (stage : GuardrailStage) : Guardrails → String → Except Error String
  | [], content => .ok content
  | g :: gs, content =>
    if g.appliesTo stage then
      match g.check stage content with
      | .error e =>
        .error (.runtime ("guardrail `" ++ g.name ++ "` failed on " ++ stage.debug ++ " (" ++ e.display
          ++ "); failing closed"))
      | .ok .allow => apply stage gs content
      | .ok (.redact replacement) => apply stage gs replacement
      | .ok (.block reason) =>
        let what :=
          match stage with
          | .input => "the input"
          | .output => "the answer"
        .error (.forbidden ("guardrail `" ++ g.name ++ "` blocked " ++ what ++ ": " ++ reason))
    else
      apply stage gs content

/--
What it means that every guardrail of a stage has checked or rewritten a content in order, the last
one leaving `content'`.
-/
inductive Passes (stage : GuardrailStage) : Guardrails → String → String → Prop where
  | nil (content : String) : Passes stage [] content content
  | skip {g : Guardrail} {gs : Guardrails} {content content' : String} :
    g.appliesTo stage = false → Passes stage gs content content' → Passes stage (g :: gs) content content'
  | allow {g : Guardrail} {gs : Guardrails} {content content' : String} :
    g.appliesTo stage = true → g.check stage content = .ok .allow → Passes stage gs content content' →
      Passes stage (g :: gs) content content'
  | redact {g : Guardrail} {gs : Guardrails} {content replacement content' : String} :
    g.appliesTo stage = true → g.check stage content = .ok (.redact replacement) →
      Passes stage gs replacement content' → Passes stage (g :: gs) content content'

theorem apply_eq_ok {stage : GuardrailStage} {gs : Guardrails} {content content' : String}
    : apply stage gs content = .ok content' ↔ Passes stage gs content content' := by
  constructor
  . intro h
    induction gs generalizing content with
    | nil =>
      cases h
      exact .nil _
    | cons g gs ih =>
      unfold apply at h
      split at h
      . rename_i happlies
        split at h
        . cases h
        . rename_i hcheck
          exact .allow happlies hcheck (ih h)
        . rename_i hcheck
          exact .redact happlies hcheck (ih h)
        . cases h
      . rename_i happlies
        exact .skip (Bool.eq_false_iff.mpr happlies) (ih h)
  . intro h
    induction h with
    | nil => rfl
    | skip happlies _ ih =>
      unfold apply
      rw [happlies, if_neg Bool.false_ne_true]
      exact ih
    | allow happlies hcheck _ ih =>
      unfold apply
      rw [if_pos happlies, hcheck]
      exact ih
    | redact happlies hcheck _ ih =>
      unfold apply
      rw [if_pos happlies, hcheck]
      exact ih

end Guardrails

def perMessageOverhead : Nat := 4

def perToolOverhead : Nat := 8

namespace HeuristicTokenizer

variable (u : Unicode)

def countChunk : List Char → Nat → Nat
  | [], run => (run + 3) / 4
  | c :: cs, run =>
    if u.isAlphanumeric c then
      countChunk cs (run + 1)
    else
      (run + 3) / 4 + 1 + countChunk cs 0

def count (text : String) : Nat :=
  let tokens := ((text.toList.splitOnP Text.isWhitespace).map fun chunk => countChunk u chunk 0).sum
  if tokens = 0 ∧ Text.trim text ≠ "" then 1 else tokens

def countMessage (m : Message) : Nat :=
  perMessageOverhead + (m.content.map (count u)).getD 0
    + (m.toolCalls.map fun call =>
        count u call.name + count u call.arguments + perMessageOverhead).sum
    + (m.name.map (count u)).getD 0

end HeuristicTokenizer

structure ContextPolicy where
  maxPromptTokens : Nat := 96000

structure Compacted where
  messages : List Message
  droppedMessages : Nat
  tokensAfter : Nat

def preambleEnd (messages : List Message) : Nat :=
  let systems := (messages.takeWhile fun m => m.role == .system).length
  match messages[systems]? with
  | some m => if m.role = .user then systems + 1 else systems
  | none => systems

def groupRounds (tail : List Message) : List (List Message) :=
  tail.foldl (fun rounds m =>
    match rounds.getLast? with
    | some last =>
      if m.role = .assistant then rounds ++ [[m]] else rounds.dropLast ++ [last ++ [m]]
    | none => [[m]]) []

def dropOldest (total : List (List Message) → Nat) (budget : Nat)
    : List (List Message) → List (List Message)
  | [] => []
  | round :: rounds =>
    if total (round :: rounds) ≤ budget then round :: rounds else dropOldest total budget rounds

def compact (u : Unicode) (messages : List Message) (toolsOverhead : Nat) (policy : ContextPolicy)
    : Compacted :=
  let total (ms : List Message) : Nat := toolsOverhead + (ms.map (HeuristicTokenizer.countMessage u)).sum
  if total messages ≤ policy.maxPromptTokens then
    { messages, droppedMessages := 0, tokensAfter := total messages }
  else
    let preamble := messages.take (preambleEnd messages)
    let rounds := dropOldest (fun rounds => total (preamble ++ rounds.flatten)) policy.maxPromptTokens
      (groupRounds (messages.drop (preambleEnd messages)))
    let out := preamble ++ rounds.flatten
    { messages := out, droppedMessages := messages.length - out.length, tokensAfter := total out }

structure ModelSelector where
  capability : String := "chat"
  modelClass : String := "fast"

structure Retrieval where
  strategy : Option String := none
  limit : Option Nat := none

structure MemorySpec where
  enabled : Bool := false
  space : Option String := none
  retrieval : Retrieval := {}
  tags : List String := []

structure AgentDefinition where
  name : String
  instructions : String := ""
  -- The template that the manifest names in place of instructions.
  prompt : Option String := none
  model : Option String := none
  modelSelector : Option ModelSelector := none
  temperature : Option Rat := none
  maxTokens : Option Nat := none
  maxSteps : Option Nat := none
  tools : List String := []
  permissions : Option (List String) := none
  memory : Option MemorySpec := none

def AgentDefinition.selector (d : AgentDefinition) : ModelSelector :=
  d.modelSelector.getD {}

def resolveModel (providerName : String) (pinned : Option String) (selector : ModelSelector) : String :=
  match pinned with
  | some model => model
  | none =>
    match providerName with
    | "openai" =>
      match selector.modelClass with
      | "balanced" | "frontier" => "gpt-4o"
      | _ => "gpt-4o-mini"
    | "anthropic" =>
      match selector.modelClass with
      | "frontier" => "claude-opus-4-8"
      | "balanced" => "claude-sonnet-5"
      | _ => "claude-haiku-4-5"
    | other => other ++ "-" ++ selector.capability ++ "-" ++ selector.modelClass

structure RetrievedContext where
  source : String
  content : String
  score : Rat

structure RunOptions where
  input : Value
  maxSteps : Option Nat := none
  tenant : String := ""
  hosted : Bool := false
  egressAllowlist : Option (List String) := none
  trustClass : TrustClass := .firstParty
  context : ContextPolicy := {}
  stepRetries : Nat := 2
  guardrails : Guardrails := []

inductive RunEvent where
  | start (model provider : String)
  | memoryRetrieved (source : String) (score : Rat)
  | delta (text : String)
  | toolCallDelta (index : Nat) (name arguments : String)
  | reasoningDelta (text : String)
  | toolCall (name arguments : String)
  | toolResult (name : String) (ok : Bool)
  | done (usage : Usage)
deriving DecidableEq

inductive ChatStreamEvent where
  | delta (text : String)
  | toolCallDelta (index : Nat) (id name arguments : String)
  | reasoningDelta (text : String)
  | done (response : ChatResponse)

abbrev Stream := Except Error (List (Except Error ChatStreamEvent))

structure AgentOutput where
  text : String
  usage : Usage
  steps : Nat

structure Setup where
  definition : AgentDefinition
  registry : ToolRegistry
  opts : RunOptions
  providerName : String
  retriever : Option (String → MemorySpec → Except Error (List RetrievedContext)) := none
  unicode : Unicode
  fmt : Formats
  parseJson : String → Except String Value
  -- The sum of two `f64`.
  addCost : Rat → Rat → Rat
  -- `WOVYR_UNRESTRICTED_TOOLS=1`
  unrestrictedToolsEscapeHatch : Bool := false

def valueToString (fmt : Formats) (v : Value) : String :=
  String.ofList (Json.render fmt.json v)

end Wovyr.Agent
