import Mathlib.Algebra.Order.BigOperators.Group.List
import Wovyr.Agent.Steps

/-!
This module contains what the requests of a run are made of: how the history is cut down to the token budget, and when
a request is within the budget.
-/

namespace Wovyr.Agent

open Provider Tools List

structure TokenCounter where
  count : String → Nat
  countMessage : Message → Nat

def heuristicTokenizer (u : Unicode) : TokenCounter where
  count := HeuristicTokenizer.count u
  countMessage := HeuristicTokenizer.countMessage u

namespace TokenCounter

variable (counter : TokenCounter)

def weight (messages : List Message) : Nat :=
  (messages.map counter.countMessage).sum

def toolsOverhead (fmt : Formats) (tools : List ToolSpec) : Nat :=
  (tools.map fun t =>
    counter.count t.name + counter.count t.description + counter.count (valueToString fmt t.parameters)
      + perToolOverhead).sum

def compact (messages : List Message) (toolsOverhead : Nat) (policy : ContextPolicy) : Compacted :=
  let total (ms : List Message) : Nat := toolsOverhead + counter.weight ms
  if total messages ≤ policy.maxPromptTokens then
    { messages, droppedMessages := 0, tokensAfter := total messages }
  else
    let preamble := messages.take (preambleEnd messages)
    let rounds := dropOldest (fun rounds => total (preamble ++ rounds.flatten)) policy.maxPromptTokens
      (groupRounds (messages.drop (preambleEnd messages)))
    let out := preamble ++ rounds.flatten
    { messages := out, droppedMessages := messages.length - out.length, tokensAfter := total out }

end TokenCounter

namespace Setup

variable (setup : Setup) (counter : TokenCounter)

-- The loop under any token counter.

def nextStepWith (r : RunState) : RunState :=
  if r.steps < setup.maxSteps then
    let compacted := counter.compact r.messages (counter.toolsOverhead setup.fmt r.tools) setup.opts.context
    { r with
      messages := compacted.messages
      phase := .asking (setup.stepRequest r compacted.messages) 0 }
  else
    setup.leave r ""

def acceptWith (r : RunState) (request : ChatRequest) (response : ChatResponse) : RunState :=
  let exchange : Exchange := { step := r.steps, request, response }
  if response.message.toolCalls = [] then
    setup.leave (setup.take r exchange) (response.message.content.getD "")
  else
    setup.nextStepWith counter (setup.callTools (setup.take r exchange) exchange)

def answerWith (r : RunState) (stream : Stream) : RunState :=
  match r.phase with
  | .ended _ => r
  | .asking request attempt =>
    let streamed := streamChat setup.bufferStreaming stream
    match streamed.result with
    | .ok response => setup.acceptWith counter (r.hear streamed) request response
    | .error e =>
      if isTransient e ∧ attempt < setup.opts.stepRetries then
        { r.hear streamed with phase := .asking request (attempt + 1) }
      else
        (r.hear streamed).finish (.error e)

def startWith : RunState :=
  if Text.trim setup.definition.instructions = "" then
    { phase := .ended (.error setup.emptyInstructions) }
  else
    let model := resolveModel setup.providerName setup.definition.model setup.definition.selector
    let started : RunEvent := .start model setup.providerName
    match setup.prepare with
    | .error e => { phase := .ended (.error e), events := [started] }
    | .ok (tools, hits, messages) =>
      setup.nextStepWith counter {
        tools, messages
        phase := .ended (.error (.runtime ""))
        events := started :: hits.map fun hit => .memoryRetrieved hit.source hit.score }

def runWith (streams : List Stream) : RunState :=
  streams.foldl (setup.answerWith counter) (setup.startWith counter)

theorem runWith_heuristicTokenizer (streams : List Stream)
    : setup.runWith (heuristicTokenizer setup.unicode) streams = setup.run streams := by
  have hnext : setup.nextStepWith (heuristicTokenizer setup.unicode) = setup.nextStep := rfl
  have hstart : setup.startWith (heuristicTokenizer setup.unicode) = setup.start := by
    rw [startWith, start, hnext]
    all_goals rfl
  have hanswer : setup.answerWith (heuristicTokenizer setup.unicode) = setup.answer := by
    funext r stream
    unfold answerWith answer acceptWith accept
    rw [hnext]
    all_goals rfl
  rw [runWith, run, hstart, hanswer]

end Setup

section Compact

variable {counter : TokenCounter} {preamble : List Message} {rounds : List (List Message)}

def IsRound : List Message → Prop
  | [] => False
  | m :: rest => m.role = .assistant ∧ ∀ x ∈ rest, x.role ≠ .assistant

def IsPreamble (messages : List Message) : Prop :=
  ∃ systems user, messages = systems ++ [user] ∧ (∀ m ∈ systems, m.role = .system) ∧ user.role = .user

def group (rounds : List (List Message)) (m : Message) : List (List Message) :=
  match rounds.getLast? with
  | some last =>
    if m.role = .assistant then rounds ++ [[m]] else rounds.dropLast ++ [last ++ [m]]
  | none => [[m]]

theorem group_assistant {m : Message} (h : m.role = .assistant) (rounds : List (List Message))
    : group rounds m = rounds ++ [[m]] := by
  rw [group]
  cases hlast : rounds.getLast? with
  | some last => exact if_pos h
  | none =>
    rw [getLast?_eq_none_iff.mp hlast]
    rfl

theorem foldl_group_rest {rest : List Message} (h : ∀ x ∈ rest, x.role ≠ .assistant) (rounds : List (List Message))
    (last : List Message) : rest.foldl group (rounds ++ [last]) = rounds ++ [last ++ rest] := by
  induction rest generalizing last with
  | nil => rw [append_nil, foldl_nil]
  | cons m rest ih =>
    have hm : group (rounds ++ [last]) m = rounds ++ [last ++ [m]] := by
      rw [group, getLast?_concat, dropLast_concat]
      exact if_neg (h m mem_cons_self)
    rw [foldl_cons, hm, ih fun x hx => h x (mem_cons_of_mem m hx), append_assoc]
    rfl

theorem groupRounds_flatten (h : ∀ round ∈ rounds, IsRound round) : groupRounds rounds.flatten = rounds := by
  have hfoldl : ∀ acc, rounds.flatten.foldl group acc = acc ++ rounds := by
    induction rounds with
    | nil =>
      intro acc
      rw [flatten_nil, foldl_nil, append_nil]
    | cons round rounds ih =>
      intro acc
      have hround := h round mem_cons_self
      match round with
      | [] => exact hround.elim
      | m :: rest =>
        rw [flatten_cons, cons_append, foldl_cons, foldl_append, group_assistant hround.1,
          foldl_group_rest hround.2, ih fun x hx => h x (mem_cons_of_mem _ hx), append_assoc]
        rfl
  exact hfoldl []

theorem preambleEnd_append (h : IsPreamble preamble) (rest : List Message)
    : preambleEnd (preamble ++ rest) = preamble.length := by
  obtain ⟨systems, user, rfl, hsystems, huser⟩ := h
  have htake : (systems ++ [user] ++ rest).takeWhile (fun m => m.role == .system) = systems := by
    rw [append_assoc, takeWhile_append_of_pos fun m hm => beq_iff_eq.mpr (hsystems m hm)]
    rw [singleton_append, takeWhile_cons_of_neg (by rw [huser]; decide), append_nil]
  have hget : (systems ++ [user] ++ rest)[systems.length]? = some user := by
    rw [append_assoc, getElem?_append_right (Nat.le_refl _), Nat.sub_self]
    rfl
  rw [preambleEnd, htake, hget]
  dsimp only
  rw [if_pos huser, length_append]
  rfl

theorem dropOldest_eq_drop (total : List (List Message) → Nat) (budget : Nat) (rounds : List (List Message))
    : ∃ k ≤ rounds.length, dropOldest total budget rounds = rounds.drop k
        ∧ (∀ j < k, budget < total (rounds.drop j)) ∧ (k < rounds.length → total (rounds.drop k) ≤ budget) := by
  induction rounds with
  | nil => exact ⟨0, Nat.le_refl _, rfl, nofun, nofun⟩
  | cons round rounds ih =>
    rw [dropOldest]
    split
    next hfits => exact ⟨0, Nat.zero_le _, rfl, nofun, fun _ => hfits⟩
    next hexceeds =>
      obtain ⟨k, hk, hdrop, hmissing, hfits⟩ := ih
      refine ⟨k + 1, Nat.succ_le_succ hk, hdrop, ?_, fun h => hfits (Nat.lt_of_succ_lt_succ h)⟩
      intro j hj
      cases j with
      | zero => exact Nat.lt_of_not_le hexceeds
      | succ j => exact hmissing j (Nat.lt_of_succ_lt_succ hj)

end Compact

namespace Setup

variable {setup : Setup} {counter : TokenCounter} {preamble : List Message} {rounds : List (List Message)}

def load (counter : TokenCounter) (overhead : Nat) (preamble : List Message) (rounds : List (List Message)) (k : Nat)
    : Nat :=
  overhead + counter.weight (preamble ++ (rounds.drop k).flatten)

/--
A history from which rounds are gone, the oldest first, and only where keeping one is too much.
-/
structure Kept (load : Nat → Nat) (budget length k : Nat) : Prop where
  le : k ≤ length
  missing : ∀ j < k, budget < load j

theorem compact_kept (hpreamble : IsPreamble preamble) (hrounds : ∀ round ∈ rounds, IsRound round) (overhead k : Nat)
    (policy : ContextPolicy) (hkept : Kept (load counter overhead preamble rounds) policy.maxPromptTokens rounds.length k)
    : ∃ k', (counter.compact (preamble ++ (rounds.drop k).flatten) overhead policy).messages
          = preamble ++ (rounds.drop k').flatten
        ∧ Kept (load counter overhead preamble rounds) policy.maxPromptTokens rounds.length k'
        ∧ (k' < rounds.length → load counter overhead preamble rounds k' ≤ policy.maxPromptTokens) := by
  rw [TokenCounter.compact]
  split
  next hfits => exact ⟨k, rfl, hkept, fun _ => hfits⟩
  next hexceeds =>
    have hdropped : ∀ round ∈ rounds.drop k, IsRound round := fun round h => hrounds round (mem_of_mem_drop h)
    dsimp only
    rw [preambleEnd_append hpreamble, take_left, drop_left, groupRounds_flatten hdropped]
    obtain ⟨n, hn, hdrop, hmissing, hfits⟩ := dropOldest_eq_drop
      (fun rounds => overhead + counter.weight (preamble ++ rounds.flatten)) policy.maxPromptTokens (rounds.drop k)
    rw [length_drop] at hn hfits
    have hle := hkept.le
    refine ⟨k + n, ?_, ⟨by omega, ?_⟩, ?_⟩
    . rw [hdrop, drop_drop]
    . intro j hj
      by_cases hold : j < k
      . exact hkept.missing j hold
      . have hj := hmissing (j - k) (by omega)
        rw [drop_drop, Nat.add_sub_cancel' (by omega)] at hj
        exact hj
    . intro hlt
      have hk := hfits (by omega)
      rw [drop_drop] at hk
      exact hk

theorem Kept.snoc {overhead budget k : Nat} (h : Kept (load counter overhead preamble rounds) budget rounds.length k)
    (round : List Message)
    : Kept (load counter overhead preamble (rounds ++ [round])) budget (rounds ++ [round]).length k where
  le := by
    rw [length_append]
    exact Nat.le_add_right_of_le h.le
  missing := by
    intro j hj
    have hle := h.le
    have hmissing := h.missing j hj
    unfold load TokenCounter.weight at hmissing ⊢
    rw [drop_append_of_le_length (by omega)]
    simp only [flatten_append, map_append, sum_append] at hmissing ⊢
    omega

variable (setup) in
def round (exchange : Exchange) : List Message :=
  exchange.response.message :: (setup.executeAll exchange.step exchange.response.message.toolCalls).map
    fun (call, _, _, outcome) => .toolResult call.id call.name outcome.resultText

variable (setup) in
def roundsOf (r : RunState) : List (List Message) :=
  r.exchanges.map setup.round

/--
A run whose history is a preamble and the last of its rounds.
-/
structure Remembers (setup : Setup) (counter : TokenCounter) (preamble : List Message) (r : RunState) (k : Nat) : Prop where
  prepared : ∃ hits, setup.prepare = .ok (r.tools, hits, preamble)
  calls : ∀ exchange ∈ r.exchanges, exchange.response.message.role = .assistant
    ∧ exchange.response.message.toolCalls ≠ []
  messages : r.messages = preamble ++ ((setup.roundsOf r).drop k).flatten
  kept : Kept (load counter (counter.toolsOverhead setup.fmt r.tools) preamble (setup.roundsOf r))
    setup.opts.context.maxPromptTokens (setup.roundsOf r).length k

/--
A run that asks with its history, cut down to the budget.
-/
structure Conversing (setup : Setup) (counter : TokenCounter) (preamble : List Message) (r : RunState)
    (request : ChatRequest) (k : Nat) : Prop extends Remembers setup counter preamble r k where
  fits : k < (setup.roundsOf r).length →
    load counter (counter.toolsOverhead setup.fmt r.tools) preamble (setup.roundsOf r) k
      ≤ setup.opts.context.maxPromptTokens
  request : request = setup.stepRequest r r.messages

def Converses (setup : Setup) (counter : TokenCounter) (r : RunState) : Prop :=
  ∀ request attempt, r.phase = .asking request attempt → ∃ preamble k, Conversing setup counter preamble r request k

theorem isPreamble_prepare {tools : List ToolSpec} {hits : List RetrievedContext}
    (h : setup.prepare = .ok (tools, hits, preamble)) : IsPreamble preamble := by
  unfold prepare at h
  obtain ⟨specs, -, h⟩ := (bind_eq_ok _ _ _).mp h
  obtain ⟨prompt, -, h⟩ := (bind_eq_ok _ _ _).mp h
  have hplain : IsPreamble [.system setup.definition.instructions, .user prompt] :=
    ⟨[.system setup.definition.instructions], .user prompt, rfl, by simp [Message.system, Message.text], rfl⟩
  split at h
  next =>
    split at h
    next =>
      obtain ⟨hits, -, h⟩ := (bind_eq_ok _ _ _).mp h
      cases h
      exact ⟨[.system setup.definition.instructions, .system (formatContext hits)], .user prompt, rfl,
        by simp [Message.system, Message.text], rfl⟩
    next =>
      cases h
      exact hplain
  next =>
    cases h
    exact hplain

theorem isRound_round {exchange : Exchange} (h : exchange.response.message.role = .assistant)
    : IsRound (setup.round exchange) := by
  refine ⟨h, ?_⟩
  intro m hm
  obtain ⟨outcome, -, rfl⟩ := mem_map.mp hm
  nofun

theorem ended_leave (r : RunState) (text : String) : ∃ result, (setup.leave r text).phase = .ended result := by
  have hleaves := setup.leaves_leave r text
  generalize setup.leave r text = t at hleaves
  cases hleaves with
  | refused => exact ⟨_, rfl⟩
  | checked => exact ⟨_, rfl⟩
  | unchecked => exact ⟨_, rfl⟩

theorem Converses.of_ended {r : RunState} (h : ∃ result, r.phase = .ended result) : Converses setup counter r := by
  intro request attempt hphase
  obtain ⟨result, hresult⟩ := h
  rw [hresult] at hphase
  cases hphase

theorem converses_nextStep {r : RunState} {k : Nat} (h : Remembers setup counter preamble r k)
    : Converses setup counter (setup.nextStepWith counter r) := by
  rw [nextStepWith]
  split
  next hmore =>
    obtain ⟨hits, hprepare⟩ := h.prepared
    have hrounds : ∀ round ∈ setup.roundsOf r, IsRound round := by
      intro round hround
      obtain ⟨exchange, hexchange, rfl⟩ := mem_map.mp hround
      exact isRound_round (h.calls exchange hexchange).1
    obtain ⟨k', hmessages, hkept, hfits⟩ :=
      compact_kept (isPreamble_prepare hprepare) hrounds _ k setup.opts.context h.kept
    rw [← h.messages] at hmessages
    rintro request attempt ⟨⟩
    exact ⟨preamble, k', ⟨⟨hits, hprepare⟩, h.calls, hmessages, hkept⟩, hfits, rfl⟩
  next => exact .of_ended (ended_leave r "")

-- What the providers promise: a response is a message of the model.
def Speaks (stream : Stream) : Prop :=
  ∀ events, stream = .ok events → ∀ response, .ok (.done response) ∈ events → response.message.role = .assistant

theorem role_of_readEvents {buffer : Bool} {completed : Option ChatResponse} {events : List (Except Error ChatStreamEvent)}
    {response : ChatResponse} (hcompleted : ∀ done, completed = some done → done.message.role = .assistant)
    (hevents : ∀ done, .ok (.done done) ∈ events → done.message.role = .assistant)
    (h : (readEvents buffer completed events).result = .ok (some response)) : response.message.role = .assistant := by
  induction events generalizing completed with
  | nil =>
    cases h
    exact hcompleted response rfl
  | cons event rest ih =>
    cases event with
    | error e => cases h
    | ok event =>
      have hrest : ∀ done, .ok (.done done) ∈ rest → done.message.role = .assistant :=
        fun done hdone => hevents done (mem_cons_of_mem _ hdone)
      cases event with
      | done done =>
        have h : (readEvents buffer (some done) rest).result = .ok (some response) := h
        apply ih _ hrest h
        intro done' hdone'
        cases hdone'
        exact hevents done mem_cons_self
      | delta text => exact ih hcompleted hrest h
      | toolCallDelta index id name arguments => exact ih hcompleted hrest h
      | reasoningDelta text => exact ih hcompleted hrest h

theorem role_of_streamChat {buffer : Bool} {stream : Stream} {response : ChatResponse} (hspeaks : Speaks stream)
    (h : (streamChat buffer stream).result = .ok response) : response.message.role = .assistant := by
  cases stream with
  | error e => cases h
  | ok events =>
    rw [streamChat] at h
    dsimp only at h
    split at h
    next => cases h
    next => cases h
    next done hdone =>
      cases h
      apply role_of_readEvents _ (hspeaks events rfl) hdone
      intro done h
      cases h

theorem converses_answer {r : RunState} (h : Converses setup counter r) {stream : Stream} (hspeaks : Speaks stream)
    : Converses setup counter (setup.answerWith counter r stream) := by
  rw [answerWith]
  cases hphase : r.phase with
  | ended result => exact h
  | asking request attempt =>
    obtain ⟨preamble, k, hconv⟩ := h request attempt hphase
    dsimp only
    cases hresult : (streamChat setup.bufferStreaming stream).result with
    | error e =>
      dsimp only
      split
      next =>
        rintro _ _ ⟨⟩
        exact ⟨preamble, k, ⟨hconv.prepared, hconv.calls, hconv.messages, hconv.kept⟩, hconv.fits, hconv.request⟩
      next => exact .of_ended ⟨_, rfl⟩
    | ok response =>
      dsimp only
      rw [acceptWith]
      split
      next => exact .of_ended (ended_leave _ _)
      next hcalls =>
        -- The round that is added comes behind all that is left of the history.
        have hrounds : ((setup.roundsOf r).drop k).flatten ++ setup.round ⟨r.steps, request, response⟩
            = ((setup.roundsOf r ++ [setup.round ⟨r.steps, request, response⟩]).drop k).flatten := by
          rw [drop_append_of_le_length hconv.kept.le, flatten_append, flatten_singleton]
        refine @converses_nextStep _ _ preamble _ k ?_
        refine ⟨hconv.prepared, ?_, ?_, ?_⟩
        . exact forall_mem_snoc hconv.calls ⟨role_of_streamChat hspeaks hresult, hcalls⟩
        . unfold roundsOf
          rw [callTools, take, RunState.hear]
          dsimp only
          rw [map_append, map_singleton, hconv.messages, append_assoc, append_assoc]
          exact congrArg (preamble ++ ·) hrounds
        . unfold roundsOf
          rw [callTools, take, RunState.hear]
          dsimp only
          rw [map_append, map_singleton]
          exact hconv.kept.snoc _

theorem converses_start : Converses setup counter (setup.startWith counter) := by
  rw [startWith]
  split
  next => exact .of_ended ⟨_, rfl⟩
  next =>
    dsimp only
    cases hprepare : setup.prepare with
    | error e => exact .of_ended ⟨_, rfl⟩
    | ok prepared =>
      obtain ⟨tools, hits, messages⟩ := prepared
      refine @converses_nextStep _ _ messages _ 0 ?_
      refine ⟨⟨hits, hprepare⟩, ?_, (append_nil messages).symm, Nat.le_refl _, nofun⟩
      intro exchange h
      cases h

theorem converses_run {streams : List Stream} (hspeaks : ∀ stream ∈ streams, Speaks stream)
    : Converses setup counter (setup.runWith counter streams) := by
  rw [runWith]
  have hfoldl : ∀ r, Converses setup counter r
      → Converses setup counter (streams.foldl (setup.answerWith counter) r) := by
    induction streams with
    | nil => exact fun r h => h
    | cons stream streams ih =>
      intro r h
      exact ih (fun s hs => hspeaks s (mem_cons_of_mem _ hs)) _
        (converses_answer h (hspeaks stream mem_cons_self))
  exact hfoldl _ converses_start

section Whole

variable (setup) (counter) (r : RunState) (request : ChatRequest)

def note : Message :=
  .system forcedFinalAnswerNote

def Final : Prop :=
  r.steps + 1 = setup.maxSteps ∧ r.tools ≠ []

instance : Decidable (setup.Final r) :=
  inferInstanceAs (Decidable (_ ∧ _))

def estimate : Nat :=
  counter.toolsOverhead setup.fmt request.tools + counter.weight request.messages

def BaseFits (preamble : List Message) : Prop :=
  counter.toolsOverhead setup.fmt r.tools + counter.weight preamble + counter.countMessage note
    ≤ setup.opts.context.maxPromptTokens

/--
A request that is made of the first messages, of the last rounds and of the note where the tools are withheld. A round
is missing only where it would have been too much.
-/
structure Formed (preamble : List Message) (k : Nat) : Prop where
  prepared : ∃ hits, setup.prepare = .ok (r.tools, hits, preamble)
  opening : IsPreamble preamble
  rounds : ∀ exchange ∈ r.exchanges, exchange.response.message.role = .assistant
    ∧ exchange.response.message.toolCalls ≠ []
    ∧ ∃ results, setup.round exchange = exchange.response.message :: results
      ∧ results.map (fun m => (m.role, m.toolCallId, m.name))
        = exchange.response.message.toolCalls.map fun call => (.tool, some call.id, some call.name)
  messages : request.messages = preamble ++ ((setup.roundsOf r).drop k).flatten ++ if setup.Final r then [note] else []
  tools : request.tools = if setup.Final r then [] else r.tools
  kept : Kept (load counter (counter.toolsOverhead setup.fmt r.tools) preamble (setup.roundsOf r))
    setup.opts.context.maxPromptTokens (setup.roundsOf r).length k

structure Whole : Prop where
  formed : ∃ preamble k, Formed setup counter r request preamble k
  within : ∀ hits preamble, setup.prepare = .ok (r.tools, hits, preamble) → BaseFits setup counter r preamble →
    estimate setup counter request ≤ setup.opts.context.maxPromptTokens

-- On the last step, what fits with the tools fits with the note in their place.
def Leeway : Prop :=
  setup.Final r → ∀ hits preamble, setup.prepare = .ok (r.tools, hits, preamble) → BaseFits setup counter r preamble →
    ∀ k ≤ (setup.roundsOf r).length,
      load counter (counter.toolsOverhead setup.fmt r.tools) preamble (setup.roundsOf r) k
          ≤ setup.opts.context.maxPromptTokens →
        load counter (counter.countMessage note) preamble (setup.roundsOf r) k ≤ setup.opts.context.maxPromptTokens

variable {setup counter r request} {k : Nat}

theorem round_results (exchange : Exchange)
    : ∃ results, setup.round exchange = exchange.response.message :: results
      ∧ results.map (fun m => (m.role, m.toolCallId, m.name))
        = exchange.response.message.toolCalls.map fun call => (.tool, some call.id, some call.name) := by
  refine ⟨_, rfl, ?_⟩
  rw [executeAll, map_map, map_map]
  conv_rhs => rw [← zipIdx_map_fst 0 exchange.response.message.toolCalls, map_map]
  rfl

theorem stepRequest_of_final (h : setup.Final r) (messages : List Message)
    : setup.stepRequest r messages = {
      model := resolveModel setup.providerName setup.definition.model setup.definition.selector
      messages := messages ++ [note]
      temperature := setup.definition.temperature
      maxTokens := setup.definition.maxTokens } :=
  if_pos h

theorem stepRequest_of_not_final (h : ¬setup.Final r) (messages : List Message)
    : setup.stepRequest r messages = {
      model := resolveModel setup.providerName setup.definition.model setup.definition.selector
      messages
      temperature := setup.definition.temperature
      maxTokens := setup.definition.maxTokens
      tools := r.tools } :=
  if_neg h

theorem Conversing.formed (h : Conversing setup counter preamble r request k)
    : Formed setup counter r request preamble k := by
  obtain ⟨hits, hprepare⟩ := h.prepared
  refine ⟨h.prepared, isPreamble_prepare hprepare, ?_, ?_, ?_, h.kept⟩
  . intro exchange hexchange
    obtain ⟨hrole, hcalls⟩ := h.calls exchange hexchange
    exact ⟨hrole, hcalls, round_results exchange⟩
  . rw [h.request, ← h.messages]
    by_cases hfinal : setup.Final r
    . rw [stepRequest_of_final hfinal, if_pos hfinal]
    . rw [stepRequest_of_not_final hfinal, if_neg hfinal, append_nil]
  . rw [h.request]
    by_cases hfinal : setup.Final r
    . rw [stepRequest_of_final hfinal, if_pos hfinal]
    . rw [stepRequest_of_not_final hfinal, if_neg hfinal]

theorem load_anti {overhead j : Nat} (h : j ≤ k)
    : load counter overhead preamble rounds k ≤ load counter overhead preamble rounds j := by
  unfold load TokenCounter.weight
  have hdrop : (rounds.drop j).drop (k - j) = rounds.drop k := by
    rw [drop_drop, Nat.add_sub_cancel' h]
  rw [← hdrop]
  generalize rounds.drop j = rest
  conv_rhs => rw [← take_append_drop (k - j) rest]
  simp only [flatten_append, map_append, sum_append]
  omega

theorem Conversing.load_le (h : Conversing setup counter preamble r request k) (hbase : BaseFits setup counter r preamble)
    : load counter (counter.toolsOverhead setup.fmt r.tools) preamble (setup.roundsOf r) k
        ≤ setup.opts.context.maxPromptTokens := by
  by_cases hlt : k < (setup.roundsOf r).length
  . exact h.fits hlt
  . unfold BaseFits at hbase
    rw [load, drop_of_length_le (by omega), flatten_nil, append_nil]
    omega

theorem Conversing.estimate_eq (h : Conversing setup counter preamble r request k)
    : estimate setup counter request
        = load counter (if setup.Final r then counter.countMessage note else counter.toolsOverhead setup.fmt r.tools)
            preamble (setup.roundsOf r) k := by
  have hformed := h.formed
  rw [estimate, hformed.messages, hformed.tools]
  unfold load TokenCounter.weight
  split
  next =>
    have hnone : counter.toolsOverhead setup.fmt [] = 0 := rfl
    rw [hnone, map_append, sum_append, map_singleton, sum_singleton]
    omega
  next => rw [append_nil]

theorem whole_iff_leeway {streams : List Stream} {attempt : Nat} (hspeaks : ∀ stream ∈ streams, Speaks stream)
    (hphase : (setup.runWith counter streams).phase = .asking request attempt)
    : Whole setup counter (setup.runWith counter streams) request
        ↔ Leeway setup counter (setup.runWith counter streams) := by
  obtain ⟨preamble, k, hconv⟩ := converses_run hspeaks request attempt hphase
  generalize setup.runWith counter streams = r at hconv
  have hsame : ∀ hits preamble', setup.prepare = .ok (r.tools, hits, preamble') → preamble' = preamble := by
    intro hits preamble' hprepare
    obtain ⟨hits', hprepare'⟩ := hconv.prepared
    rw [hprepare'] at hprepare
    cases hprepare
    rfl
  constructor
  . intro hwhole hfinal hits preamble' hprepare hbase j _ hfits
    have hwithin := hwhole.within hits preamble' hprepare hbase
    rw [hsame hits preamble' hprepare] at hfits ⊢
    rw [hconv.estimate_eq, if_pos hfinal] at hwithin
    have hle : k ≤ j := by
      by_contra hlt
      have := hconv.kept.missing j (by omega)
      omega
    exact (load_anti hle).trans hwithin
  . intro hleeway
    refine ⟨⟨preamble, k, hconv.formed⟩, ?_⟩
    intro hits preamble' hprepare hbase
    have hbase' := hbase
    rw [hsame hits preamble' hprepare] at hbase'
    rw [hconv.estimate_eq]
    split
    next hfinal =>
      have hnote := hleeway hfinal hits preamble' hprepare hbase k hconv.kept.le
      rw [hsame hits preamble' hprepare] at hnote
      exact hnote (hconv.load_le hbase')
    next => exact hconv.load_le hbase'

end Whole

def helloRun (maxSteps maxPromptTokens : Nat) : Setup :=
  let base := localRun { name := "hello", instructions := "Greet the user.", tools := ["echo"], maxSteps := some maxSteps }
    (ToolRegistry.new.register (constantTool "echo" [])) []
  { base with opts := { base.opts with context := ⟨maxPromptTokens⟩ } }

def tightRun : Setup :=
  helloRun 2 76

def roomyRun : Setup :=
  helloRun 3 120

def asked (arguments : String) : Stream :=
  .ok [.ok (.done (toolRequest "echo" arguments 1))]

def askedEcho : Stream :=
  asked "\x7b\x7d"

def askedLong : Stream :=
  asked (String.ofList (replicate 130 'a'))

theorem speaks_asked (arguments : String) : Speaks (asked arguments) := by
  rintro events ⟨⟩ response hresponse
  cases mem_singleton.mp hresponse
  rfl

-- Of the two rounds only the second one fits, with the tool as with the note in its place.
theorem whole_roomyRun
    : ∃ request, (roomyRun.runWith (heuristicTokenizer .asciiOnly) [askedLong, askedLong]).phase = .asking request 0
        ∧ Final roomyRun (roomyRun.runWith (heuristicTokenizer .asciiOnly) [askedLong, askedLong])
        ∧ request.messages.length = 5
        ∧ Whole roomyRun (heuristicTokenizer .asciiOnly)
          (roomyRun.runWith (heuristicTokenizer .asciiOnly) [askedLong, askedLong]) request := by
  have hspeaks : ∀ stream ∈ [askedLong, askedLong], Speaks stream := by
    simp only [forall_mem_cons]
    exact ⟨speaks_asked _, speaks_asked _, forall_mem_nil _⟩
  have hphase : (roomyRun.runWith (heuristicTokenizer .asciiOnly) [askedLong, askedLong]).phase = .asking _ 0 := rfl
  refine ⟨_, hphase, by decide +kernel, by decide +kernel, (whole_iff_leeway hspeaks hphase).mpr ?_⟩
  intro _ hits preamble hprepare _
  have hpreamble : roomyRun.prepare = .ok (_, [], [.system "Greet the user.", .user "Hello"]) := rfl
  rw [hpreamble, Except.ok.injEq, Prod.mk.injEq, Prod.mk.injEq] at hprepare
  obtain ⟨-, -, rfl⟩ := hprepare
  decide +kernel

-- The note takes 48 tokens, the tool only 11.
theorem not_whole_tightRun
    : ∃ request, (tightRun.runWith (heuristicTokenizer .asciiOnly) [askedEcho]).phase = .asking request 0
        ∧ ¬Whole tightRun (heuristicTokenizer .asciiOnly)
          (tightRun.runWith (heuristicTokenizer .asciiOnly) [askedEcho]) request := by
  refine ⟨_, rfl, ?_⟩
  intro h
  have hwithin := h.within [] [.system "Greet the user.", .user "Hello"] rfl (by unfold BaseFits; decide +kernel)
  revert hwithin
  decide +kernel

end Wovyr.Agent.Setup
