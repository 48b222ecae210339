import Wovyr.Provider.Cache
import Wovyr.Provider.Race

/-!
This module contains the cost events of chat calls and of streams, and proves when an event names the provider
whose response was returned.
-/

namespace Wovyr.Provider

open List Contest

structure CostEvent where
  provider : String
  model : String
  promptTokens : Nat
  completionTokens : Nat
  costUsd : Rat
  cache : Option String
  estimatedSavingsUsd : Rat
deriving DecidableEq

structure Stored where
  response : ChatResponse
  provider : String
deriving DecidableEq

structure Lookups where
  mode : CacheMode := .off
  exact : Option Stored := none
  embedded : Bool := false
  semantic : Except Error (Option Stored) := .ok none

namespace Lookups

variable (lookups : Lookups)

def exactHit : Option Stored :=
  if lookups.mode != .off then lookups.exact else none

def semanticHit : Option Stored :=
  if lookups.mode = .semantic ∧ lookups.embedded = true then
    match lookups.semantic with
    | .ok hit => hit
    | .error _ => none
  else
    none

end Lookups

inductive Source where
  | live (index : Nat)
  | cached (stored : Stored)
deriving DecidableEq

structure Reply where
  response : ChatResponse
  source : Source
deriving DecidableEq

inductive ChatStreamEvent where
  | delta (text : String)
  | toolCallDelta (index : Nat) (id name arguments : String)
  | reasoningDelta (text : String)
  | done (response : ChatResponse)
deriving DecidableEq

abbrev ChatStream := List (Except Error ChatStreamEvent)

namespace Contest

variable (c : Contest)

-- A move that is not possible changes nothing.
def move (s : Race) (m : Move) : Race :=
  (c.step s m).getD s

def race (moves : List Move) : Race :=
  moves.foldl c.move c.start

def dispatch (moves : List Move) : Option (Except Error (Served ChatResponse)) :=
  if c.gw.hedge.enabled then
    (c.race moves).returned
  else
    some c.dispatchSequential

-- What fails before its stream begins is not retried.
def establish (streams : Nat → Except Error ChatStream) (i : Nat) : Except (Error × Bool) ChatStream :=
  match streams i with
  | .ok stream => .ok stream
  | .error err => .error (err, isTransient err)

def chatStream (streams : Nat → Except Error ChatStream) : Except Error (Served ChatStream) :=
  failover c.gw.maxFailovers c.allow (establish streams) 0 none (range c.gw.providers)

end Contest

structure Meter where
  names : List String
  observed : Bool

namespace Meter

variable (meter : Meter)

def providerName : String :=
  meter.names.head?.getD "none"

def emitCostLive (response : ChatResponse) : List CostEvent :=
  if meter.observed then
    [{ provider := meter.providerName
       model := response.model
       promptTokens := response.usage.promptTokens
       completionTokens := response.usage.completionTokens
       costUsd := response.usage.costUsd
       cache := none
       estimatedSavingsUsd := 0 }]
  else
    []

def emitCostHit (response : ChatResponse) (kind : String) : List CostEvent :=
  if meter.observed then
    [{ provider := meter.providerName
       model := response.model
       promptTokens := response.usage.promptTokens
       completionTokens := response.usage.completionTokens
       costUsd := 0
       cache := some kind
       estimatedSavingsUsd := response.usage.costUsd }]
  else
    []

def chat (c : Contest) (lookups : Lookups) (moves : List Move)
    : Option (Except Error Reply × List CostEvent) :=
  match lookups.exactHit with
  | some hit => some (.ok ⟨zeroCost hit.response, .cached hit⟩, meter.emitCostHit hit.response "exact")
  | none =>
    match lookups.semanticHit with
    | some hit => some (.ok ⟨zeroCost hit.response, .cached hit⟩, meter.emitCostHit hit.response "semantic")
    | none =>
      match c.dispatch moves with
      | none => none
      | some (.error err) => some (.error err, [])
      | some (.ok served) => some (.ok ⟨served.response, .live served.index⟩, meter.emitCostLive served.response)

def pass : Except Error ChatStreamEvent → List CostEvent
  | .ok (.done response) => meter.emitCostLive response
  | _ => []

/-- The events of a stream of which the caller has consumed this many items. -/
def consume (result : Except Error (Served ChatStream)) (n : Nat) : List CostEvent :=
  match result with
  | .ok served => (served.response.take n).flatMap meter.pass
  | .error _ => []

end Meter

def dones (items : ChatStream) : List ChatResponse :=
  items.filterMap fun
    | .ok (.done response) => some response
    | _ => none

/-- One event that names a candidate and has the cost of its response. -/
def Meter.MeteredLive (meter : Meter) (index : Nat) (response : ChatResponse) (events : List CostEvent) : Prop :=
  ∃ event, events = [event] ∧ meter.names[index]? = some event.provider ∧ event.costUsd = response.usage.costUsd

/-- One event that names the provider of a stored response and has its cost as savings. -/
def MeteredHit (stored : Stored) (events : List CostEvent) : Prop :=
  ∃ event, events = [event] ∧ event.provider = stored.provider ∧ event.costUsd = 0
    ∧ event.estimatedSavingsUsd = stored.response.usage.costUsd

/-- There is one event, and the cost in it is right, whoever it names. -/
def Reply.Costed (reply : Reply) (events : List CostEvent) : Prop :=
  events.length = 1 ∧ ∀ event ∈ events,
    match reply.source with
    | .live _ => event.costUsd = reply.response.usage.costUsd
    | .cached stored => event.costUsd = 0 ∧ event.estimatedSavingsUsd = stored.response.usage.costUsd

/-- A response has one event, which names the provider that gave it, and an error has none. -/
def Meter.Metered (meter : Meter) : Except Error Reply × List CostEvent → Prop
  | (.error _, events) => events = []
  | (.ok reply, events) =>
    match reply.source with
    | .live index => meter.MeteredLive index reply.response events
    | .cached stored => MeteredHit stored events

/-- The same of a stream of which the caller has consumed this many items, a response among them. -/
def Meter.MeteredStream (meter : Meter) (result : Except Error (Served ChatStream)) (n : Nat) : Prop :=
  match result with
  | .error _ => meter.consume result n = []
  | .ok served =>
    ∀ response, dones (served.response.take n) = [response] →
      meter.MeteredLive served.index response (meter.consume result n)

/--
No candidate but the first of all providers has an answer at the time when all candidates before it have failed
transiently.
-/
def FirstAnswers (candidates : List Nat) (attempt : Nat → Except (Error × Bool) α) : Prop :=
  ∀ before index after, candidates = before ++ index :: after → (∀ i ∈ before, ∃ err, attempt i = .error (err, true)) →
    ∀ response, attempt index = .ok response → index = 0

namespace Contest

variable (c : Contest)

/-- What ends is not a successful attempt at another provider than the first one. -/
def FirstOnly (s : Race) : Move → Prop
  | .ends index => index ≠ 0 → ∀ x ∈ s.inflight, x.index = index → ∀ response, c.chat x.index x.attempt ≠ .ok response
  | .hedge => True

/-- In no step of the race does another provider than the first one succeed. -/
def FirstWins (moves : List Move) : Prop :=
  Run (Guarded c.FirstOnly c.move) c.start moves (c.race moves)

end Contest

/-- The response of a call can only come from the first provider. -/
def Meter.FirstServes (meter : Meter) (c : Contest) (lookups : Lookups) (moves : List Move) : Prop :=
  match lookups.exactHit.or lookups.semanticHit with
  | some hit => hit.provider = meter.providerName
  | none =>
    if c.gw.hedge.enabled then
      c.FirstWins moves
    else
      FirstAnswers c.candidates fun i => c.tryProvider i 1

section

variable {maxFailovers hops : Nat} {allow : Nat → Bool} {attempt : Nat → Except (Error × Bool) α} {lastErr : Option Error}
  {candidates : List Nat} {served : Served α}

theorem failover_ok_iff : failover maxFailovers allow attempt hops lastErr candidates = .ok served
    ↔ ∃ before after, (candidates.filter allow).take (maxFailovers + 1 - hops) = before ++ served.index :: after
      ∧ (∀ i ∈ before, ∃ err, attempt i = .error (err, true)) ∧ attempt served.index = .ok served.response := by
  induction candidates generalizing hops lastErr with
  | nil => simp [failover]
  | cons i rest ih =>
    rw [failover]
    split
    next hspent =>
      rw [show maxFailovers + 1 - hops = 0 by omega]
      simp
    next hleft =>
      split
      next hopen =>
        rw [ih, filter_cons_of_neg (by simpa using hopen)]
      next hallow =>
        rw [filter_cons_of_pos (by simpa using hallow),
          show maxFailovers + 1 - hops = (maxFailovers + 1 - (hops + 1)) + 1 by omega, take_succ_cons]
        split
        next response hok =>
          constructor
          . intro h
            cases h
            exact ⟨[], _, rfl, forall_mem_nil _, hok⟩
          . rintro ⟨before, after, hsplit, hbefore, hserved⟩
            cases before with
            | nil =>
              cases hsplit
              rw [hok] at hserved
              cases hserved
              rfl
            | cons j before =>
              obtain ⟨rfl, -⟩ := cons.inj hsplit
              obtain ⟨err, herr⟩ := hbefore i mem_cons_self
              rw [hok] at herr
              cases herr
        next err transient herr =>
          cases transient with
          | false =>
            simp only [Bool.not_false, if_true, reduceCtorEq, false_iff]
            rintro ⟨before, after, hsplit, hbefore, hserved⟩
            cases before with
            | nil =>
              cases hsplit
              rw [herr] at hserved
              cases hserved
            | cons j before =>
              obtain ⟨rfl, -⟩ := cons.inj hsplit
              obtain ⟨err', herr'⟩ := hbefore i mem_cons_self
              rw [herr] at herr'
              cases herr'
          | true =>
            simp only [Bool.not_true, Bool.false_eq_true, if_false]
            rw [ih]
            constructor
            . rintro ⟨before, after, hsplit, hbefore, hserved⟩
              refine ⟨i :: before, after, by rw [hsplit]; rfl, ?_, hserved⟩
              intro j hj
              cases mem_cons.mp hj with
              | inl heq => exact ⟨err, heq ▸ herr⟩
              | inr hj => exact hbefore j hj
            . rintro ⟨before, after, hsplit, hbefore, hserved⟩
              cases before with
              | nil =>
                cases hsplit
                rw [herr] at hserved
                cases hserved
              | cons j before =>
                exact ⟨before, after, (cons.inj hsplit).2, fun k hk => hbefore k (mem_cons_of_mem _ hk), hserved⟩

theorem firstAnswers_iff : FirstAnswers ((candidates.filter allow).take (maxFailovers + 1)) attempt
    ↔ ∀ served, failover maxFailovers allow attempt 0 lastErr candidates = .ok served → served.index = 0 := by
  constructor
  . intro h served hserved
    obtain ⟨before, after, hsplit, hbefore, hok⟩ := (failover_ok_iff).mp hserved
    exact h before served.index after hsplit hbefore served.response hok
  . intro h before index after hsplit hbefore response hok
    exact h ⟨index, response⟩ ((failover_ok_iff).mpr ⟨before, after, hsplit, hbefore, hok⟩)

theorem failover_mem (h : failover maxFailovers allow attempt hops lastErr candidates = .ok served)
    : served.index ∈ candidates := by
  obtain ⟨before, after, hsplit, -, -⟩ := (failover_ok_iff).mp h
  have hmem : served.index ∈ (candidates.filter allow).take (maxFailovers + 1 - hops) := by
    rw [hsplit]
    exact mem_append_right _ mem_cons_self
  exact (mem_filter.mp (mem_of_mem_take hmem)).1

end

namespace Contest

variable {c : Contest} {s : Race}

theorem turn_not_ok (hrunning : s.returned = none) (served : Served ChatResponse)
    : (c.turn s).returned ≠ some (.ok served) := by
  unfold turn
  dsimp only
  split
  . nofun
  . rw [(fills_fill s).returned, hrunning]
    nofun

theorem race_valid (moves : List Move) : c.Valid (c.race moves) := by
  have hgo (s : Race) (hs : c.Valid s) : c.Valid (moves.foldl c.move s) := by
    induction moves generalizing s with
    | nil => exact hs
    | cons m moves ih =>
      apply ih
      unfold move
      cases hstep : c.step s m with
      | none => exact hs
      | some s' => exact hs.step hstep
  exact hgo c.start ((Valid.start).turn rfl)

theorem ends_first {x : Attempt} (hvalid : c.Valid s) (hx : x ∈ s.inflight)
    : (∀ served, (c.ends s x).returned = some (.ok served) → served.index = 0)
        ↔ (x.index ≠ 0 → ∀ response, c.chat x.index x.attempt ≠ .ok response) := by
  have hrunning := hvalid.running hx
  unfold ends
  split
  next response hok =>
    constructor
    . intro h hne
      exact absurd (h ⟨x.index, response⟩ rfl) hne
    . intro h served hserved
      cases hserved
      by_contra hne
      exact h hne response hok
  next err herr =>
    have hfails : x.index ≠ 0 → ∀ response, c.chat x.index x.attempt ≠ .ok response := by
      intro _ response hok
      rw [herr] at hok
      cases hok
    refine iff_of_true ?_ hfails
    intro served hserved
    split at hserved
    . cases hserved
    . split at hserved
      . rw [show (s.retry x).returned = s.returned from rfl, hrunning] at hserved
        cases hserved
      . exact absurd hserved (turn_not_ok (s := s.fail x err) hrunning served)

theorem move_first (hvalid : c.Valid s) (m : Move)
    : (∀ served, (c.move s m).returned = some (.ok served) → served.index = 0)
        ↔ (∀ served, s.returned = some (.ok served) → served.index = 0) ∧ c.FirstOnly s m := by
  cases m with
  | hedge =>
    simp only [move, step]
    by_cases hlaunch : (s.returned.isNone && c.canLaunch s) = true
    . rw [if_pos hlaunch]
      simp only [Bool.and_eq_true, Option.isNone_iff_eq_none] at hlaunch
      refine iff_of_true ?_ ⟨?_, trivial⟩
      . intro served hserved
        exact absurd hserved (turn_not_ok hlaunch.1 served)
      . intro served hserved
        rw [hlaunch.1] at hserved
        cases hserved
    . rw [if_neg hlaunch]
      exact (and_iff_left trivial).symm
  | ends index =>
    simp only [move, step]
    cases hfind : s.inflight.find? fun x => x.index == index with
    | none =>
      refine (and_iff_left ?_).symm
      intro _ x hx hindex
      exact absurd (beq_iff_eq.mpr hindex) (find?_eq_none.mp hfind x hx)
    | some x =>
      have hx := mem_of_find?_eq_some hfind
      have hindex : x.index = index := by simpa using find?_some hfind
      subst hindex
      rw [Option.map_some, Option.getD_some, ends_first hvalid hx]
      constructor
      . intro h
        refine ⟨?_, ?_⟩
        . intro served hserved
          rw [hvalid.running hx] at hserved
          cases hserved
        . intro hne y hy hindex
          rw [inj_on_of_nodup_map hvalid.nodup hy hx hindex]
          exact h hne
      . rintro ⟨-, h⟩ hne
        exact h hne x hx rfl

theorem firstWins_iff (moves : List Move)
    : c.FirstWins moves ↔ ∀ served, (c.race moves).returned = some (.ok served) → served.index = 0 := by
  have hmove (s : Race) (m : Move) (hs : c.Valid s) : c.Valid (c.move s m) := by
    unfold move
    cases hstep : c.step s m with
    | none => exact hs
    | some s' => exact hs.step hstep
  have hstart : ∀ served, c.start.returned = some (.ok served) → served.index = 0 := by
    intro served hserved
    exact absurd hserved (turn_not_ok rfl served)
  have hfirst (s : Race) (m : Move) (hs : c.Valid s) := move_first hs m
  have hvalid : c.Valid c.start := (Valid.start).turn rfl
  exact (Run.iff_guarded (P := fun s => ∀ served, s.returned = some (.ok served) → served.index = 0) hmove hfirst
    hvalid hstart moves).symm

theorem dispatch_index_lt {moves : List Move} {served : Served ChatResponse}
    (h : c.dispatch moves = some (.ok served)) : served.index < c.gw.providers := by
  unfold dispatch at h
  split at h
  . have hvalid := race_valid (c := c) moves
    obtain ⟨a, hcall, -⟩ := hvalid.answered served h
    have hadmitted := (hvalid.calls _ hcall).1
    have hprefix := (prefix_admitted hvalid.next_le).subset hadmitted
    exact mem_range.mp (mem_filter.mp hprefix).1
  . exact mem_range.mp (failover_mem (Option.some.inj h))

end Contest

namespace Meter

variable {meter : Meter} {c : Contest}

theorem names_first (hnodup : meter.names.Nodup) {index : Nat} (hindex : index < meter.names.length)
    : meter.names[index]? = some meter.providerName ↔ index = 0 := by
  have hfirst : meter.names[0]? = some meter.providerName := by
    unfold providerName
    rw [head?_eq_getElem?, getElem?_eq_getElem (Nat.zero_lt_of_lt hindex)]
    rfl
  constructor
  . intro h
    exact (getElem?_inj hindex hnodup).mp (h.trans hfirst.symm)
  . intro h
    rw [h]
    exact hfirst

theorem meteredLive_iff (hobserved : meter.observed = true) (hnodup : meter.names.Nodup) {index : Nat}
    (hindex : index < meter.names.length) (response : ChatResponse)
    : meter.MeteredLive index response (meter.emitCostLive response) ↔ index = 0 := by
  rw [← names_first hnodup hindex]
  unfold MeteredLive emitCostLive
  rw [if_pos hobserved]
  constructor
  . rintro ⟨event, hevent, hname, -⟩
    cases hevent
    exact hname
  . intro hname
    exact ⟨_, rfl, hname, rfl⟩

theorem meteredHit_iff (hobserved : meter.observed = true) (stored : Stored) (kind : String)
    : MeteredHit stored (meter.emitCostHit stored.response kind) ↔ stored.provider = meter.providerName := by
  unfold MeteredHit emitCostHit
  rw [if_pos hobserved]
  constructor
  . rintro ⟨event, hevent, hname, -⟩
    cases hevent
    exact hname.symm
  . intro hname
    exact ⟨_, rfl, hname.symm, rfl, rfl⟩

theorem chat_metered_iff (hobserved : meter.observed = true) (hnodup : meter.names.Nodup)
    (hlength : meter.names.length = c.gw.providers) {lookups : Lookups} {moves : List Move}
    {answer : Except Error Reply × List CostEvent} (h : meter.chat c lookups moves = some answer)
    : meter.Metered answer ↔ meter.FirstServes c lookups moves := by
  unfold chat at h
  unfold FirstServes
  split at h
  next hit hexact =>
    cases h
    rw [hexact, Option.some_or]
    exact meteredHit_iff hobserved hit "exact"
  next hexact =>
    rw [hexact, Option.none_or]
    split at h
    next hit hsemantic =>
      cases h
      exact meteredHit_iff hobserved hit "semantic"
    next hsemantic =>
      have hfirst : (if c.gw.hedge.enabled = true then c.FirstWins moves
          else FirstAnswers c.candidates fun i => c.tryProvider i 1)
            ↔ ∀ served, c.dispatch moves = some (.ok served) → served.index = 0 := by
        unfold dispatch
        split
        . exact firstWins_iff moves
        . simp only [Option.some.injEq]
          exact firstAnswers_iff
      rw [hfirst]
      split at h
      . cases h
      next err hdispatch =>
        cases h
        refine iff_of_true rfl ?_
        intro served hserved
        rw [hdispatch] at hserved
        cases hserved
      next served hdispatch =>
        cases h
        have hindex := dispatch_index_lt hdispatch
        rw [← hlength] at hindex
        apply (meteredLive_iff hobserved hnodup hindex served.response).trans
        constructor
        . intro hzero served' hserved'
          rw [hdispatch] at hserved'
          cases hserved'
          exact hzero
        . intro hall
          exact hall served hdispatch

theorem consume_dones (items : ChatStream) : items.flatMap meter.pass = (dones items).flatMap meter.emitCostLive := by
  induction items with
  | nil => rfl
  | cons item items ih =>
    rw [flatMap_cons, ih]
    match item with
    | .ok (.done response) => rfl
    | .ok (.delta _) => rfl
    | .ok (.toolCallDelta _ _ _ _) => rfl
    | .ok (.reasoningDelta _) => rfl
    | .error _ => rfl

theorem stream_metered_iff (hobserved : meter.observed = true) (hnodup : meter.names.Nodup)
    (hlength : meter.names.length = c.gw.providers) {streams : Nat → Except Error ChatStream} {n : Nat}
    (hdone : ∀ served, c.chatStream streams = .ok served → ∃ response, dones (served.response.take n) = [response])
    : meter.MeteredStream (c.chatStream streams) n ↔ FirstAnswers c.candidates (establish streams) := by
  have hfirst : FirstAnswers c.candidates (establish streams)
      ↔ ∀ served, c.chatStream streams = .ok served → served.index = 0 := firstAnswers_iff
  rw [hfirst]
  cases hstream : c.chatStream streams with
  | error err => exact iff_of_true rfl nofun
  | ok served =>
    obtain ⟨response, hresponse⟩ := hdone served hstream
    have hindex : served.index < meter.names.length := by
      rw [hlength]
      exact mem_range.mp (failover_mem hstream)
    have hevents : meter.consume (.ok served) n = meter.emitCostLive response := by
      show (served.response.take n).flatMap meter.pass = _
      rw [consume_dones, hresponse, flatMap_singleton]
    simp only [MeteredStream, hevents, hresponse, cons.injEq, and_true, forall_eq', Except.ok.injEq]
    exact meteredLive_iff hobserved hnodup hindex response

theorem chat_costed (hobserved : meter.observed = true) {lookups : Lookups} {moves : List Move} {reply : Reply}
    {events : List CostEvent} (h : meter.chat c lookups moves = some (.ok reply, events)) : reply.Costed events := by
  unfold chat at h
  split at h
  . cases h
    simp [Reply.Costed, emitCostHit, hobserved]
  . split at h
    . cases h
      simp [Reply.Costed, emitCostHit, hobserved]
    . split at h
      . cases h
      . cases h
      . cases h
        simp [Reply.Costed, emitCostLive, hobserved]

end Meter

/-- When the events of a gateway name the provider whose response is returned. -/
structure Attributes (meter : Meter) (c : Contest) : Prop where
  costed : ∀ lookups moves reply events, meter.chat c lookups moves = some (.ok reply, events) → reply.Costed events
  chat : ∀ lookups moves answer, meter.chat c lookups moves = some answer →
    (meter.Metered answer ↔ meter.FirstServes c lookups moves)
  stream : ∀ streams n,
    (∀ served, c.chatStream streams = .ok served → ∃ response, dones (served.response.take n) = [response]) →
      (meter.MeteredStream (c.chatStream streams) n ↔ FirstAnswers c.candidates (establish streams))

theorem attributed_iff_first (meter : Meter) (c : Contest) (hobserved : meter.observed = true)
    (hnodup : meter.names.Nodup) (hlength : meter.names.length = c.gw.providers) : Attributes meter c where
  costed := fun _ _ _ _ h => Meter.chat_costed hobserved h
  chat := fun _ _ _ h => Meter.chat_metered_iff hobserved hnodup hlength h
  stream := fun _ _ hdone => Meter.stream_metered_iff hobserved hnodup hlength hdone

def twoNames : Meter where
  names := ["primary", "secondary"]
  observed := true

theorem attributed_two : Attributes twoNames secondAnswers :=
  attributed_iff_first twoNames secondAnswers rfl (by decide) rfl

def failsOver : Contest :=
  { secondAnswers with gw := { providers := 2, retry := { maxAttempts := 1 } } }

-- The response of the second provider is metered as one of the first.
theorem not_attributed_second
    : ∃ answer, twoNames.chat failsOver {} [] = some answer ∧ ¬twoNames.Metered answer := by
  have hdispatch : failsOver.dispatch [] = some (.ok ⟨1, answer⟩) := by
    have hfirst : failsOver.tryProvider 0 1 = .error (.provider "unavailable" none, true) := by
      rw [tryProvider]
      rfl
    have hsecond : failsOver.tryProvider 1 1 = .ok answer := by
      rw [tryProvider]
      rfl
    show some (failover 2 (fun _ => true) (fun i => failsOver.tryProvider i 1) 0 none [0, 1]) = _
    simp [failover, hfirst, hsecond]
  refine ⟨(.ok ⟨answer, .live 1⟩, twoNames.emitCostLive answer), ?_, ?_⟩
  . simp [Meter.chat, Lookups.exactHit, Lookups.semanticHit, hdispatch]
  . rintro ⟨event, hevent, hname, -⟩
    cases hevent
    exact absurd hname (by decide)

end Wovyr.Provider
