import Wovyr.Agent.Steps

/-!
This module contains the tokens of a run: those of the responses it has received, and those that it
reports when it ends. A run that ends with an error reports none.
-/

namespace Wovyr.Agent

open Provider Tools

def RunState.charged (r : RunState) : Nat :=
  match r.phase with
  | .asking _ _ => r.usage.totalTokens
  | .ended (.ok out) => out.usage.totalTokens
  | .ended (.error _) => 0

namespace Setup

variable (setup : Setup)

-- A response that ends the run with an error.
def Stops (r : RunState) (response : ChatResponse) : Prop :=
  (response.message.toolCalls = []
      ∧ setup.Refuses { r with steps := r.steps + 1 } (response.message.content.getD ""))
    ∨ (response.message.toolCalls ≠ [] ∧ r.steps + 1 = setup.maxSteps)

/--
No tokens get lost: the stream has none beside those of the response that is taken from it, their sum
does not overflow, and if the run ends with an error, it has received none at all.
-/
def Keeps (r : RunState) (stream : Stream) : Prop :=
  ∀ request attempt, r.phase = .asking request attempt →
    match (streamChat setup.bufferStreaming stream).result with
    | .error e =>
      if isTransient e ∧ attempt < setup.opts.stepRetries then
        (streamChat setup.bufferStreaming stream).receivedTokens = 0
      else
        r.receivedTokens + (streamChat setup.bufferStreaming stream).receivedTokens = 0
    | .ok response =>
      (streamChat setup.bufferStreaming stream).receivedTokens = response.usage.totalTokens
        ∧ r.usage.totalTokens + response.usage.totalTokens < 2 ^ 32
        ∧ (setup.Stops r response → r.receivedTokens + response.usage.totalTokens = 0)

theorem tokens_readEvents {buffer : Bool} {completed : Option ChatResponse}
    {events : List (Except Error ChatStreamEvent)} {response : ChatResponse}
    (h : (readEvents buffer completed events).result = .ok (some response))
    : completed = some response
      ∨ response.usage.totalTokens ≤ (readEvents buffer completed events).receivedTokens := by
  induction events generalizing completed with
  | nil =>
    cases h
    exact Or.inl rfl
  | cons event events ih =>
    cases event with
    | error e => cases h
    | ok event =>
      cases event with
      | done next =>
        right
        have hle := @ih (some next) h
        show _ ≤ next.usage.totalTokens + (readEvents buffer (some next) events).receivedTokens
        rcases hle with hsame | hle
        . cases hsame
          exact Nat.le_add_right _ _
        . exact Nat.le_trans hle (Nat.le_add_left _ _)
      | delta => exact (ih h).imp id fun hle => Nat.le_trans hle (Nat.le_add_left _ _)
      | toolCallDelta => exact (ih h).imp id fun hle => Nat.le_trans hle (Nat.le_add_left _ _)
      | reasoningDelta => exact (ih h).imp id fun hle => Nat.le_trans hle (Nat.le_add_left _ _)

theorem tokens_streamChat {buffer : Bool} {stream : Stream} {response : ChatResponse}
    (h : (streamChat buffer stream).result = .ok response)
    : response.usage.totalTokens ≤ (streamChat buffer stream).receivedTokens := by
  unfold streamChat at h ⊢
  cases stream with
  | error e => cases h
  | ok events =>
    dsimp only at h ⊢
    cases hresult : (readEvents buffer none events).result with
    | error e =>
      rw [hresult] at h
      cases h
    | ok completed =>
      cases completed with
      | none =>
        rw [hresult] at h
        cases h
      | some last =>
        rw [hresult] at h
        cases h
        rcases tokens_readEvents hresult with hnone | hle
        . cases hnone
        . exact hle

structure Counted (setup : Setup) (r : RunState) : Prop where
  asks : setup.Asks r
  le : r.usage.totalTokens ≤ r.receivedTokens

variable {setup}

theorem counted_answer {r : RunState} (h : setup.Counted r) (stream : Stream)
    : setup.Counted (setup.answer r stream) := by
  refine ⟨asks_step h.asks stream, ?_⟩
  have hle := h.le
  have htaken : ∀ response, (streamChat setup.bufferStreaming stream).result = .ok response →
      (r.usage.totalTokens + response.usage.totalTokens) % 2 ^ 32
        ≤ r.receivedTokens + (streamChat setup.bufferStreaming stream).receivedTokens := by
    intro response hresult
    have htokens := tokens_streamChat hresult
    exact Nat.le_trans (Nat.mod_le _ _) (Nat.add_le_add hle htokens)
  have hsteps := steps_answer h.asks stream
  generalize setup.answer r stream = t at hsteps ⊢
  cases hsteps with
  | idle => exact hle
  | retry => exact Nat.le_trans hle (Nat.le_add_right _ _)
  | failed => exact Nat.le_trans hle (Nat.le_add_right _ _)
  | final _ hresult _ hleaves =>
    cases hleaves with
    | refused => exact htaken _ hresult
    | checked => exact htaken _ hresult
    | unchecked => exact htaken _ hresult
  | again _ hresult => exact htaken _ hresult
  | exhausted _ hresult => exact htaken _ hresult

theorem mod_add_eq_add_iff {a b c d m : Nat} (hm : 0 < m) (hac : a ≤ c) (hbd : b ≤ d)
    : (a + b) % m = c + d ↔ a = c ∧ d = b ∧ a + b < m := by
  constructor
  . intro h
    have hle := Nat.mod_le (a + b) m
    have hlt := Nat.mod_lt (a + b) hm
    exact ⟨by omega, by omega, by omega⟩
  . rintro ⟨rfl, rfl, hlt⟩
    exact Nat.mod_eq_of_lt hlt

theorem charged_of_asking {r : RunState} {request : ChatRequest} {attempt : Nat}
    (h : r.phase = .asking request attempt) : r.charged = r.usage.totalTokens := by
  unfold RunState.charged
  rw [h]

theorem keeps_of_error {r : RunState} {stream : Stream} {request : ChatRequest} {attempt : Nat}
    {e : Error} (hphase : r.phase = .asking request attempt)
    (hresult : (streamChat setup.bufferStreaming stream).result = .error e)
    : setup.Keeps r stream
        ↔ if isTransient e ∧ attempt < setup.opts.stepRetries then
            (streamChat setup.bufferStreaming stream).receivedTokens = 0
          else
            r.receivedTokens + (streamChat setup.bufferStreaming stream).receivedTokens = 0 := by
  constructor
  . intro h
    have hkept := h request attempt hphase
    rw [hresult] at hkept
    exact hkept
  . intro h request' attempt' hasking
    rw [hphase] at hasking
    cases hasking
    rw [hresult]
    exact h

theorem keeps_of_ok {r : RunState} {stream : Stream} {request : ChatRequest} {attempt : Nat}
    {response : ChatResponse} (hphase : r.phase = .asking request attempt)
    (hresult : (streamChat setup.bufferStreaming stream).result = .ok response)
    : setup.Keeps r stream
        ↔ (streamChat setup.bufferStreaming stream).receivedTokens = response.usage.totalTokens
          ∧ r.usage.totalTokens + response.usage.totalTokens < 2 ^ 32
          ∧ (setup.Stops r response → r.receivedTokens + response.usage.totalTokens = 0) := by
  constructor
  . intro h
    have hkept := h request attempt hphase
    rw [hresult] at hkept
    exact hkept
  . intro h request' attempt' hasking
    rw [hphase] at hasking
    cases hasking
    rw [hresult]
    exact h

theorem counted_iff_keeps {r : RunState} {stream : Stream} {request : ChatRequest} {attempt : Nat}
    {response : ChatResponse} (hle : r.usage.totalTokens ≤ r.receivedTokens)
    (hphase : r.phase = .asking request attempt)
    (hresult : (streamChat setup.bufferStreaming stream).result = .ok response)
    (hgoes : ¬setup.Stops r response)
    : (r.usage.totalTokens + response.usage.totalTokens) % 2 ^ 32
          = r.receivedTokens + (streamChat setup.bufferStreaming stream).receivedTokens
        ↔ r.charged = r.receivedTokens ∧ setup.Keeps r stream := by
  rw [mod_add_eq_add_iff (by decide) hle (tokens_streamChat hresult), keeps_of_ok hphase hresult,
    charged_of_asking hphase]
  constructor
  . rintro ⟨hsame, htokens, hlt⟩
    exact ⟨hsame, htokens, hlt, fun hstops => absurd hstops hgoes⟩
  . rintro ⟨hsame, htokens, hlt, _⟩
    exact ⟨hsame, htokens, hlt⟩

theorem nothing_iff_keeps {r : RunState} {stream : Stream} {request : ChatRequest} {attempt : Nat}
    {response : ChatResponse} (hle : r.usage.totalTokens ≤ r.receivedTokens)
    (hphase : r.phase = .asking request attempt)
    (hresult : (streamChat setup.bufferStreaming stream).result = .ok response)
    (hstops : setup.Stops r response)
    : 0 = r.receivedTokens + (streamChat setup.bufferStreaming stream).receivedTokens
        ↔ r.charged = r.receivedTokens ∧ setup.Keeps r stream := by
  have htokens := tokens_streamChat hresult
  rw [keeps_of_ok hphase hresult, charged_of_asking hphase]
  constructor
  . intro h
    exact ⟨by omega, by omega, by omega, fun _ => by omega⟩
  . rintro ⟨hsame, hall, _, hnothing⟩
    have hzero := hnothing hstops
    omega

theorem charged_answer_iff {r : RunState} (h : setup.Counted r) (stream : Stream)
    : (setup.answer r stream).charged = (setup.answer r stream).receivedTokens
        ↔ r.charged = r.receivedTokens ∧ setup.Keeps r stream := by
  have hle := h.le
  have hsteps := steps_answer h.asks stream
  generalize setup.answer r stream = t at hsteps ⊢
  cases hsteps with
  | idle hphase =>
    refine (and_iff_left ?_).symm
    intro _ _ hasking
    rw [hphase] at hasking
    cases hasking
  | retry hphase hresult hagain =>
    rw [keeps_of_error hphase hresult, if_pos hagain, charged_of_asking hphase]
    show r.usage.totalTokens
        = r.receivedTokens + (streamChat setup.bufferStreaming stream).receivedTokens ↔ _
    omega
  | failed hphase hresult hlast =>
    rw [keeps_of_error hphase hresult, if_neg hlast, charged_of_asking hphase]
    show 0 = r.receivedTokens + (streamChat setup.bufferStreaming stream).receivedTokens ↔ _
    omega
  | final hphase hresult hnone hleaves =>
    cases hleaves with
    | refused hrefuses => exact nothing_iff_keeps hle hphase hresult (Or.inl ⟨hnone, hrefuses⟩)
    | checked haccepts =>
      apply counted_iff_keeps hle hphase hresult
      rintro (⟨_, hrefuses⟩ | ⟨hcalls, _⟩)
      . exact haccepts hrefuses
      . exact hcalls hnone
    | unchecked haccepts =>
      apply counted_iff_keeps hle hphase hresult
      rintro (⟨_, hrefuses⟩ | ⟨hcalls, _⟩)
      . exact haccepts hrefuses
      . exact hcalls hnone
  | again hphase hresult hcalls hmore =>
    apply counted_iff_keeps hle hphase hresult
    rintro (⟨hnone, _⟩ | ⟨_, hlast⟩)
    . exact hcalls hnone
    . omega
  | exhausted hphase hresult hcalls hlast =>
    exact nothing_iff_keeps hle hphase hresult (Or.inr ⟨hcalls, hlast⟩)

theorem counted_start : setup.Counted setup.start := by
  refine ⟨(fresh_start).asks, ?_⟩
  rw [(fresh_start).usage]
  exact Nat.zero_le _

theorem charged_start : setup.start.charged = setup.start.receivedTokens := by
  have hfresh : setup.Fresh setup.start := fresh_start
  rw [hfresh.receivedTokens]
  unfold RunState.charged
  split
  . rw [hfresh.usage]
  . rename_i out hphase
    exact absurd hphase (hfresh.unanswered out)
  . rfl

theorem charged_eq_iff_keeps (streams : List Stream)
    : (setup.run streams).charged = (setup.run streams).receivedTokens
        ↔ Run (Guarded setup.Keeps setup.answer) setup.start streams (setup.run streams) :=
  Run.iff_guarded (I := setup.Counted) (P := fun r => r.charged = r.receivedTokens)
    (fun _ stream h => counted_answer h stream) (fun _ stream h => charged_answer_iff h stream)
    counted_start charged_start streams

structure Reported (setup : Setup) (r : RunState) : Prop where
  counted : setup.Counted r
  le : r.charged ≤ r.receivedTokens

theorem reported_answer {r : RunState} (h : setup.Reported r) (stream : Stream)
    : setup.Reported (setup.answer r stream) := by
  have hnext := counted_answer h.counted stream
  refine ⟨hnext, ?_⟩
  have hle := hnext.le
  have hsteps := steps_answer h.counted.asks stream
  generalize setup.answer r stream = t at hsteps hle ⊢
  cases hsteps with
  | idle => exact h.le
  | retry => exact hle
  | failed => exact Nat.zero_le _
  | final _ _ _ hleaves =>
    cases hleaves with
    | refused => exact Nat.zero_le _
    | checked => exact hle
    | unchecked => exact hle
  | again => exact hle
  | exhausted => exact Nat.zero_le _

theorem charged_run_le (streams : List Stream)
    : (setup.run streams).charged ≤ (setup.run streams).receivedTokens := by
  have hreported : setup.Reported (setup.run streams) := by
    unfold run
    induction streams using List.reverseRecOn with
    | nil =>
      rw [List.foldl_nil]
      exact ⟨counted_start, Nat.le_of_eq charged_start⟩
    | append_singleton streams stream ih =>
      rw [List.foldl_append, List.foldl_cons, List.foldl_nil]
      exact reported_answer ih stream
  exact hreported.le

end Wovyr.Agent.Setup
