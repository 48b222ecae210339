import Wovyr.Lib.Run
import Wovyr.Server.Ui.Judge
import Wovyr.Ui.Decision

/-!
This module contains the registries of the frames that wait for a decision and of the decisions on
frames without a workflow, and the requests that decide on pending frames, interleaved step by step.
The workflow engine behind them is a parameter.
-/

namespace Wovyr.Server.Ui

open Wovyr.Ui

structure PendingFrame where
  frameId : String
  tenant : String
  executionId : Option String
  activityId : Option String
  frame : Value
  frameHash : String
  policyRef : String
  createdAtMs : Nat
deriving Repr, DecidableEq, Inhabited

abbrev UiFrameStore := Std.ExtTreeMap String PendingFrame

namespace UiFrameStore

def isFresh (store : UiFrameStore) (frame : PendingFrame) : Bool :=
  match store[frame.frameId]? with
  | none => true
  | some existing => existing.frameHash != frame.frameHash

def upsert (store : UiFrameStore) (frame : PendingFrame) : UiFrameStore :=
  if store.isFresh frame then store.insert frame.frameId frame else store

def remove (store : UiFrameStore) (frameId : String) : UiFrameStore :=
  store.erase frameId

end UiFrameStore

structure DecidedOutcome where
  frameId : String
  tenant : String
  action : String
  values : Std.ExtTreeMap String Value
  decidedBy : String
  decidedAtMs : Nat
  frameHash : String

structure DecidedOutcomeStore where
  entries : Std.ExtTreeMap String DecidedOutcome := ∅
  order : List String := []
  maxEntries : Nat := 10000

namespace DecidedOutcomeStore

def evict (store : DecidedOutcomeStore) : DecidedOutcomeStore :=
  let excess := store.order.length - store.maxEntries
  { store with
    entries := (store.order.take excess).foldl (fun entries oldest => entries.erase oldest) store.entries
    order := store.order.drop excess }

def record (store : DecidedOutcomeStore) (outcome : DecidedOutcome) : DecidedOutcomeStore :=
  let order :=
    if store.entries.contains outcome.frameId then store.order else store.order ++ [outcome.frameId]
  evict { store with entries := store.entries.insert outcome.frameId outcome, order }

end DecidedOutcomeStore

inductive FrameOp where
  | upsert (frame : PendingFrame)
  | remove (frameId : String)
deriving Repr, DecidableEq, Inhabited

structure Workflows (σ δ : Type) where
  resolveDefinition : σ → String → Except ApiError δ
  inject : σ → String → String → Value → Except Error σ
  resume : σ → δ → String → σ × List FrameOp × Except Error Unit

structure DecideRequest where
  tenant : Except ApiError String
  frameId : String
  action : String
  values : Std.ExtTreeMap String Value
  decidedBy : String
  decidedAtMs : Nat

structure Held where
  pending : PendingFrame
  presentation : Nat
deriving Repr, DecidableEq, Inhabited

inductive Phase (δ : Type) where
  | arrived
  | read (held : Held)
  | validated (held : Held)
  | resolved (held : Held) (executionId activityId : String) (definition : δ)
  | signalled (held : Held) (executionId : String) (definition : δ)
  | answered (held : Held)
  | decided (held : Held) (response : Value)
  | failed (error : ApiError)
deriving Repr, DecidableEq, Inhabited

structure Answer where
  request : Nat
  frameId : String
  presentation : Nat
  payload : Value
deriving Repr, DecidableEq, Inhabited

/-
`presentations` counts the frames presented under an id and `answers` lists the decisions that were
stored in a checkpoint or recorded, the program keeps neither.
-/
structure Desk (σ δ : Type) where
  world : σ
  frames : UiFrameStore
  decisions : DecidedOutcomeStore
  phase : Nat → Phase δ
  presentations : String → Nat
  answers : List Answer

namespace DecideRequest

def decision (req : DecideRequest) : UiDecision where
  action := req.action
  values := req.values

def payload (req : DecideRequest) (pending : PendingFrame) : Value :=
  record [("action", .string req.action), ("values", .object req.values.toList),
    ("decided_by", .string req.decidedBy), ("decided_at_ms", .int req.decidedAtMs),
    ("frame_id", .string pending.frameId), ("frame_hash", .string pending.frameHash)]

def outcome (req : DecideRequest) (pending : PendingFrame) : DecidedOutcome where
  frameId := pending.frameId
  tenant := pending.tenant
  action := req.action
  values := req.values
  decidedBy := req.decidedBy
  decidedAtMs := req.decidedAtMs
  frameHash := pending.frameHash

end DecideRequest

def optionalString : Option String → Value
  | none => .null
  | some s => .string s

def decidedResponse (req : DecideRequest) (pending : PendingFrame) : Value :=
  record [("frame_id", .string req.frameId), ("execution_id", optionalString pending.executionId),
    ("activity_id", optionalString pending.activityId), ("status", .string "decided")]

def notFound (frameId : String) : ApiError :=
  ⟨404, "not_found", s!"no pending ui frame `{frameId}`"⟩

namespace Desk

variable {σ δ : Type}

def setPhase (desk : Desk σ δ) (i : Nat) (phase : Phase δ) : Desk σ δ :=
  { desk with phase := fun j => if j = i then phase else desk.phase j }

def present (desk : Desk σ δ) (frame : PendingFrame) : Desk σ δ :=
  { desk with
    frames := desk.frames.upsert frame
    presentations := fun id =>
      if id = frame.frameId ∧ desk.frames.isFresh frame then
        desk.presentations id + 1
      else
        desk.presentations id }

def remove (desk : Desk σ δ) (frameId : String) : Desk σ δ :=
  { desk with frames := desk.frames.remove frameId }

def apply (desk : Desk σ δ) : FrameOp → Desk σ δ
  | .upsert frame => desk.present frame
  | .remove frameId => desk.remove frameId

def answer (desk : Desk σ δ) (i : Nat) (req : DecideRequest) (held : Held) : Desk σ δ :=
  { desk with
    answers :=
      desk.answers ++ [⟨i, req.frameId, held.presentation, req.payload held.pending⟩] }

section

variable (decode : Value → Except String UiFrame) (f64 : Float64) (workflows : Workflows σ δ)
  (request : Nat → DecideRequest)

def decide (desk : Desk σ δ) (i : Nat) : Desk σ δ :=
  let req := request i
  match desk.phase i with
  | .arrived =>
    match req.tenant with
    | .error e => desk.setPhase i (.failed e)
    | .ok tenant =>
      match desk.frames[req.frameId]? with
      | none => desk.setPhase i (.failed (notFound req.frameId))
      | some pending =>
        if pending.tenant = tenant then
          desk.setPhase i (.read ⟨pending, desk.presentations req.frameId⟩)
        else
          desk.setPhase i (.failed (notFound req.frameId))
  | .read held =>
    match fromValue decode held.pending.frame with
    | .error e =>
      desk.setPhase i (.failed
        ⟨500, "internal_error", s!"stored frame `{req.frameId}` failed to decode: {e.display}"⟩)
    | .ok frame =>
      match validateDecision f64 frame req.decision with
      | .error e => desk.setPhase i (.failed ⟨400, "validation_failed", e.display⟩)
      | .ok () => desk.setPhase i (.validated held)
  | .validated held =>
    match held.pending.executionId, held.pending.activityId with
    | some executionId, some activityId =>
      match workflows.resolveDefinition desk.world executionId with
      | .error e => desk.setPhase i (.failed e)
      | .ok definition => desk.setPhase i (.resolved held executionId activityId definition)
    | _, _ =>
      ({ desk with decisions := desk.decisions.record (req.outcome held.pending) }.answer i req
        held).setPhase i (.answered held)
  | .resolved held executionId activityId definition =>
    match workflows.inject desk.world executionId ("event." ++ activityId)
        (req.payload held.pending) with
    | .error e => desk.setPhase i (.failed (.ofError e))
    | .ok world =>
      ({ desk with world }.answer i req held).setPhase i (.signalled held executionId definition)
  | .signalled held executionId definition =>
    let (world, ops, result) := workflows.resume desk.world definition executionId
    let desk := ops.foldl apply { desk with world }
    match result with
    | .error e => desk.setPhase i (.failed (.ofError e))
    | .ok () => desk.setPhase i (.answered held)
  | .answered held =>
    (desk.remove req.frameId).setPhase i (.decided held (decidedResponse req held.pending))
  | .decided _ _ | .failed _ => desk

end

end Desk

-- The decision was delivered or recorded, the frame is not removed yet.
def Phase.answering {δ : Type} : Phase δ → Option Held
  | .signalled held _ _ => some held
  | .answered held => some held
  | _ => none

def Phase.decided? {δ : Type} : Phase δ → Option Held
  | .decided held _ => some held
  | _ => none

def Phase.held? {δ : Type} : Phase δ → Option Held
  | .read held => some held
  | .validated held => some held
  | .resolved held _ _ _ => some held
  | .signalled held _ _ => some held
  | .answered held => some held
  | .decided held _ => some held
  | _ => none

def Answer.key (a : Answer) : String × Nat :=
  (a.frameId, a.presentation)

namespace Desk

variable {σ δ : Type}

def Pending (desk : Desk σ δ) (frameId : String) (n : Nat) : Prop :=
  desk.frames[frameId]? ≠ none ∧ desk.presentations frameId = n

def Closed (desk : Desk σ δ) (frameId : String) (n : Nat) : Prop :=
  n ≤ desk.presentations frameId ∧ ¬desk.Pending frameId n

theorem presentations_le_present (desk : Desk σ δ) (frame : PendingFrame) (frameId : String)
    : desk.presentations frameId ≤ (desk.present frame).presentations frameId := by
  simp only [present]
  split
  . omega
  . omega

theorem presentations_le_apply (desk : Desk σ δ) (op : FrameOp) (frameId : String)
    : desk.presentations frameId ≤ (desk.apply op).presentations frameId := by
  cases op with
  | upsert frame => exact presentations_le_present desk frame frameId
  | remove _ => exact Nat.le_refl _

theorem Closed.present {desk : Desk σ δ} {frameId : String} {n : Nat} (h : desk.Closed frameId n)
    (frame : PendingFrame) : (desk.present frame).Closed frameId n := by
  refine ⟨Nat.le_trans h.1 (presentations_le_present desk frame frameId), ?_⟩
  rintro ⟨hsome, hn⟩
  simp only [Desk.present, UiFrameStore.upsert] at hsome hn
  by_cases hfresh : frameId = frame.frameId ∧ desk.frames.isFresh frame = true
  . -- A fresh frame under the id is a later presentation.
    rw [if_pos hfresh] at hn
    have := h.1
    omega
  . rw [if_neg hfresh] at hn
    apply h.2
    refine ⟨?_, hn⟩
    split at hsome
    . next hnew =>
      have hne : frame.frameId ≠ frameId := by
        intro heq
        exact hfresh ⟨heq.symm, hnew⟩
      rwa [Map.getElem?_insert_of_ne _ _ hne] at hsome
    . exact hsome

theorem Closed.remove {desk : Desk σ δ} {frameId : String} {n : Nat} (h : desk.Closed frameId n)
    (removed : String) : (desk.remove removed).Closed frameId n := by
  refine ⟨h.1, ?_⟩
  rintro ⟨hsome, hn⟩
  apply h.2
  refine ⟨?_, hn⟩
  simp only [Desk.remove, UiFrameStore.remove, Map.getElem?_erase] at hsome
  split at hsome
  . exact absurd rfl hsome
  . exact hsome

theorem Closed.apply {desk : Desk σ δ} {frameId : String} {n : Nat} (h : desk.Closed frameId n)
    (op : FrameOp) : (desk.apply op).Closed frameId n := by
  cases op with
  | upsert frame => exact h.present frame
  | remove removed => exact h.remove removed

theorem closed_remove {desk : Desk σ δ} {frameId : String} {n : Nat}
    (h : n ≤ desk.presentations frameId) : (desk.remove frameId).Closed frameId n := by
  refine ⟨h, ?_⟩
  rintro ⟨hsome, -⟩
  simp [Desk.remove, UiFrameStore.remove] at hsome

section

variable (request : Nat → DecideRequest)

structure Inv (desk : Desk σ δ) : Prop where
  unique : (desk.answers.map Answer.key).Nodup
  settled : ∀ a ∈ desk.answers, a.frameId = (request a.request).frameId ∧
    ((∃ held, (desk.phase a.request).answering = some held ∧ held.presentation = a.presentation)
      ∨ desk.Closed a.frameId a.presentation)
  logged : ∀ i held, ((desk.phase i).answering = some held ∨ (desk.phase i).decided? = some held) →
    ∃ a ∈ desk.answers, a.request = i ∧ a.key = ((request i).frameId, held.presentation)
  known : ∀ i held, (desk.phase i).held? = some held →
    held.presentation ≤ desk.presentations (request i).frameId

-- The presentation is still pending and no other decision on it awaits the removal of the frame.
def Open (desk : Desk σ δ) (i : Nat) (held : Held) : Prop :=
  desk.Pending (request i).frameId held.presentation ∧
    ∀ j held', (request j).frameId = (request i).frameId →
      (desk.phase j).answering = some held' → held'.presentation ≠ held.presentation

theorem Inv.apply {desk : Desk σ δ} (h : Inv request desk) (op : FrameOp)
    : Inv request (desk.apply op) := by
  have hphase : (desk.apply op).phase = desk.phase := by cases op <;> rfl
  have hanswers : (desk.apply op).answers = desk.answers := by cases op <;> rfl
  constructor
  . rw [hanswers]
    exact h.unique
  . rw [hanswers, hphase]
    intro a ha
    obtain ⟨hframe, hsettled⟩ := h.settled a ha
    refine ⟨hframe, hsettled.imp_right ?_⟩
    intro hclosed
    exact hclosed.apply op
  . rw [hanswers, hphase]
    exact h.logged
  . rw [hphase]
    intro i held hheld
    exact Nat.le_trans (h.known i held hheld) (presentations_le_apply desk op _)

theorem Inv.apply_all {desk : Desk σ δ} (h : Inv request desk) (ops : List FrameOp)
    : Inv request (ops.foldl Desk.apply desk) := by
  induction ops generalizing desk with
  | nil => exact h
  | cons op ops ih => exact ih (h.apply request op)

theorem phase_apply_all (desk : Desk σ δ) (ops : List FrameOp)
    : (ops.foldl Desk.apply desk).phase = desk.phase := by
  induction ops generalizing desk with
  | nil => rfl
  | cons op ops ih =>
    rw [List.foldl_cons, ih]
    cases op <;> rfl

theorem phase_setPhase_self (desk : Desk σ δ) (i : Nat) (phase : Phase δ)
    : (desk.setPhase i phase).phase i = phase := by
  simp [setPhase]

theorem phase_setPhase_of_ne (desk : Desk σ δ) {i j : Nat} (phase : Phase δ) (h : j ≠ i)
    : (desk.setPhase i phase).phase j = desk.phase j := by
  simp [setPhase, h]

theorem Inv.setPhase {desk : Desk σ δ} (h : Inv request desk) {i : Nat} {phase : Phase δ}
    (hsame : (desk.phase i).answering = phase.answering) (hdecided : phase.decided? = none)
    (hheld : ∀ held, phase.held? = some held →
      held.presentation ≤ desk.presentations (request i).frameId)
    : Inv request (desk.setPhase i phase) := by
  constructor
  . exact h.unique
  . intro a ha
    obtain ⟨hframe, hsettled⟩ := h.settled a ha
    refine ⟨hframe, hsettled.imp_left ?_⟩
    rintro ⟨held, hanswering, hpresentation⟩
    refine ⟨held, ?_, hpresentation⟩
    by_cases hi : a.request = i
    . rw [hi, phase_setPhase_self]
      rwa [hi, hsame] at hanswering
    . rwa [phase_setPhase_of_ne _ _ hi]
  . intro j held hj
    by_cases hi : j = i
    . subst hi
      rw [phase_setPhase_self] at hj
      apply h.logged j held
      rw [hdecided] at hj
      rw [hsame]
      exact hj.imp_right fun h => by cases h
    . rw [phase_setPhase_of_ne _ _ hi] at hj
      exact h.logged j held hj
  . intro j held hj
    by_cases hi : j = i
    . subst hi
      rw [phase_setPhase_self] at hj
      exact hheld held hj
    . rw [phase_setPhase_of_ne _ _ hi] at hj
      exact h.known j held hj

theorem Inv.answer {desk desk' : Desk σ δ} (h : Inv request desk) {i : Nat} {held : Held}
    {phase : Phase δ} (hframes : desk'.frames = desk.frames) (hphases : desk'.phase = desk.phase)
    (hpresentations : desk'.presentations = desk.presentations)
    (hanswers : desk'.answers = desk.answers) (hopen : desk.Open request i held)
    (hbefore : (desk.phase i).answering = none) (hheld : (desk.phase i).held? = some held)
    (hphase : phase.answering = some held) (hphase' : phase.held? = some held)
    (hdecided : phase.decided? = none)
    : Inv request ((desk'.answer i (request i) held).setPhase i phase) := by
  have hlog : ((desk'.answer i (request i) held).setPhase i phase).answers
      = desk.answers
        ++ [⟨i, (request i).frameId, held.presentation, (request i).payload held.pending⟩] := by
    simp [Desk.setPhase, Desk.answer, hanswers]
  have hself : ((desk'.answer i (request i) held).setPhase i phase).phase i = phase :=
    phase_setPhase_self _ _ _
  have hother : ∀ j, j ≠ i →
      ((desk'.answer i (request i) held).setPhase i phase).phase j = desk.phase j := by
    intro j hj
    rw [phase_setPhase_of_ne _ _ hj]
    simp [Desk.answer, hphases]
  have hclosed : ∀ frameId n, desk.Closed frameId n →
      ((desk'.answer i (request i) held).setPhase i phase).Closed frameId n := by
    intro frameId n hclosed
    simpa [Closed, Pending, Desk.setPhase, Desk.answer, hframes, hpresentations] using hclosed
  constructor
  . -- An earlier answer to the presentation would await the removal or have closed it.
    rw [hlog, List.map_append, List.nodup_append]
    refine ⟨h.unique, by simp, ?_⟩
    intro key hkey key' hkey' heq
    obtain ⟨a, ha, rfl⟩ := List.mem_map.mp hkey
    rw [List.map_singleton, List.mem_singleton] at hkey'
    rw [hkey'] at heq
    simp only [Answer.key, Prod.mk.injEq] at heq
    obtain ⟨hframe, hsettled⟩ := h.settled a ha
    rcases hsettled with ⟨held', hanswering, hpresentation⟩ | hclosed
    . apply hopen.2 a.request held' (hframe.symm.trans heq.1) hanswering
      rw [hpresentation, heq.2]
    . rw [heq.1, heq.2] at hclosed
      exact hclosed.2 hopen.1
  . intro a ha
    rw [hlog, List.mem_append, List.mem_singleton] at ha
    rcases ha with ha | rfl
    . obtain ⟨hframe, hsettled⟩ := h.settled a ha
      refine ⟨hframe, hsettled.imp ?_ (hclosed _ _)⟩
      rintro ⟨held', hanswering, hpresentation⟩
      refine ⟨held', ?_, hpresentation⟩
      rw [hother _ _]
      . exact hanswering
      . intro hi
        rw [hi, hbefore] at hanswering
        cases hanswering
    . exact ⟨rfl, Or.inl ⟨held, by rw [hself, hphase], rfl⟩⟩
  . intro j held' hj
    rw [hlog]
    by_cases hi : j = i
    . subst hi
      rw [hself, hphase, hdecided] at hj
      rcases hj with hj | hj
      . cases hj
        exact ⟨_, List.mem_append_right _ (List.mem_singleton.mpr rfl), rfl, rfl⟩
      . cases hj
    . rw [hother j hi] at hj
      obtain ⟨a, ha, hreq⟩ := h.logged j held' hj
      exact ⟨a, List.mem_append_left _ ha, hreq⟩
  . intro j held' hj
    have hsame : ((desk'.answer i (request i) held).setPhase i phase).presentations
        = desk.presentations := by
      simp [Desk.setPhase, Desk.answer, hpresentations]
    rw [hsame]
    by_cases hi : j = i
    . subst hi
      rw [hself, hphase'] at hj
      cases hj
      exact h.known j held hheld
    . rw [hother j hi] at hj
      exact h.known j held' hj

theorem Inv.decided {desk : Desk σ δ} (h : Inv request desk) {i : Nat} {held : Held}
    {response : Value} (hphase : desk.phase i = .answered held)
    : Inv request ((desk.remove (request i).frameId).setPhase i (.decided held response)) := by
  have hknown : held.presentation ≤ desk.presentations (request i).frameId :=
    h.known i held (by rw [hphase]; rfl)
  constructor
  . exact h.unique
  . intro a ha
    obtain ⟨hframe, hsettled⟩ := h.settled a ha
    refine ⟨hframe, ?_⟩
    rcases hsettled with ⟨held', hanswering, hpresentation⟩ | hclosed
    . by_cases hi : a.request = i
      . right
        rw [hi, hphase] at hanswering
        cases hanswering
        rw [hframe, hi, ← hpresentation]
        exact closed_remove hknown
      . left
        refine ⟨held', ?_, hpresentation⟩
        rwa [phase_setPhase_of_ne _ _ hi]
    . exact Or.inr (hclosed.remove _)
  . intro j held' hj
    by_cases hi : j = i
    . subst hi
      rw [phase_setPhase_self] at hj
      rcases hj with hj | hj
      . cases hj
      . cases hj
        exact h.logged j held (Or.inl (by rw [hphase]; rfl))
    . rw [phase_setPhase_of_ne _ _ hi] at hj
      exact h.logged j held' hj
  . intro j held' hj
    by_cases hi : j = i
    . subst hi
      rw [phase_setPhase_self] at hj
      cases hj
      exact hknown
    . rw [phase_setPhase_of_ne _ _ hi] at hj
      exact h.known j held' hj

end

section

variable (decode : Value → Except String UiFrame) (f64 : Float64) (workflows : Workflows σ δ)
  (request : Nat → DecideRequest)

theorem Inv.fail {desk : Desk σ δ} (h : Inv request desk) {i : Nat} (e : ApiError)
    (hphase : (desk.phase i).answering = none) : Inv request (desk.setPhase i (.failed e)) := by
  apply h.setPhase request hphase rfl
  intro held hheld
  cases hheld

-- The condition on the step that a request takes next.
def Undisputed (desk : Desk σ δ) (i : Nat) : Prop :=
  match desk.phase i with
  | .validated held =>
    (held.pending.executionId = none ∨ held.pending.activityId = none) → desk.Open request i held
  | .resolved held _ _ _ => desk.Open request i held
  | .signalled _ executionId definition =>
    (workflows.resume desk.world definition executionId).2.2 = .ok ()
  | _ => True

theorem Inv.validated {desk : Desk σ δ} (h : Inv request desk) {i : Nat} {held : Held}
    (hphase : desk.phase i = .validated held) (hguard : Undisputed workflows request desk i)
    : Inv request (desk.decide decode f64 workflows request i) := by
  unfold Undisputed at hguard
  unfold Desk.decide
  simp only [hphase] at hguard ⊢
  have hanswering : (desk.phase i).answering = none := by
    rw [hphase]
    rfl
  split
  . split
    . exact h.fail request _ hanswering
    . apply h.setPhase request hanswering rfl
      intro held' hheld
      cases hheld
      exact h.known i held (by rw [hphase]; rfl)
  . next hstandalone =>
    refine h.answer request rfl rfl rfl rfl (hguard ?_) hanswering (by rw [hphase]; rfl) rfl rfl rfl
    cases hexecution : held.pending.executionId with
    | none => exact Or.inl rfl
    | some executionId =>
      right
      cases hactivity : held.pending.activityId with
      | none => rfl
      | some activityId => exact (hstandalone _ _ hexecution hactivity).elim

theorem Inv.decide {desk : Desk σ δ} (h : Inv request desk) {i : Nat}
    (hguard : Undisputed workflows request desk i)
    : Inv request (desk.decide decode f64 workflows request i) := by
  cases hphase : desk.phase i with
  | arrived =>
    have hanswering : (desk.phase i).answering = none := by
      rw [hphase]
      rfl
    unfold Desk.decide
    simp only [hphase]
    split
    . exact h.fail request _ hanswering
    . split
      . exact h.fail request _ hanswering
      . split
        . apply h.setPhase request hanswering rfl
          intro held hheld
          cases hheld
          exact Nat.le_refl _
        . exact h.fail request _ hanswering
  | read held =>
    have hanswering : (desk.phase i).answering = none := by
      rw [hphase]
      rfl
    unfold Desk.decide
    simp only [hphase]
    split
    . exact h.fail request _ hanswering
    . split
      . exact h.fail request _ hanswering
      . apply h.setPhase request hanswering rfl
        intro held' hheld
        cases hheld
        exact h.known i held (by rw [hphase]; rfl)
  | validated held => exact h.validated decode f64 workflows request hphase hguard
  | resolved held executionId activityId definition =>
    have hanswering : (desk.phase i).answering = none := by
      rw [hphase]
      rfl
    unfold Undisputed at hguard
    unfold Desk.decide
    simp only [hphase] at hguard ⊢
    split
    . exact h.fail request _ hanswering
    . exact h.answer request rfl rfl rfl rfl hguard hanswering (by rw [hphase]; rfl) rfl rfl rfl
  | signalled held executionId definition =>
    unfold Undisputed at hguard
    unfold Desk.decide
    simp only [hphase] at hguard ⊢
    rw [hguard]
    have hworld : Inv request
        { desk with world := (workflows.resume desk.world definition executionId).1 } :=
      ⟨h.unique, h.settled, h.logged, h.known⟩
    have hops := hworld.apply_all request (workflows.resume desk.world definition executionId).2.1
    apply hops.setPhase request
    . rw [phase_apply_all]
      simp only [hphase]
      rfl
    . rfl
    . intro held' hheld
      cases hheld
      apply hops.known i held
      rw [phase_apply_all]
      simp only [hphase]
      rfl
  | answered held =>
    unfold Desk.decide
    simp only [hphase]
    exact h.decided request hphase
  | decided held response =>
    unfold Desk.decide
    simpa only [hphase] using h
  | failed e =>
    unfold Desk.decide
    simpa only [hphase] using h

inductive Move where
  | decide (i : Nat)
  | frame (op : FrameOp)

def move (desk : Desk σ δ) : Move → Desk σ δ
  | .decide i => desk.decide decode f64 workflows request i
  | .frame op => desk.apply op

def Allowed (desk : Desk σ δ) : Move → Prop
  | .decide i => Undisputed workflows request desk i
  | .frame _ => True

structure Initial (desk : Desk σ δ) : Prop where
  phase : ∀ i, desk.phase i = .arrived
  answers : desk.answers = []

theorem Initial.inv {desk : Desk σ δ} (h : Initial desk) : Inv request desk := by
  constructor
  . simp [h.answers]
  . simp [h.answers]
  . simp [h.phase, Phase.answering, Phase.decided?]
  . simp [h.phase, Phase.held?]

/-
At most one request succeeds on a presentation of a frame, and at most one decision on it is
delivered or recorded.
-/
structure AtMostOnce (desk : Desk σ δ) : Prop where
  success : ∀ i j held held' response response',
    desk.phase i = .decided held response → desk.phase j = .decided held' response' →
    (request i).frameId = (request j).frameId → held.presentation = held'.presentation → i = j
  payload : (desk.answers.map Answer.key).Nodup

theorem Inv.atMostOnce {desk : Desk σ δ} (h : Inv request desk) : AtMostOnce request desk where
  success := by
    intro i j held held' response response' hi hj hframe hpresentation
    obtain ⟨a, ha, rfl, hkey⟩ := h.logged i held (Or.inr (by rw [hi]; rfl))
    obtain ⟨b, hb, rfl, hkey'⟩ := h.logged j held' (Or.inr (by rw [hj]; rfl))
    have hab : a = b := by
      apply List.inj_on_of_nodup_map h.unique ha hb
      rw [hkey, hkey', hframe, hpresentation]
    rw [hab]
  payload := h.unique

end

end Desk

theorem atMostOnce_of_run {σ δ : Type} (decode : Value → Except String UiFrame) (f64 : Float64)
    (workflows : Workflows σ δ) (request : Nat → DecideRequest) {desk desk' : Desk σ δ}
    {moves : List Desk.Move} (hinitial : desk.Initial)
    (hrun : Run (Guarded (Desk.Allowed workflows request) (Desk.move decode f64 workflows request))
      desk moves desk')
    : desk'.AtMostOnce request := by
  apply Desk.Inv.atMostOnce
  refine Run.invariant ?_ hrun (hinitial.inv request)
  rintro s m t hs ⟨hguard, rfl⟩
  cases m with
  | decide i => exact hs.decide decode f64 workflows request hguard
  | frame op => exact hs.apply request op

def noteFrame : PendingFrame where
  frameId := "uif-1"
  tenant := "acme"
  executionId := none
  activityId := none
  frame := (credentialFrame "note").toValue
  frameHash := "00"
  policyRef := "unrestricted"
  createdAtMs := 0

def noteRequest (i : Nat) : DecideRequest where
  tenant := .ok "acme"
  frameId := "uif-1"
  action := "go"
  values := ∅
  decidedBy := if i = 0 then "ann" else "bob"
  decidedAtMs := i

def noWorkflows : Workflows Unit Unit where
  resolveDefinition _ executionId := .error ⟨404, "not_found", s!"execution `{executionId}` not found"⟩
  inject _ executionId _ _ := .error (.notFound s!"no checkpoint for execution `{executionId}`")
  resume _ _ _ := ((), [], .ok ())

def exactFloat64 : Float64 where
  ofInt n := n
  display q := toString q

def noteDesk : Desk Unit Unit where
  world := ()
  frames := Std.ExtTreeMap.insert ∅ "uif-1" noteFrame
  decisions := {}
  phase _ := .arrived
  presentations _ := 1
  answers := []

theorem initial_noteDesk : noteDesk.Initial :=
  ⟨fun _ => rfl, rfl⟩

def noteMove : Desk Unit Unit → Desk.Move → Desk Unit Unit :=
  Desk.move readCredential exactFloat64 noWorkflows noteRequest

-- The frame is presented again with another content.
def renewed : PendingFrame :=
  { noteFrame with frameHash := "01" }

def decidedTwice : List Desk.Move :=
  [.decide 0, .decide 0, .decide 0, .frame (.upsert renewed), .decide 1, .decide 1, .decide 1, .decide 0, .decide 2,
    .decide 1]

theorem phase_noteMoves {moves : List Desk.Move} {j : Nat} (h : ∀ move ∈ moves, move ≠ .decide j)
    (desk : Desk Unit Unit) : (moves.foldl noteMove desk).phase j = desk.phase j := by
  induction moves generalizing desk with
  | nil => rfl
  | cons move moves ih =>
    rw [List.foldl_cons, ih fun m hm => h m (List.mem_cons_of_mem _ hm)]
    cases move with
    | decide i =>
      have hne : j ≠ i := fun heq => h _ List.mem_cons_self (heq ▸ rfl)
      simp only [noteMove, Desk.move, Desk.decide]
      repeat' split
      all_goals first
        | rfl
        | exact Desk.phase_setPhase_of_ne _ _ hne
    | frame op => cases op <;> rfl

theorem undisputed_note (moves : List Desk.Move) (i : Nat) (phase : Phase Unit)
    (hphase : (moves.foldl noteMove noteDesk).phase i = phase)
    (hstep : match phase with
      | .validated held => (moves.foldl noteMove noteDesk).Open noteRequest i held
      | .arrived | .read _ | .answered _ => True
      | _ => False)
    : Desk.Undisputed noWorkflows noteRequest (moves.foldl noteMove noteDesk) i := by
  unfold Desk.Undisputed
  rw [hphase]
  cases phase with
  | validated held => exact fun _ => hstep
  | resolved held executionId activityId definition => exact hstep.elim
  | signalled held executionId definition => exact hstep.elim
  | arrived | read held | answered held | decided held response | failed e => trivial

theorem open_note {k i : Nat} {held : Held}
    (hpending : ((decidedTwice.take k).foldl noteMove noteDesk).Pending "uif-1" held.presentation)
    (hothers : ∀ j < 3, ∀ held' ∈ (((decidedTwice.take k).foldl noteMove noteDesk).phase j).answering,
      held'.presentation ≠ held.presentation)
    : ((decidedTwice.take k).foldl noteMove noteDesk).Open noteRequest i held := by
  refine ⟨hpending, ?_⟩
  intro j held' _ hanswering
  by_cases hj : j < 3
  . exact hothers j hj held' hanswering
  . have hmoves : ∀ move ∈ decidedTwice, ∀ j, move = .decide j → j < 3 := by
      simp [decidedTwice]
    rw [phase_noteMoves fun move hm heq => hj (hmoves move (List.mem_of_mem_take hm) j heq)] at hanswering
    cases hanswering

theorem atMostOnce_decided_twice
    : noteDesk.Initial
        ∧
      (decidedTwice.foldl noteMove noteDesk).AtMostOnce noteRequest
        ∧
      (decidedTwice.foldl noteMove noteDesk).answers.map Answer.key = [("uif-1", 1), ("uif-1", 2)] := by
  refine ⟨initial_noteDesk, ?_, by decide⟩
  apply atMostOnce_of_run readCredential exactFloat64 noWorkflows noteRequest initial_noteDesk
  apply @Run.of_take _ _ _ _ _ decidedTwice
  intro k hk
  have hstep := undisputed_note (decidedTwice.take k)
  match k with
  | 0 => exact hstep 0 .arrived (by decide) trivial
  | 1 => exact hstep 0 (.read ⟨noteFrame, 1⟩) (by decide) trivial
  | 2 => exact hstep 0 (.validated ⟨noteFrame, 1⟩) (by decide) (open_note ⟨by decide, by decide⟩ (by decide))
  | 3 => trivial
  | 4 => exact hstep 1 .arrived (by decide) trivial
  | 5 => exact hstep 1 (.read ⟨renewed, 2⟩) (by decide) trivial
  | 6 =>
    -- The first decision has yet to remove the frame.
    exact hstep 1 (.validated ⟨renewed, 2⟩) (by decide) (open_note ⟨by decide, by decide⟩ (by decide))
  | 7 => exact hstep 0 (.answered ⟨noteFrame, 1⟩) (by decide) trivial
  | 8 => exact hstep 2 .arrived (by decide) trivial
  | 9 => exact hstep 1 (.answered ⟨renewed, 2⟩) (by decide) trivial
  | k + 10 => exact absurd hk (Nat.not_lt_of_le (Nat.le_add_left 10 k))

def overlapping : List Desk.Move :=
  [.decide 0, .decide 1, .decide 0, .decide 1, .decide 0, .decide 1, .decide 0, .decide 1]

theorem not_atMostOnce_overlapping
    : noteDesk.Initial
        ∧
      (((overlapping.foldl noteMove noteDesk).phase 0).decided? = some ⟨noteFrame, 1⟩
        ∧ ((overlapping.foldl noteMove noteDesk).phase 1).decided? = some ⟨noteFrame, 1⟩)
        ∧
      (overlapping.foldl noteMove noteDesk).answers.map Answer.key = [("uif-1", 1), ("uif-1", 1)]
        ∧
      ¬(overlapping.foldl noteMove noteDesk).AtMostOnce noteRequest := by
  have hanswers : (overlapping.foldl noteMove noteDesk).answers.map Answer.key
      = [("uif-1", 1), ("uif-1", 1)] := by
    decide
  refine ⟨initial_noteDesk, by decide, hanswers, ?_⟩
  intro h
  have hnodup := h.payload
  rw [hanswers] at hnodup
  simp at hnodup

end Wovyr.Server.Ui
