import Wovyr.Workflow.Course.Drive

/-!
This module contains what can be asked of the engine for an execution, each time by a process of its
own that can stop before any of its writes.
-/

namespace Wovyr.Workflow

inductive Operation where
  | start (input : Value)
  | run (input : Value)
  | resume
  | signalEvent (name : String) (payload : Value)
  | fireTimer (timer : String)
  | cancel
deriving Repr, DecidableEq, Inhabited

namespace Operation

def delivery : Operation → Option (String × Value)
  | .signalEvent name payload => some ("event." ++ name, payload)
  | .fireTimer timer => some ("timer." ++ timer, .bool true)
  | _ => none

def input : Operation → Option Value
  | .start input | .run input => some input
  | _ => none

end Operation

structure Act (ω : Type) where
  definition : Definition
  executionId : String
  operation : Operation
  process : Process ω

section

variable {ω : Type} (e : Engine ω)

-- There is no outcome yet when an execution is only started, nor when it is cancelled.
def Engine.perform (gas : Nat) (d : Definition) (executionId : String)
    : Operation → Action ω (Option RunOutcome × ExecutionState)
  | .start input => do
    let state ← e.start d executionId input
    return (none, state)
  | .run input => do
    let (outcome, state) ← e.runWith (e.drive gas) d executionId input
    return (some outcome, state)
  | .resume => do
    let (outcome, state) ← e.resume gas d executionId
    return (some outcome, state)
  | .signalEvent name payload => do
    let (outcome, state) ← e.signalEvent gas d executionId name payload
    return (some outcome, state)
  | .fireTimer timer => do
    let (outcome, state) ← e.fireTimer gas d executionId timer
    return (some outcome, state)
  | .cancel => do
    let state ← e.cancel executionId
    return (none, state)

def Act.program (a : Act ω) : Action ω (Option RunOutcome × ExecutionState) :=
  e.perform a.process.gas a.definition a.executionId a.operation

def Engine.act (w : World ω) (a : Act ω)
    : Outcome Error (Option RunOutcome × ExecutionState) × World ω :=
  a.program e (w.boot a.process)

def Engine.acts (x : ω) (as : List (Act ω)) : World ω :=
  as.foldl (fun w a => (e.act w a).2) { executor := x, writes := 0 }

-- What the activities of a workflow stand for has been validated, as has the workflow.
def Engine.Validates (as : List (Act ω)) : Prop :=
  (∀ a ∈ as, a.definition.validate e.platform = .ok ())
    ∧ ∀ a child, e.Resolves a child → child.validate e.platform = .ok ()

structure Family (definitions : String → Definition → Prop)
    (as : List (Act ω)) : Prop where
  validates : e.Validates as
  roots : ∀ a ∈ as, definitions (e.backend.key a.executionId) a.definition
  children : ∀ d s a child, definitions (e.backend.key s.executionId) d → d.activity a.id = some a →
    e.Resolves a child → definitions (e.backend.key (Engine.childId s a)) child

def Engine.latestCalls (w : World ω) (a : Act ω) : List Call :=
  World.durable.recent (a.program e) (w.boot a.process) a.process.writes

variable {e}

theorem Family.alone {d : Definition} {as : List (Act ω)} (he : e.subworkflows = none)
    (hvalid : d.validate e.platform = .ok ()) (h : ∀ a ∈ as, a.definition = d)
    : Family e (fun _ d' => d' = d) as := by
  have hnone (a : ActivityDef) (child : Definition) : ¬e.Resolves a child := by
    rintro ⟨-, resolver, x, name, hresolver, -⟩
    rw [he] at hresolver
    cases hresolver
  refine ⟨⟨fun a ha => h a ha ▸ hvalid, fun a child hchild => absurd hchild (hnone a child)⟩, h, ?_⟩
  exact fun _ _ a child _ _ hchild => absurd hchild (hnone a child)

end

def ExecutionState.closed (s : ExecutionState) : ExecutionState :=
  { s with activities := s.activities.map fun _ record => Engine.skipOpen record }

def ExecutionState.cancelled (s : ExecutionState) : ExecutionState :=
  { s.closed with status := .cancelled }

namespace Contract

open Keeping

variable {ω : Type} {e : Engine ω} {K : Contract e} {d : Definition} {id : String}

theorem answer_keeps {P : World ω → Prop} {m : Action ω (RunOutcome × ExecutionState)}
    {Q : RunOutcome × ExecutionState → World ω → Prop} (hm : K.Keeps P m Q)
    : K.Keeps P (do let (outcome, state) ← m; return (some outcome, state)) (fun _ _ => True) :=
  Keeps.bind hm fun _ => Keeps.pure _ fun _ _ _ => trivial

theorem perform_keeps (hK : K.Closed) {operation : Operation}
    (hinput : ∀ w input, operation.input = some input → K.inv w →
      K.good w d (Engine.initialState d id input))
    (hload : ∀ w t, K.inv w → w.latest e id = some t → K.good w d t)
    (hkey : ∀ w t, K.inv w → w.latest e id = some t → e.backend.key t.executionId = e.backend.key id)
    (hdelivery : ∀ w t key payload, operation.delivery = some (key, payload) → K.inv w →
      w.latest e id = some t → ∃ d', K.good w d' (t.setVariable key payload)) (gas : Nat)
    : K.Keeps (fun _ => True) (e.perform gas d id operation) (fun _ _ => True) := by
  have hdeliver {key : String} {payload : Value} (h : operation.delivery = some (key, payload))
      : K.Keeps (fun _ => True) (e.deliver gas d id key payload) (fun r => K.Good d r.2) := by
    apply deliver_keeps hK hkey
    intro w t hinv _ hlatest
    exact ⟨hdelivery w t key payload h hinv hlatest, fun _ w' hinv' hlatest' => hload w' _ hinv' hlatest'⟩
  cases operation with
  | start input =>
    refine Keeps.bind (Keeps.pre ?_ (start_keeps hK id input)) fun _ => Keeps.pure _ fun _ _ _ => trivial
    exact fun w hinv _ => hinput w input rfl hinv
  | run input =>
    refine answer_keeps (Keeps.pre ?_ (runWith_keeps hK (drive_keeps hK gas) id input))
    exact fun w hinv _ => hinput w input rfl hinv
  | resume => exact answer_keeps (resume_keeps hK (fun w t hinv _ ht _ => hload w t hinv ht) gas)
  | signalEvent name payload => exact answer_keeps (hdeliver rfl)
  | fireTimer timer => exact answer_keeps (hdeliver rfl)
  | cancel =>
    refine Keeps.bind (cancel_keeps (d := d) hK ?_) fun _ => Keeps.pure _ fun _ _ _ => trivial
    exact fun w t hinv _ ht => hload w t hinv ht

end Contract

namespace Course

variable {ω : Type} {e : Engine ω} {K : Course e} {d : Definition} {id : String}

def Cancels (K : Course e) (id : String) : Prop :=
  ∀ st t, K.inv st → K.whole st → st.latest e id = some t → t.status.isTerminal = false →
    (t.status ≠ .running → K.fault (refusal t.status .cancelled))
      ∧ (t.status = .running → K.inv (st.append e t.executionId .workflowCancelled)
        ∧ ∀ version, K.inv ((st.append e t.executionId .workflowCancelled).save e
            { t.cancelled with version })
          ∧ K.whole ((st.append e t.executionId .workflowCancelled).save e { t.cancelled with version }))

theorem cancel_keeps (hcancels : Cancels K id)
    : K.Keeps K.whole (e.cancel id) (fun t st => st.latest e id = some t) := by
  unfold Engine.cancel
  apply latest_keeps
  intro found
  cases found with
  | none =>
    refine fail_keeps _ ?_
    rintro ⟨status, target, heq⟩
    cases heq
  | some t =>
    dsimp only
    split
    . refine fail_keeps _ ?_
      rintro ⟨status, target, heq⟩
      cases heq
    next hterminal =>
      rw [Bool.not_eq_true] at hterminal
      show K.Keeps _ (e.transition t.closed .cancelled .workflowCancelled >>= _) _
      by_cases hstatus : t.closed.status = .running
      . rw [transition_eq (by rw [hstatus]; rfl), emit_bind]
        apply bind_keeps (Q := fun _ st => ∃ st', st = st'.append e t.executionId .workflowCancelled
          ∧ K.inv st' ∧ K.whole st' ∧ st'.latest e id = some t)
        . apply append_keeps
          intro st hinv h
          obtain ⟨hcancelled, -⟩ := (hcancels st t hinv h.1 h.2 hterminal).2 hstatus
          exact ⟨hcancelled, st, rfl, hinv, h.1, h.2⟩
        intro _
        refine bind_keeps (Q := fun _ st => st.latest e id = some { t.cancelled with version := t.version + 1 })
          (save_keeps ?_) fun _ => pure_keeps _ fun st h => h
        rintro st - ⟨st', rfl, hinv, hwhole, hlatest⟩
        obtain ⟨-, hcancelled⟩ := (hcancels st' t hinv hwhole hlatest hterminal).2 hstatus
        have hkey := K.keyed st' id t hinv hlatest
        exact ⟨(hcancelled _).1, (Store.latest_save).trans (if_pos hkey)⟩
      . apply Watch.Keeps.given (W := K.watch) (p := K.fault (refusal t.closed.status .cancelled))
        . exact fun st hinv h => (hcancels st t hinv h.1 h.2 hterminal).1 hstatus
        intro hfault
        apply refuse_keeps
        . revert hstatus
          cases t.closed.status <;> simp [WorkflowState.canTransition]
        . exact fun _ _ => hfault

theorem perform_keeps (hheir : K.heir d id) {operation : Operation}
    (hinput : ∀ input, operation.input = some input →
      K.takes d id input ∧ ∀ st, K.inv st → K.whole st → K.vacant st id)
    (hdelivery : ∀ key payload, operation.delivery = some (key, payload) → ∀ st t, K.inv st → K.whole st →
      st.latest e id = some t →
      K.inv (st.save e (t.setVariable key payload)) ∧ K.whole (st.save e (t.setVariable key payload)))
    (hcancels : operation = .cancel → Cancels K id) (gas : Nat)
    : K.Keeps K.whole (e.perform gas d id operation)
        (fun r st => (∃ ph, K.good ph .rest st d r.2) ∨ st.latest e id = some r.2) := by
  have hresumed {m : Action ω (RunOutcome × ExecutionState)} (hm : K.Keeps K.whole m (Resumed K d id))
      : K.Keeps K.whole (do let (outcome, state) ← m; return (some outcome, state))
        (fun r st => (∃ ph, K.good ph .rest st d r.2) ∨ st.latest e id = some r.2) := by
    apply bind_keeps hm
    rintro ⟨outcome, state⟩
    exact pure_keeps _ fun st h => h.1
  cases operation with
  | start input =>
    obtain ⟨htakes, hvacant⟩ := hinput input rfl
    apply bind_keeps (Q := fun t => K.At .onward .rest d t)
    . apply Watch.Keeps.pre (W := K.watch) _ (start_keeps hheir htakes)
      exact fun st hinv h => ⟨h, hvacant st hinv h⟩
    . intro t
      exact pure_keeps _ fun st h => .inl ⟨.onward, h⟩
  | run input =>
    obtain ⟨htakes, hvacant⟩ := hinput input rfl
    apply bind_keeps (Q := Settled K d)
    . apply Watch.Keeps.pre (W := K.watch) _ (runWith_keeps (drive_keeps gas K) hheir htakes)
      exact fun st hinv h => ⟨h, hvacant st hinv h⟩
    . rintro ⟨outcome, state⟩
      exact pure_keeps _ fun st h => .inl h.1
  | resume => exact hresumed (resume_keeps hheir gas)
  | signalEvent name payload => exact hresumed (deliver_keeps hheir (hdelivery _ _ rfl) gas)
  | fireTimer timer => exact hresumed (deliver_keeps hheir (hdelivery _ _ rfl) gas)
  | cancel =>
    apply bind_keeps (cancel_keeps (hcancels rfl))
    intro t
    exact pure_keeps _ fun st h => .inr h

end Wovyr.Workflow.Course
