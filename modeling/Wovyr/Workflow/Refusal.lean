import Wovyr.Workflow.Operation

/-!
This module contains what a signal that is refused leaves behind. The payload is put into the checkpoint
before the definition and the status of the execution are looked at.
-/

namespace Wovyr.Workflow

def Refused (d : Definition) (state : ExecutionState) : Prop :=
  Engine.pinned d state = false
    ∨ state.status = .completed ∨ state.status = .failed ∨ state.status = .cancelled

theorem Refused.setVariable {d : Definition} {state : ExecutionState} (h : Refused d state)
    (key : String) (payload : Value) : Refused d (state.setVariable key payload) :=
  h

theorem setVariable_eq_self {state : ExecutionState} {key : String} {payload : Value}
    : state.setVariable key payload = state ↔ state.vars[key]? = some payload := by
  constructor
  . intro h
    have hvars := congrArg (·.vars[key]?) h
    simp only [ExecutionState.setVariable, Std.ExtTreeMap.getElem?_insert_self] at hvars
    exact hvars.symm
  . intro h
    have hvars : state.vars.insert key payload = state.vars := by
      apply Std.ExtTreeMap.ext_getElem?
      intro k
      rw [Map.getElem?_insert]
      split
      . next heq =>
        subst heq
        exact h.symm
      . rfl
    rw [ExecutionState.setVariable, hvars]

section

variable {ω : Type} {e : Engine ω} {w : World ω} {d : Definition} {executionId : String}

theorem latest_save (hkeyed : w.WellKeyed e) {state state' : ExecutionState}
    (hstate : w.latest e executionId = some state) (hid : state'.executionId = state.executionId)
    : (w.save e state').latest e executionId = some state' := by
  have hkey := hkeyed.latest hstate
  rw [World.latest, World.save, hid, hkey]
  simp

theorem resumeWith_refused (drive : Definition → ExecutionState → Action ω (RunOutcome × ExecutionState))
    {state : ExecutionState} (hstate : w.latest e executionId = some state) (h : Refused d state)
    : (e.resumeWith drive d executionId w).2 = w := by
  unfold Engine.resumeWith
  rw [Prog.bind_of_ok (show e.latest executionId w = (.ok (some state), w) by
    rw [← hstate]
    rfl)]
  dsimp only
  unfold Engine.assertPinnedDefinition
  cases hpinned : Engine.pinned d state with
  | false => rfl
  | true =>
    rw [Refused, hpinned] at h
    rcases h with h | h | h | h
    . cases h
    . rw [h]
      rfl
    . rw [h]
      rfl
    . rw [h]
      rfl

theorem deliver_refused (hkeyed : w.WellKeyed e) {state : ExecutionState}
    (hstate : w.latest e executionId = some state) (h : Refused d state) (gas : Nat) (key : String)
    (payload : Value)
    : (e.deliver gas d executionId key payload w).2.latest e executionId = w.latest e executionId
        ↔
      w.writes = 0 ∨ state.vars[key]? = some payload := by
  unfold Engine.deliver
  rw [Prog.bind_of_ok (show e.latest executionId w = (.ok (some state), w) by
    rw [← hstate]
    rfl)]
  dsimp only
  by_cases hwrites : w.writes = 0
  . have hstopped : e.checkpoint (state.setVariable key payload) w = (.halted, w) := by
      simp [Engine.checkpoint, Engine.persist, hwrites]
    rw [Prog.bind_apply, hstopped]
    simp [hwrites]
  . have hsaved : e.checkpoint (state.setVariable key payload) w
        = (.ok (), ({ w with writes := w.writes - 1 } : World ω).save e (state.setVariable key payload)) := by
      simp [Engine.checkpoint, Engine.persist, hwrites]
    have hlatest : (({ w with writes := w.writes - 1 } : World ω).save e
        (state.setVariable key payload)).latest e executionId
          = some (state.setVariable key payload) :=
      @latest_save _ e { w with writes := w.writes - 1 } _ hkeyed state _ hstate rfl
    rw [Prog.bind_of_ok hsaved, Engine.resume, resumeWith_refused _ hlatest (h.setVariable key payload),
      hlatest, hstate, Option.some.injEq, setVariable_eq_self]
    simp [hwrites]

theorem perform_footprint (gas : Nat) (d : Definition) (executionId : String) (operation : Operation)
    : (footprintContract e (e.backend.key executionId)).Keeps (fun _ => True)
        (e.perform gas d executionId operation) (fun _ _ => True) := by
  apply Contract.perform_keeps (footprintContract_closed _)
  . exact fun _ _ _ _ => .inl rfl
  . exact fun w t hinv ht => footprint_latest hinv ht
  . exact fun w t hinv ht => World.WellKeyed.latest hinv ht
  . intro w t key payload _ hinv ht
    have hkey : e.backend.key t.executionId = e.backend.key executionId := World.WellKeyed.latest hinv ht
    exact ⟨d, .inl hkey⟩

theorem wellKeyed_acts (x : ω) (as : List (Act ω)) : (e.acts x as).WellKeyed e := by
  induction as using List.reverseRecOn with
  | nil =>
    intro k t ht
    simp [Engine.acts] at ht
  | append_singleton as a ih =>
    rw [Engine.acts, List.foldl_append, List.foldl_cons, List.foldl_nil]
    have hboot : ((e.acts x as).boot a.process).WellKeyed e := ih
    exact (perform_footprint a.process.gas a.definition a.executionId a.operation _ hboot trivial).1

theorem act_delivery (w : World ω) {a : Act ω} {key : String} {payload : Value}
    (h : a.operation.delivery = some (key, payload))
    : (e.act w a).2
        = (e.deliver a.process.gas a.definition a.executionId key payload (w.boot a.process)).2 := by
  unfold Engine.act Act.program
  cases hoperation : a.operation with
  | signalEvent name value =>
    rw [hoperation] at h
    cases h
    exact Prog.bind_pure_state _ (fun r : RunOutcome × ExecutionState => (some r.1, r.2)) _
  | fireTimer timer =>
    rw [hoperation] at h
    cases h
    exact Prog.bind_pure_state _ (fun r : RunOutcome × ExecutionState => (some r.1, r.2)) _
  | start input | run input | resume | cancel =>
    rw [hoperation] at h
    cases h

end

-- After whatever was asked of the engine, a delivery that is refused leaves the checkpoint as it was
-- exactly if the process stops before it writes or the variable has that value already.
theorem refused_delivery_unchanged {ω : Type} (e : Engine ω) (x : ω) (as : List (Act ω)) (a : Act ω)
    (key : String) (payload : Value) (hdelivery : a.operation.delivery = some (key, payload))
    (state : ExecutionState) (hstate : (e.acts x as).latest e a.executionId = some state)
    (hrefused : Refused a.definition state)
    : (e.acts x (as ++ [a])).latest e a.executionId = (e.acts x as).latest e a.executionId
        ↔
      a.process.writes = 0 ∨ state.vars[key]? = some payload := by
  have hkeyed : ((e.acts x as).boot a.process).WellKeyed e := wellKeyed_acts x as
  have hdeliver := deliver_refused hkeyed hstate hrefused a.process.gas key payload
  have hlast : e.acts x (as ++ [a]) = (e.act (e.acts x as) a).2 := by
    unfold Engine.acts
    rw [List.foldl_append, List.foldl_cons, List.foldl_nil]
  rw [hlast, act_delivery _ hdelivery]
  exact hdeliver

namespace Refusal

def engine : Engine Unit where
  platform := .integral
  backend := .file
  execute _ _ := { executor := (), progress := [], reply := .output .null }
  nowMillis _ := 0
  timers := true
  subworkflows := none

def reminder : Definition where
  metadata := { name := "reminder" }
  spec := { activities := [
    { id := "pause", activityType := "wait", inputs := .object [("timer", .string "t1")] }] }

def ask (operation : Operation) : Act Unit :=
  ⟨reminder, "exec-1", operation, ⟨(), 9, 99, []⟩⟩

def cancelled : List (Act Unit) :=
  [ask (.run .null), ask .cancel]

def fire : Act Unit :=
  ask (.fireTimer "t1")

def checkpointOf (as : List (Act Unit)) : Option ExecutionState :=
  (engine.acts () as).latest engine "exec-1"

end Refusal

open Refusal

theorem cancelled_timer_writes
    : (checkpointOf cancelled).map (fun t => (t.status, t.vars["timer.t1"]?))
          = some (.cancelled, none)
        ∧ (checkpointOf (cancelled ++ [fire])).map
            (fun t => (t.status, t.vars["timer.t1"]?)) = some (.cancelled, some (.bool true))
        ∧ checkpointOf (cancelled ++ [fire])
            ≠ checkpointOf cancelled := by
  have hruns : (checkpointOf cancelled).map (fun t => (t.status, t.vars["timer.t1"]?))
        = some (.cancelled, none)
      ∧ (checkpointOf (cancelled ++ [fire])).map
          (fun t => (t.status, t.vars["timer.t1"]?)) = some (.cancelled, some (.bool true)) := by
    decide +kernel
  refine ⟨hruns.1, hruns.2, ?_⟩
  intro h
  have hvars := hruns.2
  rw [h, hruns.1] at hvars
  cases hvars

theorem refused_delivery_unchanged_fired
    : checkpointOf (cancelled ++ [fire] ++ [fire])
        = checkpointOf (cancelled ++ [fire]) := by
  have hfired : (checkpointOf (cancelled ++ [fire])).map
      (fun t => (t.status, t.vars["timer.t1"]?)) = some (.cancelled, some (.bool true)) := by
    decide +kernel
  obtain ⟨t, ht, hvalues⟩ := Option.map_eq_some_iff.mp hfired
  obtain ⟨hstatus, hvar⟩ := Prod.mk.inj hvalues
  have hexact := refused_delivery_unchanged engine () (cancelled ++ [fire])
    fire "timer.t1" (.bool true) rfl t ht (.inr (.inr (.inr hstatus)))
  exact hexact.mpr (.inr hvar)

end Wovyr.Workflow
