import Wovyr.Workflow.WriteAhead

/-!
This module contains the order in which activities complete and the order in which they are rolled back.
-/

namespace Wovyr

open Durable List

namespace Workflow

/--
The order of completion lists what has completed on the way forward, each activity once and after those
with a transition to it.
-/
structure Ordered (d : Definition) (s : ExecutionState) : Prop where
  nodup : s.completedOrder.Nodup
  completed : ∀ id, id ∈ s.completedOrder ↔ (∃ a ∈ d.spec.activities, a.id = id)
    ∧ id ∉ d.compensationTargets ∧ ∃ record, s.activity? id = some record ∧ record.state = .completed
  linear : ∀ t ∈ d.spec.transitions, t.source ∈ s.completedOrder → t.target ∈ s.completedOrder →
    s.completedOrder.idxOf t.source < s.completedOrder.idxOf t.target

namespace Ordered

variable {ω : Type} {e : Engine ω} {d : Definition} {s t : ExecutionState} {l l' : Layer}

structure Settled (d : Definition) (s : ExecutionState) : Prop extends Ordered d s where
  decided : ∀ id ∈ s.completedOrder, Decided d s id

theorem Settled.setRecord (h : Settled d s) {id : String} {r' : ActivityRecord}
    (hsame : id ∈ d.spec.activities.map (·.id) → id ∉ d.compensationTargets →
      ∀ r, s.activity? id = some r → r.state ≠ .completed)
    (hrecord : id ∈ d.spec.activities.map (·.id) → id ∉ d.compensationTargets → r'.state ≠ .completed)
    (hdecided : ∀ id' ∈ s.completedOrder, Decided d (s.setRecord id r') id')
    : Settled d (s.setRecord id r') where
  nodup := h.nodup
  linear := h.linear
  decided := hdecided
  completed id' := by
    refine (h.completed id').trans (and_congr_right fun hdeclared => and_congr_right fun hforward => ?_)
    rw [ExecutionState.activity?_setRecord]
    split
    next heq =>
      have hmem : id ∈ d.spec.activities.map (·.id) := by
        rw [heq]
        simpa using hdeclared
      subst heq
      constructor
      . rintro ⟨record, hr, hstate⟩
        exact absurd hstate (hsame hmem hforward record hr)
      . rintro ⟨record, hr, hstate⟩
        cases hr
        exact absurd hstate (hrecord hmem hforward)
    next => rfl

theorem Settled.complete (h : Settled d s) (hsane : d.Sane) {a : ActivityDef} (hrun : Runnable d s a)
    {r : ActivityRecord} {output : Value} (hmove : Move e d s l l' (s.complete a.id r output))
    : Settled d (s.complete a.id r output) := by
  obtain ⟨record, hrecord, hpending⟩ := hrun.pending
  have hdeclared := Definition.activity_mem hrun.declared
  have hsource : ∀ x, Decided d s x → ∀ t ∈ d.spec.transitions, t.target = x → t.source ≠ a.id := by
    rintro x hx t ht rfl heq
    obtain ⟨record', hrecord', hsettled⟩ := hx t (mem_filter.mpr ⟨ht, by simp⟩)
    rw [heq, hrecord] at hrecord'
    cases hrecord'
    rw [hpending] at hsettled
    cases hsettled
  have hnew : a.id ∉ s.completedOrder := by
    intro hmem
    obtain ⟨-, -, record', hrecord', hstate⟩ := (h.completed a.id).mp hmem
    rw [hrecord] at hrecord'
    cases hrecord'
    rw [hstate] at hpending
    cases hpending
  refine ⟨⟨?_, ?_, ?_⟩, ?_⟩
  . apply nodup_append.mpr
    refine ⟨h.nodup, nodup_singleton _, ?_⟩
    rintro x hx y hy rfl
    exact hnew (mem_singleton.mp hy ▸ hx)
  . intro id
    show id ∈ s.completedOrder ++ [a.id] ↔ _
    rw [mem_append, mem_singleton, h.completed id, ExecutionState.activity?_complete]
    by_cases heq : a.id = id
    . subst heq
      simp only [or_true, if_true, true_iff]
      exact ⟨⟨a, hdeclared, rfl⟩, hrun.forward, _, rfl, rfl⟩
    . rw [if_neg heq]
      simp [Ne.symm heq]
  . intro t ht hs ht'
    have horder : (s.complete a.id r output).completedOrder = s.completedOrder ++ [a.id] := rfl
    rw [horder] at hs ht' ⊢
    have hsourceMem : t.source ∈ s.completedOrder := by
      have hdecided : Decided d s t.target := by
        cases mem_append.mp ht' with
        | inl hold => exact h.decided _ hold
        | inr hlast =>
          rw [mem_singleton.mp hlast]
          exact hrun.decided
      cases mem_append.mp hs with
      | inl hold => exact hold
      | inr hlast => exact absurd (mem_singleton.mp hlast) (hsource _ hdecided t ht rfl)
    rw [idxOf_append_of_mem hsourceMem]
    cases mem_append.mp ht' with
    | inl hold =>
      rw [idxOf_append_of_mem hold]
      exact h.linear t ht hsourceMem hold
    | inr hlast =>
      rw [mem_singleton.mp hlast, idxOf_append_of_notMem hnew]
      exact Nat.lt_of_lt_of_le (idxOf_lt_length_iff.mpr hsourceMem) (Nat.le_add_right _ _)
  . intro id hid
    apply Decided.move hsane _ hmove
    cases mem_append.mp hid with
    | inl hold => exact h.decided id hold
    | inr hlast =>
      rw [mem_singleton.mp hlast]
      exact hrun.decided

theorem Settled.move (hsane : d.Sane) (h : Settled d s) (hmove : Move e d s l l' t) : Settled d t := by
  have hdecided : ∀ id ∈ s.completedOrder, Decided d t id :=
    fun id hid => (h.decided id hid).move hsane hmove
  have hopen {id : String} {r : ActivityRecord} (hchange : Changeable s id r)
      : ∀ r', s.activity? id = some r' → r'.state ≠ .completed := by
    intro r' hr'
    cases hchange.1.symm.trans hr'
    intro hcompleted
    exact hchange.ne_of_finished hchange.1 (.inl hcompleted) rfl
  have hplain (id : String) (index : Nat) : instanceId id index ∉ d.spec.activities.map (·.id) := by
    intro hmem
    obtain ⟨a, ha, heq⟩ := mem_map.mp hmem
    exact instanceId_ne_plain (hsane.plain a ha) heq.symm
  cases hmove with
  | run hchange => exact h.setRecord (fun _ _ => hopen hchange) (by simp) hdecided
  | @settle _ id r r' hchange hl hr' =>
    refine h.setRecord (fun _ _ => hopen hchange) (fun _ _ => ?_) hdecided
    cases hstate : r'.state <;> simp [hstate, ActivityState.isIdle] at hr' ⊢
  | fail msg hchange hl hr' =>
    refine h.setRecord (fun _ _ => hopen hchange) (fun _ _ => ?_) hdecided
    rw [hr']
    simp
  | complete r hrun hl hsource => exact h.complete hsane hrun (.complete r hrun hl hsource)
  | completeItem attempts hchange hanswer =>
    exact h.setRecord (fun _ _ => hopen hchange) (fun hmem _ => absurd hmem (hplain _ _)) hdecided
  | expand id index hnone =>
    exact h.setRecord (fun hmem _ => absurd hmem (hplain _ _)) (fun _ _ => by simp) hdecided

theorem Settled.undo (h : Settled d s) {id : String} (hid : id ∈ d.compensationTargets) {r : ActivityRecord}
    (hr : r.state = .completed) : Settled d (s.setRecord id r) := by
  refine h.setRecord (fun _ hforward => absurd hid hforward) (fun _ hforward => absurd hid hforward) ?_
  intro id' hid' t ht
  rw [ExecutionState.activity?_setRecord]
  split
  . exact ⟨r, rfl, by rw [hr]; rfl⟩
  . exact h.decided id' hid' t ht

theorem Settled.initial (d : Definition) (id : String) (input : Value) (version : Nat)
    : Settled d { Engine.initialState d id input with status := .running, version } := by
  have hcreated := Resumable.created_of_initial d id input
  refine ⟨⟨nodup_nil, ?_, nofun⟩, nofun⟩
  intro id'
  refine ⟨nofun, ?_⟩
  rintro ⟨-, -, record, hrecord, hstate⟩
  rw [hcreated id' record hrecord] at hstate
  cases hstate

theorem Settled.cancel (h : Settled d s) (version : Nat) : Settled d { s.cancelled with version } := by
  have hrecord (id : String) : { s.cancelled with version }.activity? id
      = (s.activity? id).map Engine.skipOpen := by
    unfold ExecutionState.activity? ExecutionState.cancelled ExecutionState.closed
    exact Std.ExtTreeMap.getElem?_map
  refine ⟨⟨h.nodup, ?_, h.linear⟩, ?_⟩
  . intro id
    refine (h.completed id).trans (and_congr_right fun _ => and_congr_right fun _ => ?_)
    rw [hrecord]
    constructor
    . rintro ⟨record, hr, hstate⟩
      refine ⟨record, ?_, hstate⟩
      rw [hr]
      simp [Engine.skipOpen, hstate]
    . rintro ⟨record, hr, hstate⟩
      obtain ⟨record', hr', rfl⟩ := Option.map_eq_some_iff.mp hr
      have hsame : Engine.skipOpen record' = record' := Justified.skipOpen_open (by simp [hstate])
      exact ⟨record', hr', hsame ▸ hstate⟩
  . intro id hid t ht
    obtain ⟨record, hr, -⟩ := h.decided id hid t ht
    exact ⟨Engine.skipOpen record, by rw [hrecord, hr]; rfl, Resumable.skipOpen_settled record⟩

section

variable {definitions : String → Definition → Prop} {as : List (Act ω)}

def account (hfamily : Family e definitions as)
    (hunique : ∀ k d d', definitions k d → definitions k d' → d = d') : Account e where
  heir d k := definitions k d
  takes _ _ := True
  stored _ s := ∃ d, definitions (e.backend.key s.executionId) d ∧ Settled d s
  live _ _ _ d s := Settled d s
  may _ _ := True
  child := Resumable.child_of_family hfamily
  begins _ d id input version _ _ _ := .initial d id input version
  loads _ d s hd _ hs _ := by
    obtain ⟨d', hd', hsettled⟩ := hs
    rw [hunique _ d d' hd hd']
    exact hsettled
  stores _ _ d _ hd h := ⟨⟨d, hd, h⟩, h⟩
  dress _ _ _ _ _ _ _ h _ := ⟨⟨h.nodup, h.completed, h.linear⟩, h.decided⟩
  move _ _ _ _ _ _ _ _ hsane _ h hmove := h.move hsane hmove
  note _ _ _ _ _ _ h _ _ := h
  pay _ _ _ _ _ h := h
  grows _ _ _ h _ := h
  paid _ _ _ _ _ _ _ hq := hq
  turn _ _ _ _ _ _ h _ := ⟨⟨h.nodup, h.completed, h.linear⟩, h.decided⟩
  undo _ _ _ _ _ id r attempts output h _ _ hid _ _ := by
    have hundone := h.undo hid (r := { r with state := .completed, attempts, output := some output }) rfl
    exact ⟨⟨hundone.nodup, hundone.completed, hundone.linear⟩, hundone.decided⟩
  calls _ _ _ _ _ _ _ _ _ := trivial

theorem fits (hfamily : Family e definitions as)
    (hunique : ∀ k d d', definitions k d → definitions k d' → d = d') {a : Act ω} (ha : a ∈ as)
    : (account hfamily hunique).Fits a where
  sane := Definition.sane_of_validate (hfamily.validates.1 a ha)
  heir := hfamily.roots a ha
  input _ _ := trivial
  delivery _ _ _ _ _ _ h := by
    obtain ⟨d, hd, hsettled⟩ := h
    exact ⟨d, hd, ⟨hsettled.nodup, hsettled.completed, hsettled.linear⟩, hsettled.decided⟩
  cancel _ _ _ version h _ := by
    obtain ⟨d, hd, hsettled⟩ := h
    exact ⟨d, hd, hsettled.cancel version⟩

end

end Ordered

open Ordered

def Tried (executionId handler : String) (calls : List Call) : Prop :=
  ∀ call ∈ calls, call.executionId = executionId ∧ call.rollback = true ∧ call.context.id = handler
    ∧ ∀ output, call.reply ≠ .output output

def Undoes (executionId handler : String) (call : Call) : Prop :=
  call.executionId = executionId ∧ call.rollback = true ∧ call.context.id = handler
    ∧ ∃ output, call.reply = .output output

def Succeeded (executionId handler : String) (calls : List Call) : Prop :=
  ∃ failed call, calls = failed ++ [call] ∧ Tried executionId handler failed
    ∧ Undoes executionId handler call

inductive RollsBack (executionId : String) : List (String × String) → List Call → Prop where
  | stop (plan : List (String × String)) : RollsBack executionId plan []
  | tried {x : String × String} (plan : List (String × String)) {calls : List Call}
    (h : Tried executionId x.2 calls) : RollsBack executionId (x :: plan) calls
  | next {x : String × String} {plan : List (String × String)} {calls rest : List Call}
    (h : Succeeded executionId x.2 calls) (hrest : RollsBack executionId plan rest)
    : RollsBack executionId (x :: plan) (calls ++ rest)

def undone (calls : List Call) : List String :=
  calls.filterMap fun call =>
    match call.reply with
    | .output _ => some call.context.id
    | _ => none

namespace RollsBack

open Calls

variable {ω α : Type} {e : Engine ω} {d : Definition} {s : ExecutionState}

theorem undone_tried {executionId handler : String} {calls : List Call}
    (h : Tried executionId handler calls) : undone calls = [] := by
  unfold undone
  rw [filterMap_eq_nil_iff]
  intro call hcall
  obtain ⟨-, -, -, hreply⟩ := h call hcall
  cases hr : call.reply with
  | output output => exact absurd hr (hreply output)
  | _ => rfl

theorem undone_next {executionId handler : String} {calls : List Call}
    (h : Succeeded executionId handler calls) (rest : List Call)
    : undone (calls ++ rest) = handler :: undone rest := by
  obtain ⟨failed, call, rfl, htried, -, -, hid, output, hreply⟩ := h
  have hfailed := undone_tried htried
  unfold undone at hfailed ⊢
  rw [filterMap_append, filterMap_append, hfailed]
  simp [hreply, hid]

def Handled (executionId handler : String) (o : Outcome Error (ExecutionState × Except String Unit))
    (calls : List Call) : Prop :=
  (Tried executionId handler calls ∨ Succeeded executionId handler calls)
    ∧ ∀ t r, o = .ok (t, r) → t.executionId = executionId
      ∧ (r = .ok () → Succeeded executionId handler calls)
      ∧ ∀ err, r = .error err → Tried executionId handler calls

theorem Handled.cons {executionId handler : String}
    {o : Outcome Error (ExecutionState × Except String Unit)} {calls : List Call} {call : Call}
    (h : Handled executionId handler o calls) (hcall : Tried executionId handler [call])
    : Handled executionId handler o (call :: calls) := by
  have htried (calls : List Call) (h : Tried executionId handler calls)
      : Tried executionId handler (call :: calls) := by
    intro c hc
    cases mem_cons.mp hc with
    | inl heq => exact hcall c (mem_singleton.mpr heq)
    | inr hc => exact h c hc
  have hsucceeded (h : Succeeded executionId handler calls)
      : Succeeded executionId handler (call :: calls) := by
    obtain ⟨failed, last, rfl, hfailed, hlast⟩ := h
    exact ⟨call :: failed, last, rfl, htried failed hfailed, hlast⟩
  refine ⟨h.1.imp (htried calls) hsucceeded, ?_⟩
  intro t r ho
  obtain ⟨hid, hok, herr⟩ := h.2 t r ho
  exact ⟨hid, fun hr => hsucceeded (hok hr), fun err hr => htried calls (herr err hr)⟩

theorem runCompensation_logs (a : ActivityDef) (policy : RetryPolicy) (gas attempts : Nat)
    : World.durable.Logs (e.runCompensation a policy gas attempts s) (Handled s.executionId a.id) := by
  induction gas generalizing attempts with
  | zero => exact .halt ⟨.inl nofun, nofun⟩
  | succ gas ih =>
    unfold Engine.runCompensation
    apply Logs.bind (callExecutor_logs s.executionId true _)
      (P := fun reaction o new => Handled s.executionId a.id o
        (⟨s.executionId, true, a.context s.vars (attempts + 1), reaction.2⟩ :: new))
    . rintro ⟨progress, reply⟩
      have htried (h : ∀ output, reply ≠ .output output) : Tried s.executionId a.id
          [⟨s.executionId, true, a.context s.vars (attempts + 1), reply⟩] := by
        intro call hcall
        rw [mem_singleton.mp hcall]
        exact ⟨rfl, rfl, rfl, h⟩
      dsimp only
      split
      . exact .halt ⟨.inl (htried nofun), nofun⟩
      next output =>
        have hsucceeded : Succeeded s.executionId a.id
            [⟨s.executionId, true, a.context s.vars (attempts + 1), .output output⟩] :=
          ⟨[], _, rfl, nofun, rfl, rfl, rfl, output, rfl⟩
        apply Logs.after (p := fun _ => True)
        . exact .ofOption _ (fun _ _ => ⟨rfl, fun _ _ => trivial⟩) ⟨rfl, nofun⟩
        . intro record _
          apply Logs.pure
          refine ⟨.inr hsucceeded, ?_⟩
          intro t r ho
          cases ho
          exact ⟨rfl, fun _ => hsucceeded, nofun⟩
        . exact fun _ => ⟨.inr hsucceeded, nofun⟩
        . exact ⟨.inr hsucceeded, nofun⟩
      next msg =>
        split
        . exact Logs.post (ih _) fun _ _ h => h.cons (htried nofun)
        . apply Logs.pure
          refine ⟨.inl (htried nofun), ?_⟩
          intro t r ho
          cases ho
          exact ⟨rfl, nofun, fun _ _ => htried nofun⟩
      . apply Logs.pure
        refine ⟨.inl (htried nofun), ?_⟩
        intro t r ho
        cases ho
        exact ⟨rfl, nofun, fun _ _ => htried nofun⟩
    . rintro reaction new o new' ⟨reaction', hreaction, rfl⟩ h
      cases hreaction
      exact h
    . rintro err new ⟨reaction, hreaction, -⟩
      cases hreaction
    . rintro new ⟨reaction, hreaction, -⟩
      cases hreaction

theorem of_handled {executionId : String} {x : String × String} {calls : List Call}
    (h : Tried executionId x.2 calls ∨ Succeeded executionId x.2 calls) (plan : List (String × String))
    : RollsBack executionId (x :: plan) calls := by
  cases h with
  | inl htried => exact .tried plan htried
  | inr hsucceeded =>
    rw [← append_nil calls]
    exact .next hsucceeded (.stop plan)

structure Reverses {α : Type} (executionId : String) (plan : List (String × String))
    (outcome : α → RunOutcome) (o : Outcome Error α) (calls : List Call) : Prop where
  order : RollsBack executionId plan calls
  all : ∀ r msg, o = .ok r → outcome r = .compensated msg → undone calls = plan.map Prod.snd

theorem Reverses.unfinished {executionId : String} {plan : List (String × String)}
    {outcome : α → RunOutcome} {o : Outcome Error α} {calls : List Call}
    (h : RollsBack executionId plan calls) (ho : ∀ r, o ≠ .ok r) : Reverses executionId plan outcome o calls :=
  ⟨h, fun r _ hr => absurd hr (ho r)⟩

theorem rollback_logs (gas : Nat) (error : String) (plan : List (String × String))
    : World.durable.Logs (e.rollback d gas error plan s) (Reverses s.executionId plan Prod.snd) := by
  induction plan generalizing s with
  | nil =>
    unfold Engine.rollback
    apply Logs.after (transition_logs _ _)
    . rintro t rfl
      apply Logs.after checkpoint_logs
      . exact fun _ _ => .pure _ ⟨.stop _, fun _ _ _ _ => rfl⟩
      . exact fun _ => .unfinished (.stop _) (by simp)
      . exact .unfinished (.stop _) (by simp)
    . exact fun _ => .unfinished (.stop _) (by simp)
    . exact .unfinished (.stop _) (by simp)
  | cons x plan ih =>
    unfold Engine.rollback
    apply Logs.after (p := fun a => a.id = x.2)
    . exact .ofOption _ (fun a ha => ⟨rfl, fun a' heq => by cases heq; exact Definition.activity_id ha⟩)
        ⟨rfl, by simp⟩
    . intro a ha
      apply Logs.bind (runCompensation_logs a _ gas 0) (P := fun r o new =>
        (r.2 = .ok () → Reverses r.1.executionId plan Prod.snd o new)
          ∧ ∀ err, r.2 = .error err → new = [] ∧ ∀ t msg, o ≠ .ok (t, .compensated msg))
      . rintro ⟨t, result⟩
        cases result with
        | ok =>
          refine Logs.post (Q := Reverses t.executionId plan Prod.snd) ?_ fun _ _ h => ⟨fun _ => h, by simp⟩
          apply Logs.after (emit_logs _)
          . rintro u rfl
            exact .after checkpoint_logs (fun _ _ => ih) (fun _ => .unfinished (.stop _) (by simp))
              (.unfinished (.stop _) (by simp))
          . exact fun _ => .unfinished (.stop _) (by simp)
          . exact .unfinished (.stop _) (by simp)
        | error err =>
          refine Logs.post (Q := fun o new => new = [] ∧ ∀ t msg, o ≠ .ok (t, .compensated msg))
            ?_ fun _ _ h => ⟨by simp, fun _ _ => h⟩
          apply Logs.after (emit_logs _)
          . rintro u rfl
            apply Logs.after checkpoint_logs
            . exact fun _ _ => .pure _ ⟨rfl, by simp⟩
            . exact fun _ => ⟨rfl, by simp⟩
            . exact ⟨rfl, by simp⟩
          . exact fun _ => ⟨rfl, by simp⟩
          . exact ⟨rfl, by simp⟩
      . rintro ⟨t, result⟩ new o new' ⟨-, hhandled⟩ ⟨hok, herr⟩
        obtain ⟨hid, hsucceeded, htried⟩ := hhandled t result rfl
        rw [ha] at hsucceeded htried
        cases result with
        | ok =>
          have hrest := hok rfl
          rw [hid] at hrest
          refine ⟨.next (hsucceeded rfl) hrest.order, ?_⟩
          intro r msg ho hmsg
          rw [undone_next (hsucceeded rfl), hrest.all r msg ho hmsg, map_cons]
        | error err =>
          obtain ⟨rfl, hother⟩ := herr err rfl
          rw [append_nil]
          refine ⟨.tried plan (htried err rfl), ?_⟩
          rintro ⟨u, outcome⟩ msg ho rfl
          exact absurd ho (hother u msg)
      . rintro err new ⟨hnew, -⟩
        rw [ha] at hnew
        exact .unfinished (of_handled hnew plan) (by simp)
      . rintro new ⟨hnew, -⟩
        rw [ha] at hnew
        exact .unfinished (of_handled hnew plan) (by simp)
    . exact fun _ => .unfinished (.stop _) (by simp)
    . exact .unfinished (.stop _) (by simp)

theorem markFailed_logs (error : String)
    : World.durable.Logs (e.markFailed s error) fun o new =>
        new = [] ∧ ∀ t, o = .ok t → t.executionId = s.executionId ∧ t.completedOrder = s.completedOrder := by
  unfold Engine.markFailed
  split
  . apply Logs.after (transition_logs _ _)
    . rintro t rfl
      apply Logs.after checkpoint_logs
      . intro _ _
        apply Logs.pure
        refine ⟨rfl, ?_⟩
        intro t ht
        cases ht
        exact ⟨rfl, rfl⟩
      . exact fun _ => ⟨rfl, nofun⟩
      . exact ⟨rfl, nofun⟩
    . exact fun _ => ⟨rfl, nofun⟩
    . exact ⟨rfl, nofun⟩
  . apply Logs.pure
    refine ⟨rfl, ?_⟩
    intro t ht
    cases ht
    exact ⟨rfl, rfl⟩

theorem compensate_logs (gas : Nat) (error : String)
    : World.durable.Logs (e.compensate d gas s error)
        (Reverses s.executionId (Engine.rollbackPlan d s) Prod.fst) := by
  unfold Engine.compensate
  apply Logs.after (markFailed_logs error)
  . rintro t ⟨hid, horder⟩
    have hplan : Engine.rollbackPlan d t = Engine.rollbackPlan d s := by
      unfold Engine.rollbackPlan
      rw [horder]
    rw [hplan, ← hid]
    split
    . refine .pure _ ⟨.stop _, ?_⟩
      intro r msg hr hmsg
      cases hr
      cases hmsg
    . apply Logs.after (transition_logs _ _)
      . rintro u rfl
        apply Logs.after checkpoint_logs
        . intro _ _
          apply Logs.bind (rollback_logs gas error _)
            (P := fun r o new => new = [] ∧ o = .ok (r.2, r.1))
          . exact fun r => .pure _ ⟨rfl, rfl⟩
          . rintro ⟨v, outcome⟩ new o new' h ⟨rfl, rfl⟩
            rw [append_nil]
            refine ⟨h.order, ?_⟩
            intro r msg hr hmsg
            cases hr
            exact h.all _ msg rfl hmsg
          . exact fun err new h => .unfinished h.order nofun
          . exact fun new h => .unfinished h.order nofun
        . exact fun _ => .unfinished (.stop _) nofun
        . exact .unfinished (.stop _) nofun
      . exact fun _ => .unfinished (.stop _) nofun
      . exact .unfinished (.stop _) nofun
  . exact fun _ => .unfinished (.stop _) nofun
  . exact .unfinished (.stop _) nofun

end RollsBack

/--
Whatever is done for executions of which each has a definition, each time by a process that stops before
any of its writes: in every checkpoint the order of completion lists what has completed on the way
forward, after what leads to it. And whenever an execution is rolled back, the handlers of the activities
it lists are called in the reverse order until one of them fails or the process stops.
-/
theorem ordered_of_acts {ω : Type} (e : Engine ω) (x : ω) (as : List (Act ω))
    (definitions : String → Definition → Prop) (hfamily : Family e definitions as)
    (hunique : ∀ k d d', definitions k d → definitions k d' → d = d')
    : (∀ k s, (e.acts x as).checkpoints[k]? = some s → ∃ d, definitions k d ∧ Ordered d s)
        ∧ ∀ d gas s error w, ∃ calls, (e.compensate d gas s error w).2.calls = w.calls ++ calls
          ∧ RollsBack.Reverses s.executionId (Engine.rollbackPlan d s) Prod.fst
            (e.compensate d gas s error w).1 calls := by
  refine ⟨?_, fun d gas s error w => RollsBack.compensate_logs gas error w⟩
  intro k s hs
  have hstored := Account.stored_acts (A := account hfamily hunique) x
    (fun a ha => fits hfamily hunique ha) k s hs
  obtain ⟨d, hd, hsettled⟩ := hstored.2
  exact ⟨d, hstored.1 ▸ hd, hsettled.toOrdered⟩

theorem ordered_of_acts_shipment
    : (∀ (k : String) (s : ExecutionState), (Saga.carrier.acts () [Saga.act (.start .null) 5,
          Saga.act .resume 99]).checkpoints[k]? = some s → ∃ d, d = Saga.shipment ∧ Ordered d s)
        ∧ ∀ d gas s error w, ∃ calls,
          (Saga.carrier.compensate d gas s error w).2.calls = w.calls ++ calls
            ∧ RollsBack.Reverses s.executionId (Engine.rollbackPlan d s) Prod.fst
              (Saga.carrier.compensate d gas s error w).1 calls := by
  have hvalid : Saga.shipment.validate Saga.carrier.platform = .ok () := by decide
  apply ordered_of_acts Saga.carrier () _ (fun _ d => d = Saga.shipment)
  . exact .alone rfl hvalid (by simp [Saga.act])
  . exact fun _ _ _ h h' => h.trans h'.symm

namespace Ordered

def trip : Definition where
  metadata := { name := "trip" }
  spec := {
    activities := [
      { id := "flight", activityType := "function", compensate := some "refund-flight" },
      { id := "hotel", activityType := "function", compensate := some "refund-hotel" },
      { id := "car", activityType := "function", compensate := some "refund-car" },
      { id := "pay", activityType := "function" },
      { id := "refund-flight", activityType := "function" },
      { id := "refund-hotel", activityType := "function" },
      { id := "refund-car", activityType := "function" }]
    transitions := [
      { source := "flight", target := "hotel" }, { source := "hotel", target := "car" },
      { source := "car", target := "pay" }, { source := "flight", target := "refund-car" }] }

def agency : Engine Unit :=
  { Saga.carrier with
    execute := fun _ ctx =>
      { executor := ()
        progress := []
        reply :=
          if ctx.id = "pay" ∨ ctx.id = "refund-hotel" then .error (.permanent "declined")
          else .output .null } }

def booking (operation : Operation) : Act Unit :=
  { Saga.act operation 99 with definition := trip }

end Ordered

theorem handler_not_ordered
    : trip.validate agency.platform = .ok ()
        ∧ ∃ s, (agency.acts () [booking (.run .null)]).latest agency "order-1" = some s
          ∧ (∃ t ∈ trip.spec.transitions,
            (s.activity? t.source).map (·.state) = some .completed
              ∧ (s.activity? t.target).map (·.state) = some .completed ∧ t.target ∉ s.completedOrder)
          ∧ ((agency.acts () [booking (.run .null)]).calls.filter (·.rollback)).map
              (·.context.id) = ["refund-car", "refund-hotel"]
          ∧ (Engine.rollbackPlan trip s).map Prod.snd
            = ["refund-car", "refund-hotel", "refund-flight"] := by
  have hsome : ((agency.acts () [booking (.run .null)]).latest agency "order-1").map
      (fun s => ((s.activity? "flight").map (·.state), (s.activity? "refund-car").map (·.state),
        s.completedOrder)) = some (some .completed, some .completed, ["flight", "hotel", "car"]) := by
    decide +kernel
  obtain ⟨s, hs, heq⟩ := Option.map_eq_some_iff.mp hsome
  simp only [Prod.mk.injEq] at heq
  obtain ⟨hflight, hrefund, horder⟩ := heq
  refine ⟨by decide +kernel, s, hs, ?_, by decide +kernel, ?_⟩
  . refine ⟨{ source := "flight", target := "refund-car" }, ?_, hflight, hrefund, ?_⟩
    . simp [trip]
    . rw [horder]
      decide
  . unfold Engine.rollbackPlan
    rw [horder]
    decide

end Wovyr.Workflow
