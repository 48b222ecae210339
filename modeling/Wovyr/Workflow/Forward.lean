import Wovyr.Lib.Run
import Wovyr.Workflow.Contract

/-!
This module contains the proof that the forward part of an execution, skipped branches, single
activities, fan-outs and batches, keeps every contract.
-/

namespace Wovyr.Workflow.Contract

open Keeping Keeps Engine List

variable {ω : Type} {e : Engine ω} {K : Contract e} {d : Definition} {s : ExecutionState}

theorem saved_keeps {α : Type} (a : α)
    : K.Keeps (K.Good d s) (do e.checkpoint s; return (s, a)) (K.Yields d) := by
  apply Keeps.bind checkpoint_keeps
  intro _
  exact Keeps.pure _ fun _ _ h => h

theorem applySkips_keeps (n : Nat)
    : K.Keeps (K.Good d s) (e.applySkips d n s) (fun t => K.Good d t) := by
  induction n generalizing s with
  | zero => exact Keeps.pure _ fun _ _ h => h
  | succ n ih =>
    unfold applySkips
    apply Keeps.bind (ofOption _ fun _ _ _ _ h => h)
    intro found
    cases found with
    | none => exact Keeps.pure _ fun _ _ h => h
    | some id =>
      apply Keeps.bind
      . exact pre (fun w hinv h => good_setActivity hinv h (by decide)) (emit_keeps _)
      . intro t
        exact Keeps.bind checkpoint_keeps fun _ => ih

theorem terminalActivityFailure_keeps (id : String) (attempt : Nat) (msg : String)
    : K.Keeps (K.Good d s) (e.terminalActivityFailure s id attempt msg) (K.Yields d) := by
  unfold terminalActivityFailure
  apply recordOf_keeps id
  intro record hrecord
  apply Keeps.bind
  . exact pre (fun w hinv h => good_setRecord hinv h hrecord (by simp)) (emit_keeps _)
  . exact fun t => saved_keeps _

theorem failOnce_keeps (id msg : String)
    : K.Keeps (K.Good d s) (e.failOnce s id msg) (K.Yields d) := by
  unfold failOnce
  apply recordOf_keeps id
  intro record hrecord
  exact terminalActivityFailure_keeps id _ msg

theorem completeActivity_keeps {a : ActivityDef} (ha : d.activity a.id = some a)
    {found : ActivityRecord} (hfound : s.activity? a.id = some found) (record : ActivityRecord) (v : Value)
    : K.Keeps (fun w => K.Good d s w ∧ Earned e.platform w d s.executionId a.id v)
        (e.completeActivity s a.id record v) (K.Yields d) := by
  unfold completeActivity
  apply Keeps.bind
  . exact pre (fun w hinv h => good_complete hinv h.1 ha hfound h.2) (emit_keeps _)
  . exact fun t => saved_keeps _

theorem completeActivity_native {a : ActivityDef} (ha : d.activity a.id = some a)
    (hnative : Native a.activityType) {found : ActivityRecord} (hfound : s.activity? a.id = some found)
    (record : ActivityRecord) (v : Value)
    : K.Keeps (K.Good d s) (e.completeActivity s a.id record v) (K.Yields d) :=
  pre (fun _ _ h => ⟨h, .inr ⟨a, ha, hnative⟩⟩) (completeActivity_keeps ha hfound record v)

theorem suspend_keeps {α : Type} (id : String) (a : α)
    : K.Keeps (K.Good d s)
        (do e.checkpoint (s.setActivity id .ready); return (s.setActivity id .ready, a))
        (K.Yields d) :=
  pre (fun w hinv h => good_setActivity hinv h (by decide)) (saved_keeps a)

theorem runAttempts_keeps {a : ActivityDef} (ha : d.activity a.id = some a) (policy : RetryPolicy)
    (gas : Nat) : K.Keeps (K.Good d s) (e.runAttempts a policy gas s) (K.Yields d) := by
  induction gas generalizing s with
  | zero => exact halt
  | succ gas ih =>
    unfold runAttempts
    apply recordOf_keeps a.id
    intro record hrecord
    apply Keeps.bind
    . exact pre (fun w hinv h => good_setActivity hinv h (by decide)) (emit_keeps _)
    intro t
    apply Keeps.bind (callExecutor_keeps false (.declared ha _))
    rintro ⟨progress, reply⟩
    -- The progress events do not change whose execution this is.
    apply Keeps.bind
      (Q := fun u w => (K.pin t.executionId).Good d u w
        ∧ ∀ v, reply = .output v → Answered w t.executionId a v)
    . refine pre ?_ (frame (stable_reply _ _ _) (emitAll_keeps (K := K.pin t.executionId) _))
      exact fun _ _ h => ⟨⟨h.1, rfl⟩, h.2⟩
    intro u
    apply recordOf_keeps a.id
    intro record' hrecord'
    cases reply with
    | panic reason => exact halt
    | output output =>
      dsimp only
      split
      . exact pre (fun _ _ h => h.1.1) (terminalActivityFailure_keeps _ _ _)
      . apply pre _ (completeActivity_keeps ha hrecord' _ _)
        intro w hinv h
        refine ⟨h.1.1, .inl ⟨a, .declared ha, rfl, ?_⟩⟩
        rw [h.1.2]
        exact h.2 output rfl
    | error err =>
      apply pre fun _ _ h => h.1.1
      cases err with
      | interrupted msg => exact suspend_keeps _ _
      | permanent msg => exact terminalActivityFailure_keeps _ _ _
      | retryable msg =>
        dsimp only
        split
        . exact terminalActivityFailure_keeps _ _ _
        . apply Keeps.bind
          . exact pre (fun w hinv h => good_setRecord hinv h hrecord' (by simp)) (emit_keeps _)
          . intro v
            exact Keeps.bind checkpoint_keeps fun _ => ih

theorem registerTimer_keeps (a : ActivityDef) (spec : WaitSpec)
    : K.Keeps (K.Good d s) (e.registerTimer s a spec) (fun t => K.Good d t) := by
  unfold registerTimer
  split
  . split
    . exact Keeps.pure _ fun _ _ h => h
    . split
      . apply Keeps.bind (reads _)
        intro now
        apply Keeps.bind (persist_keeps stable_good fun w hinv h => K.tick w _ _ _ hinv)
        intro _
        exact pre (fun w hinv h => K.edit w d s _ hinv h (.mark _ _)) (emit_keeps _)
      . exact fail _
  . exact Keeps.pure _ fun _ _ h => h

theorem clearTimer_keeps (spec : WaitSpec)
    : K.Keeps (K.Good d s) (e.clearTimer s spec) (fun t => K.Good d t) := by
  unfold clearTimer
  split
  . split
    . apply Keeps.bind (persist_keeps stable_good fun w hinv h => K.tick w _ _ _ hinv)
      intro _
      exact Keeps.pure _ fun w hinv h => K.edit w d s _ hinv h (.unmark _)
    . exact Keeps.pure _ fun w hinv h => K.edit w d s _ hinv h (.unmark _)
  . exact Keeps.pure _ fun _ _ h => h

theorem runWait_keeps {a : ActivityDef} (ha : d.activity a.id = some a) (htype : a.activityType = "wait")
    : K.Keeps (K.Good d s) (e.runWait s a) (K.Yields d) := by
  unfold runWait
  apply Keeps.bind (Keeps.ofExcept _ fun _ _ _ _ h => h)
  intro spec
  split
  . apply recordOf_keeps a.id
    intro record hrecord
    apply Keeps.bind
    . refine pre ?_ (clearTimer_keeps (d := d) spec)
      intro w hinv h
      exact good_complete hinv h ha hrecord (.inr ⟨a, ha, .inl htype⟩)
    intro t
    exact Keeps.bind (emit_keeps _) fun _ => saved_keeps _
  . apply Keeps.bind (registerTimer_keeps a spec)
    intro t
    apply Keeps.bind
    . exact pre (fun w hinv h => good_setActivity hinv h (by decide)) (emit_keeps _)
    . exact fun _ => saved_keeps _

theorem completeForEach_keeps {a : ActivityDef} (ha : d.activity a.id = some a)
    (hforEach : isForEach a.activityType = true) (outputs : List Value)
    : K.Keeps (K.Good d s) (e.completeForEach s a.id outputs) (K.Yields d) := by
  unfold completeForEach
  split
  . exact failOnce_keeps _ _
  . apply recordOf_keeps a.id
    intro record hrecord
    exact completeActivity_native ha (.inr (.inr hforEach)) hrecord _ _

theorem addInstances_eq (id : String) (indices : List Nat) (s : ExecutionState)
    : ∃ activities, addInstances id indices s = { s with activities } := by
  induction indices generalizing s with
  | nil => exact ⟨s.activities, rfl⟩
  | cons index indices ih =>
    unfold addInstances
    cases s.activity? (instanceId id index) with
    | some record => exact ih s
    | none => exact ih (s.setRecord (instanceId id index) {})

theorem vars_addInstances (id : String) (indices : List Nat) (s : ExecutionState)
    : (addInstances id indices s).vars = s.vars := by
  obtain ⟨activities, heq⟩ := addInstances_eq id indices s
  rw [heq]

theorem executionId_addInstances (id : String) (indices : List Nat) (s : ExecutionState)
    : (addInstances id indices s).executionId = s.executionId := by
  obtain ⟨activities, heq⟩ := addInstances_eq id indices s
  rw [heq]

theorem good_addInstances {w : World ω} {a : ActivityDef} {spec : ForEachSpec} {items : List Value}
    (ha : Fans e.platform d a spec) (hitems : s.vars[forEachMarker a.id]? = some (.array items))
    {indices : List Nat} (hindices : ∀ index ∈ indices, index < items.length) (hinv : K.inv w)
    (h : K.Good d s w) : K.Good d (addInstances a.id indices s) w := by
  induction indices generalizing s with
  | nil => exact h
  | cons index indices ih =>
    have hrest := fun i hi => hindices i (mem_cons_of_mem index hi)
    unfold addInstances
    cases s.activity? (instanceId a.id index) with
    | some record => exact ih hitems hrest h
    | none =>
      have henlist := K.edit w d s _ hinv h (.enlist ha hitems (hindices index mem_cons_self))
      exact ih hitems hrest henlist

def Due (p : Platform) (P : ActivityDef → Prop) (d : Definition) (s : ExecutionState) (task : Task)
    : Prop :=
  P task.activity
    ∧ ∀ attempt, Handed p d s.vars task.activity (task.activity.context task.vars attempt)

def Came (P : ActivityDef → Prop) (executionId : String) (outcome : IsolatedOutcome) (w : World ω)
    : Prop :=
  ∃ a, P a ∧ a.id = outcome.id ∧ ∀ v, outcome.result = .completed v → Answered w executionId a v

def Sound (p : Platform) (P : ActivityDef → Prop) (d : Definition) (s : ExecutionState)
    (slot : Task ⊕ IsolatedOutcome) (w : World ω) : Prop :=
  match slot with
  | .inl task => Due p P d s task
  | .inr outcome => Came P s.executionId outcome w

theorem stable_came (P : ActivityDef → Prop) (executionId : String) (outcome : IsolatedOutcome)
    : K.Stable (Came P executionId outcome) := by
  intro w w' hle h
  obtain ⟨a, ha, hid, hresult⟩ := h
  exact ⟨a, ha, hid, fun v hv => stable_answered _ a v w w' hle (hresult v hv)⟩

theorem stable_sound (P : ActivityDef → Prop) (slot : Task ⊕ IsolatedOutcome)
    : K.Stable (Sound e.platform P d s slot) := by
  intro w w' hle h
  cases slot with
  | inl task => exact h
  | inr outcome => exact stable_came P _ outcome w w' hle h

theorem stable_all_sound (P : ActivityDef → Prop) (slots : List (Task ⊕ IsolatedOutcome))
    : K.Stable fun w => ∀ slot ∈ slots, Sound e.platform P d s slot w := by
  intro w w' hle h slot hslot
  exact stable_sound P slot w w' hle (h slot hslot)

theorem sound_settle {P : ActivityDef → Prop} {w : World ω} {task : Task} {attempt : Nat}
    {reply : Reply} {kind : String} {slot : Task ⊕ IsolatedOutcome}
    (hslot : e.settle task attempt reply kind = .ok slot)
    (h : Due e.platform P d s task)
    (hreply : ∀ v, reply = .output v → Answered w s.executionId task.activity v)
    : Sound e.platform P d s slot w := by
  unfold settle at hslot
  split at hslot
  . cases hslot
    refine ⟨task.activity, h.1, rfl, ?_⟩
    intro v hv
    cases hv
    exact hreply _ rfl
  . cases hslot
    exact ⟨task.activity, h.1, rfl, nofun⟩
  . cases hslot
    exact ⟨task.activity, h.1, rfl, nofun⟩
  . split at hslot
    . cases hslot
      exact ⟨task.activity, h.1, rfl, nofun⟩
    . cases hslot
      exact h
  . cases hslot

theorem advance_keeps {P : ActivityDef → Prop} (kind : String) {task : Task}
    (htask : Due e.platform P d s task)
    : K.Keeps (K.Good d s) (e.advance s.executionId kind task)
        (fun slot w => K.Good d s w ∧ Sound e.platform P d s slot w) := by
  unfold advance
  apply Keeps.bind (callExecutor_keeps false (htask.2 _))
  rintro ⟨progress, reply⟩
  apply Keeps.ofExcept
  intro slot w hslot _ h
  exact ⟨h.1, sound_settle hslot htask h.2⟩

theorem mem_of_picked {slots : List (Task ⊕ IsolatedOutcome)} {index : Option Nat} {i : Nat}
    {task : Task}
    (h : (index.bind fun i => (slots[i]?.bind Sum.getLeft?).map fun task => (i, task)) = some (i, task))
    : Sum.inl task ∈ slots := by
  obtain ⟨j, -, hj⟩ := Option.bind_eq_some_iff.mp h
  obtain ⟨task', hleft, hpair⟩ := Option.map_eq_some_iff.mp hj
  obtain ⟨slot, hslot, hgetLeft⟩ := Option.bind_eq_some_iff.mp hleft
  cases hpair
  rw [Sum.getLeft?_eq_some_iff] at hgetLeft
  rw [← hgetLeft]
  exact mem_of_getElem? hslot

theorem race_keeps {P : ActivityDef → Prop} (gas : Nat) (slots : List (Task ⊕ IsolatedOutcome))
    : K.Keeps (fun w => K.Good d s w ∧ ∀ slot ∈ slots, Sound e.platform P d s slot w)
        (e.race s.executionId gas slots)
        (fun outcomes w => K.Good d s w
          ∧ ∀ outcome ∈ outcomes, Sound e.platform P d s (.inr outcome) w) := by
  induction gas generalizing slots with
  | zero => exact halt
  | succ gas ih =>
    unfold race
    dsimp only
    split
    . apply Keeps.pure
      intro w hinv h
      refine ⟨h.1, ?_⟩
      intro outcome houtcome
      obtain ⟨slot, hslot, hright⟩ := mem_filterMap.mp houtcome
      cases slot with
      | inl task => cases hright
      | inr outcome' =>
        cases hright
        exact h.2 _ hslot
    . apply Keeps.bind
      . apply pick_keeps
        intro w w' hle h
        exact ⟨stable_good w w' hle h.1, stable_all_sound P slots w w' hle h.2⟩
      . intro k
        split
        next i task hpicked =>
          have hmem : Sum.inl task ∈ slots := mem_of_picked hpicked
          apply given fun w _ h => h.2 _ hmem
          intro htask
          apply Keeps.bind (frame (stable_all_sound P slots) (advance_keeps "activity" htask))
          intro slot
          apply pre _ (ih (slots.set i slot))
          rintro w hinv ⟨⟨hgood, hslot⟩, hslots⟩
          refine ⟨hgood, ?_⟩
          intro slot' hslot'
          cases mem_or_eq_of_mem_set hslot' with
          | inl hold => exact hslots slot' hold
          | inr hnew => exact hnew ▸ hslot
        next => exact halt

structure Afloat (p : Platform) (P : ActivityDef → Prop) (d : Definition) (s : ExecutionState) (n : Nat)
    (f : FanOut) (w : World ω) : Prop where
  inFlight : ∀ x ∈ f.inFlight, Sound p P d s x.2 w
  queue : ∀ i ∈ f.queue, i < n
  joined : ∀ x ∈ f.joined, Sound p P d s (.inr x.2) w

theorem stable_afloat (P : ActivityDef → Prop) (n : Nat) (f : FanOut)
    : K.Stable (Afloat e.platform P d s n f) := by
  intro w w' hle h
  refine ⟨?_, h.queue, ?_⟩
  . intro x hx
    exact stable_sound P x.2 w w' hle (h.inFlight x hx)
  . intro x hx
    exact stable_sound P (.inr x.2) w w' hle (h.joined x hx)

theorem afloat_set {p : Platform} {P : ActivityDef → Prop} {n : Nat} {f : FanOut} {w : World ω}
    {k index : Nat} {slot : Task ⊕ IsolatedOutcome} (h : Afloat p P d s n f w)
    (hslot : Sound p P d s slot w)
    : Afloat p P d s n { f with inFlight := f.inFlight.set k (index, slot) } w := by
  refine ⟨?_, h.queue, h.joined⟩
  intro x hx
  cases mem_or_eq_of_mem_set hx with
  | inl hold => exact h.inFlight x hold
  | inr hnew =>
    rw [hnew]
    exact hslot

theorem afloat_join {p : Platform} {P : ActivityDef → Prop} {n : Nat} {f : FanOut} {w : World ω}
    {spec : ForEachSpec} {launch : Nat → Nat × (Task ⊕ IsolatedOutcome)} {k index : Nat}
    {outcome : IsolatedOutcome} (hlaunch : ∀ i, i < n → Sound p P d s (launch i).2 w)
    (h : Afloat p P d s n f w) (houtcome : Sound p P d s (.inr outcome) w)
    : Afloat p P d s n (f.join p spec launch k index outcome) w := by
  have herased : ∀ x ∈ f.inFlight.eraseIdx k, Sound p P d s x.2 w :=
    fun x hx => h.inFlight x (mem_of_mem_eraseIdx hx)
  have hjoined : ∀ x ∈ f.joined ++ [(index, outcome)], Sound p P d s (.inr x.2) w :=
    forall_mem_snoc h.joined houtcome
  unfold Engine.FanOut.join
  dsimp only
  split
  next next' queue _ hqueue =>
    have hqueued := h.queue
    rw [hqueue] at hqueued
    have hlaunched := hlaunch next' (hqueued next' mem_cons_self)
    exact ⟨forall_mem_snoc herased hlaunched, fun i hi => hqueued i (mem_cons_of_mem _ hi), hjoined⟩
  next => exact ⟨herased, h.queue, hjoined⟩

theorem fanOut_keeps {P : ActivityDef → Prop} {spec : ForEachSpec} {n : Nat}
    {launch : Nat → Nat × (Task ⊕ IsolatedOutcome)}
    (hlaunch : ∀ i, i < n → ∀ w : World ω, Sound e.platform P d s (launch i).2 w) (gas : Nat)
    (f : FanOut)
    : K.Keeps (fun w => K.Good d s w ∧ Afloat e.platform P d s n f w)
        (e.fanOut s.executionId spec launch gas f)
        (fun f' w => K.Good d s w ∧ Afloat e.platform P d s n f' w) := by
  induction gas generalizing f with
  | zero => exact halt
  | succ gas ih =>
    unfold fanOut
    split
    . exact Keeps.pure _ fun _ _ h => h
    . apply Keeps.bind
      . apply pick_keeps
        intro w w' hle h
        exact ⟨stable_good w w' hle h.1, stable_afloat P n f w w' hle h.2⟩
      . intro k
        split
        next index task hpicked =>
          apply given fun w _ h => h.2.inFlight _ (mem_of_getElem? hpicked)
          intro htask
          apply Keeps.bind (frame (stable_afloat P n f) (advance_keeps "for_each item" htask))
          intro slot
          apply pre _ (ih _)
          intro w hinv h
          exact ⟨h.1.1, afloat_set h.2 h.1.2⟩
        next index outcome hpicked =>
          apply pre _ (ih _)
          intro w hinv h
          have houtcome := h.2.inFlight _ (mem_of_getElem? hpicked)
          exact ⟨h.1, afloat_join (fun i hi => hlaunch i hi w) h.2 houtcome⟩
        next => exact halt

section

variable (executionId : String)

theorem commitFailure_keeps (outcome : IsolatedOutcome) (msg : String)
    : K.Keeps (K.Good d s) (e.commitFailure s outcome msg) (fun t => K.Good d t) := by
  unfold commitFailure
  apply recordOf_keeps outcome.id
  intro record hrecord
  apply Keeps.bind
  . exact pre (fun w hinv h => good_setRecord hinv h hrecord (by simp)) (emit_keeps _)
  . intro t
    apply Keeps.bind checkpoint_keeps
    intro _
    exact Keeps.pure _ fun _ _ h => h

theorem commitInterrupt_keeps (outcome : IsolatedOutcome)
    : K.Keeps (K.Good d s) (e.commitInterrupt s outcome) (fun t => K.Good d t) := by
  unfold commitInterrupt
  apply Keeps.bind
  . exact pre (fun w hinv h => good_setActivity hinv h (by decide)) checkpoint_keeps
  . intro _
    exact Keeps.pure _ fun _ _ h => h

theorem replay_keeps {P : ActivityDef → Prop} (outcome : IsolatedOutcome)
    : K.Keeps (fun w => K.Good d s w ∧ Came P executionId outcome w)
        (e.emitAll (s.setActivity outcome.id .running) outcome.events)
        (fun t w => K.Good d t w ∧ Came P executionId outcome w) := by
  apply frame (stable_came P executionId outcome)
  exact pre (fun w hinv h => good_setActivity hinv h (by decide)) (emitAll_keeps _)

theorem commitFirst_keeps {P : ActivityDef → Prop} {β : Type} (outcome : β → IsolatedOutcome) {x : β}
    {rest : List β} {m : Action ω (ExecutionState × Verdicts)}
    (hm : (K.pin executionId).Keeps
      (fun w => (K.pin executionId).Good d s w ∧ Came P executionId (outcome x) w) m
      ((K.pin executionId).Yields d))
    : (K.pin executionId).Keeps
        (fun w => (K.pin executionId).Good d s w
          ∧ ∀ y ∈ x :: rest, Came P executionId (outcome y) w)
        m
        (fun r w => (K.pin executionId).Yields d r w ∧ ∀ y ∈ rest, Came P executionId (outcome y) w) := by
  refine pre ?_ (frame ?_ hm)
  . intro w hinv h
    exact ⟨⟨h.1, h.2 x mem_cons_self⟩, fun y hy => h.2 y (mem_cons_of_mem x hy)⟩
  . intro w w' hle h y hy
    exact stable_came P executionId (outcome y) w w' hle (h y hy)

theorem commitItem_keeps (v : Verdicts) (index : Nat) (outcome : IsolatedOutcome)
    : (K.pin executionId).Keeps
        (fun w => (K.pin executionId).Good d s w ∧ Came (Runs e.platform d) executionId outcome w)
        (e.commitItem s v index outcome)
        ((K.pin executionId).Yields d) := by
  unfold commitItem
  apply Keeps.bind (replay_keeps executionId outcome)
  intro t
  split
  next output hresult =>
    apply recordOf_keeps outcome.id
    intro record hrecord
    apply Keeps.bind
    . refine pre ?_ (emit_keeps (d := d) _)
      rintro w hinv ⟨hgood, a, hruns, hid, hanswered⟩
      apply (K.pin executionId).edit w d t _ hinv hgood
      apply Edit.record
      . rw [hrecord]
        rfl
      . intro _
        refine ⟨output, rfl, .inl ⟨a, hruns, hid, ?_⟩⟩
        rw [hgood.2]
        exact hanswered output hresult
    . intro u
      exact saved_keeps v
  next msg _ =>
    apply Keeps.bind
    . exact pre (fun _ _ h => h.1) (commitFailure_keeps outcome msg)
    . intro u
      exact Keeps.pure _ fun _ _ h => h
  next msg _ =>
    apply Keeps.bind
    . exact pre (fun _ _ h => h.1) (commitInterrupt_keeps outcome)
    . intro u
      exact Keeps.pure _ fun _ _ h => h

theorem commitItems_keeps (v : Verdicts) (outcomes : List (Nat × IsolatedOutcome))
    : (K.pin executionId).Keeps
        (fun w => (K.pin executionId).Good d s w
          ∧ ∀ x ∈ outcomes, Came (Runs e.platform d) executionId x.2 w)
        (e.commitItems s v outcomes)
        ((K.pin executionId).Yields d) := by
  induction outcomes generalizing s v with
  | nil => exact Keeps.pure _ fun _ _ h => h.1
  | cons x outcomes ih =>
    unfold commitItems
    apply Keeps.bind (commitFirst_keeps executionId Prod.snd (commitItem_keeps executionId v x.1 x.2))
    rintro ⟨t, v'⟩
    exact ih v'

theorem commitActivity_keeps (v : Verdicts) (outcome : IsolatedOutcome)
    : (K.pin executionId).Keeps
        (fun w => (K.pin executionId).Good d s w
          ∧ Came (fun a => d.activity a.id = some a) executionId outcome w)
        (e.commitActivity s v outcome)
        ((K.pin executionId).Yields d) := by
  unfold commitActivity
  apply Keeps.bind (replay_keeps executionId outcome)
  intro t
  split
  next output hresult =>
    apply recordOf_keeps outcome.id
    intro record hrecord
    apply given fun w _ h => (show ∃ a, d.activity a.id = some a ∧ a.id = outcome.id from
      ⟨h.2.choose, h.2.choose_spec.1, h.2.choose_spec.2.1⟩)
    rintro ⟨a, ha, hid⟩
    rw [← hid]
    apply Keeps.bind
    . refine pre ?_ (completeActivity_keeps ha (hid ▸ hrecord) _ _)
      rintro w hinv ⟨hgood, a', ha', hid', hanswered⟩
      refine ⟨hgood, .inl ⟨a', .declared ha', hid'.trans hid.symm, ?_⟩⟩
      rw [hgood.2]
      exact hanswered output hresult
    . rintro ⟨u, step⟩
      exact Keeps.pure _ fun _ _ h => h
  next msg _ =>
    apply Keeps.bind
    . exact pre (fun _ _ h => h.1) (commitFailure_keeps outcome msg)
    . intro u
      exact Keeps.pure _ fun _ _ h => h
  next msg _ =>
    apply Keeps.bind
    . exact pre (fun _ _ h => h.1) (commitInterrupt_keeps outcome)
    . intro u
      exact Keeps.pure _ fun _ _ h => h

theorem commitActivities_keeps (v : Verdicts) (outcomes : List IsolatedOutcome)
    : (K.pin executionId).Keeps
        (fun w => (K.pin executionId).Good d s w
          ∧ ∀ o ∈ outcomes, Came (fun a => d.activity a.id = some a) executionId o w)
        (e.commitActivities s v outcomes)
        ((K.pin executionId).Yields d) := by
  induction outcomes generalizing s v with
  | nil => exact Keeps.pure _ fun _ _ h => h.1
  | cons outcome outcomes ih =>
    unfold commitActivities
    apply Keeps.bind (commitFirst_keeps executionId id (commitActivity_keeps executionId v outcome))
    rintro ⟨t, v'⟩
    exact ih v'

end

theorem finishForEach_keeps {a : ActivityDef} (ha : d.activity a.id = some a)
    (hforEach : isForEach a.activityType = true) (items : List Value) (f : FanOut)
    (v : Verdicts)
    : K.Keeps (K.Good d s) (e.finishForEach s a items f v) (K.Yields d) := by
  unfold finishForEach
  split
  . exact failOnce_keeps _ _
  . exact failOnce_keeps _ _
  . exact suspend_keeps _ _
  . refine pre ?_ (completeForEach_keeps ha hforEach _)
    exact fun w hinv h => K.edit w d s _ hinv h (.collapse a.id)

theorem sound_launch {a : ActivityDef} {spec : ForEachSpec} {items : List Value}
    (ha : Fans e.platform d a spec) (hitems : s.vars[forEachMarker a.id]? = some (.array items))
    (policy : RetryPolicy) (index : Nat) (hindex : index < items.length) (w : World ω)
    : Sound e.platform (Runs e.platform d) d s (launch s a spec policy items index).2 w := by
  refine ⟨.item ha.declared ha.type ha.parsed index, ?_⟩
  intro attempt
  have hvalue : items[index]? = some (items[index]?.getD .null) := by
    rw [getElem?_eq_getElem hindex]
    rfl
  exact .item ha hitems hvalue attempt

theorem mem_pendingItems {id : String} {n i : Nat} (h : i ∈ pendingItems s id n) : i < n :=
  mem_range.mp (mem_of_mem_filter h)

theorem runItems_keeps {a : ActivityDef} {spec : ForEachSpec} {items : List Value}
    (ha : Fans e.platform d a spec) (hitems : s.vars[forEachMarker a.id]? = some (.array items))
    (gas : Nat) : K.Keeps (K.Good d s) (e.runItems d gas s a spec items) (K.Yields d) := by
  unfold runItems
  apply pre fun w hinv h => good_addInstances ha hitems (fun i hi => mem_range.mp hi) hinv h
  rw [← vars_addInstances a.id (range items.length) s] at hitems
  generalize addInstances a.id (range items.length) s = t at hitems ⊢
  dsimp only
  apply Keeps.bind
  . refine pre ?_ (fanOut_keeps (d := d) (s := t) (sound_launch ha hitems _) gas _)
    intro w hinv h
    refine ⟨h, ?_, ?_, forall_mem_nil _⟩
    . intro x hx
      obtain ⟨index, hindex, rfl⟩ := mem_map.mp hx
      exact sound_launch ha hitems _ index (mem_pendingItems (mem_of_mem_take hindex)) w
    . exact fun i hi => mem_pendingItems (mem_of_mem_drop hi)
  intro f
  apply Keeps.bind (Q := K.Yields d)
  . refine pre ?_ (post (commitItems_keeps (d := d) t.executionId {} _) ?_)
    . intro w hinv h
      refine ⟨⟨h.1, rfl⟩, ?_⟩
      intro x hx
      exact h.2.joined x ((mergeSort_perm _ _).mem_iff.mp hx)
    . exact fun _ _ h => h.1
  . rintro ⟨u, v⟩
    exact finishForEach_keeps ha.declared ha.type items f v

theorem forEachItems_cases {a : ActivityDef} {spec : ForEachSpec} {isNew : Bool} {items : List Value}
    (h : e.forEachItems s a spec = .ok (isNew, items))
    : (isNew = false ∧ s.vars[forEachMarker a.id]? = some (.array items))
        ∨ (isNew = true ∧ Template.resolve e.platform s.vars spec.items = .array items
          ∧ items.length ≤ spec.maxItems) := by
  unfold forEachItems at h
  split at h
  next items' hmarker =>
    cases h
    exact .inl ⟨rfl, hmarker⟩
  next =>
    split at h
    next items' hresolved =>
      split at h
      . cases h
      next hlength =>
        cases h
        exact .inr ⟨rfl, hresolved, Nat.le_of_not_lt hlength⟩
    next => cases h

theorem marker_of_forEachItems {a : ActivityDef} {spec : ForEachSpec} {isNew : Bool} {items : List Value}
    (h : e.forEachItems s a spec = .ok (isNew, items))
    : (if isNew then s.setVariable (forEachMarker a.id) (.array items) else s).vars[forEachMarker a.id]?
        = some (.array items) := by
  cases forEachItems_cases h with
  | inl hkept =>
    obtain ⟨rfl, hmarker⟩ := hkept
    exact hmarker
  | inr hnew =>
    obtain ⟨rfl, -⟩ := hnew
    show (s.vars.insert (forEachMarker a.id) (.array items))[forEachMarker a.id]? = _
    rw [Map.getElem?_insert, if_pos rfl]

theorem runForEach_keeps {a : ActivityDef} (ha : d.activity a.id = some a)
    (hforEach : isForEach a.activityType = true) (gas : Nat)
    : K.Keeps (K.Good d s) (e.runForEach d gas s a) (K.Yields d) := by
  unfold runForEach
  apply Keeps.bind (Q := fun spec w => K.Good d s w ∧ ForEachSpec.parse e.platform a = .ok spec)
  . exact Keeps.ofExcept _ fun spec w hspec _ h => ⟨h, hspec⟩
  intro spec
  apply given fun _ _ h => h.2
  intro hspec
  apply pre fun _ _ h => h.1
  have hfans : Fans e.platform d a spec := ⟨ha, hforEach, hspec⟩
  cases hfound : e.forEachItems s a spec with
  | error msg => exact failOnce_keeps _ _
  | ok found =>
    obtain ⟨isNew, items⟩ := found
    have hmarked : ∀ w, K.inv w → K.Good d s w → K.Good d
        (if isNew then s.setVariable (forEachMarker a.id) (.array items) else s) w := by
      intro w hinv h
      cases forEachItems_cases hfound with
      | inl hkept =>
        obtain ⟨rfl, -⟩ := hkept
        exact h
      | inr hnew =>
        obtain ⟨rfl, hresolved, hlength⟩ := hnew
        exact K.edit w d s _ hinv h (.expand hfans hresolved hlength)
    have hitems := marker_of_forEachItems hfound
    apply pre hmarked
    dsimp only
    generalize (if isNew then s.setVariable (forEachMarker a.id) (.array items) else s) = t at hitems ⊢
    have hrest : K.Keeps (K.Good d t)
        (if items = [] then e.completeForEach (t.removeVariable (forEachMarker a.id)) a.id []
          else e.runItems d gas t a spec items) (K.Yields d) := by
      split
      . refine pre ?_ (completeForEach_keeps ha hforEach _)
        exact fun w hinv h => K.edit w d t _ hinv h (.collapse a.id)
      . exact runItems_keeps hfans hitems gas
    split
    . exact Keeps.bind checkpoint_keeps fun _ => hrest
    . exact hrest

theorem due_batchTasks {batch : List String} {tasks : List (Task ⊕ IsolatedOutcome)}
    (h : batchTasks d s batch = some tasks) (w : World ω)
    : ∀ slot ∈ tasks, Sound e.platform (fun a => d.activity a.id = some a) d s slot w := by
  induction batch generalizing tasks with
  | nil =>
    cases h
    exact nofun
  | cons id batch ih =>
    unfold batchTasks at h
    split at h
    next a record tasks' ha hrecord htasks =>
      cases h
      intro slot hslot
      cases mem_cons.mp hslot with
      | inl hnew =>
        rw [hnew]
        have hself := Definition.activity_self ha
        exact ⟨hself, fun attempt => .declared hself attempt⟩
      | inr hold => exact ih htasks slot hold
    next => cases h

theorem runReadyBatch_keeps (gas : Nat) (batch : List String)
    : K.Keeps (K.Good d s) (e.runReadyBatch d gas s batch) (K.Yields d) := by
  unfold runReadyBatch
  apply Keeps.bind
  . exact ofOption _ fun tasks w htasks _ h => (⟨h, due_batchTasks (e := e) htasks w⟩ :
      K.Good d s w ∧ _)
  intro tasks
  apply Keeps.bind (race_keeps gas tasks)
  intro outcomes
  apply Keeps.bind (Q := K.Yields d)
  . refine pre ?_ (post (commitActivities_keeps (d := d) s.executionId {} outcomes) ?_)
    . exact fun _ _ h => ⟨⟨h.1, rfl⟩, h.2⟩
    . exact fun _ _ h => h.1
  . rintro ⟨t, v⟩
    dsimp only
    split
    . exact Keeps.pure _ fun _ _ h => h
    . exact Keeps.pure _ fun _ _ h => h
    . exact Keeps.pure _ fun _ _ h => h

section

variable {drive : Definition → ExecutionState → Action ω (RunOutcome × ExecutionState)}

def Nests (K : Contract e) (drive : Definition → ExecutionState → Action ω (RunOutcome × ExecutionState))
    (d : Definition) : Prop :=
  ∀ s a resolver childName child, d.activity a.id = some a → a.activityType = "workflow" →
    e.subworkflows = some resolver → a.name = some childName →
    separators (childId s a).toList ≤ e.maxSubworkflowDepth →
    K.Keeps (fun w => K.Good d s w ∧ ∃ w', K.inv w' ∧ resolver w'.executor childName = some child)
      (e.runChild drive child (childId s a) a.inputs) (fun _ => K.Good d s)

theorem settleChild_keeps {a : ActivityDef} (ha : d.activity a.id = some a)
    (htype : a.activityType = "workflow") (childName : String) (outcome : RunOutcome)
    (child : ExecutionState)
    : K.Keeps (K.Good d s) (e.settleChild s a childName outcome child) (K.Yields d) := by
  unfold settleChild
  cases outcome with
  | completed =>
    apply recordOf_keeps a.id
    intro record hrecord
    exact completeActivity_native ha (.inr (.inl htype)) hrecord _ _
  | failed msg => exact failOnce_keeps _ _
  | compensated msg => exact failOnce_keeps _ _
  | interrupted msg => exact suspend_keeps _ _

theorem runSubworkflow_keeps (hnests : Nests K drive d) {a : ActivityDef}
    (ha : d.activity a.id = some a) (htype : a.activityType = "workflow")
    : K.Keeps (K.Good d s) (e.runSubworkflow drive s a) (K.Yields d) := by
  unfold runSubworkflow
  split
  . exact fail _
  next resolver hresolver =>
    split
    . exact fail _
    next childName hname =>
      apply Keeps.bind (Q := fun child w => K.Good d s w
        ∧ ∀ definition, child = some definition →
          ∃ w', K.inv w' ∧ resolver w'.executor childName = some definition)
      . exact gets _ fun w hinv h => ⟨h, fun definition hfound => ⟨w, hinv, hfound⟩⟩
      intro child
      cases child with
      | none => exact fail _
      | some child =>
        dsimp only
        split
        . exact pre (fun _ _ h => h.1) (failOnce_keeps _ _)
        . next hdepth =>
          apply Keeps.bind
          . refine pre ?_ (hnests s a resolver childName child ha htype hresolver hname (Nat.le_of_not_lt hdepth))
            exact fun w hinv h => ⟨h.1, h.2 child rfl⟩
          . rintro ⟨outcome, childState⟩
            exact settleChild_keeps ha htype childName outcome childState

theorem runActivity_keeps (hnests : Nests K drive d) (gas : Nat) (id : String)
    : K.Keeps (K.Good d s) (e.runActivity drive d gas s id) (K.Yields d) := by
  unfold runActivity
  apply Keeps.bind (Q := fun a w => K.Good d s w ∧ d.activity id = some a)
  . exact ofOption _ fun a w ha _ h => ⟨h, ha⟩
  intro a
  apply given fun _ _ h => Definition.activity_self h.2
  intro ha
  apply pre fun _ _ h => h.1
  split
  . exact runWait_keeps ha (by assumption)
  . split
    . exact runSubworkflow_keeps hnests ha (by assumption)
    . split
      . exact runForEach_keeps ha (by assumption) gas
      . exact runAttempts_keeps ha _ gas

end

end Wovyr.Workflow.Contract
