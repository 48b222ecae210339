import Std.Data.String.ToNat
import Wovyr.Workflow.Course

/-!
This module contains the proof that every way an activity can take, skipped or attempted, waiting, in
a batch or item by item, keeps the course of an execution.
-/

namespace Wovyr.Workflow

open List Engine ExecutionState

theorem firstId_some {holds : String → Option Bool} {as : List ActivityDef} {id : String}
    (h : firstId holds as = some (some id)) : ∃ a ∈ as, a.id = id ∧ holds id = some true := by
  induction as with
  | nil => cases h
  | cons a as ih =>
    unfold firstId at h
    split at h
    . cases h
    next hholds =>
      cases h
      exact ⟨a, mem_cons_self, rfl, hholds⟩
    . obtain ⟨b, hb, hid, hholds⟩ := ih h
      exact ⟨b, mem_cons_of_mem _ hb, hid, hholds⟩

section

variable {ω : Type} {e : Engine ω} {d : Definition} {s : ExecutionState} {id : String}

theorem pending_of_isDead (h : e.isDead d s id = some true)
    : ∃ record, s.activity? id = some record ∧ record.state.isSettled = false := by
  unfold isDead at h
  obtain ⟨record, hrecord, hdead⟩ := Option.map_eq_some_iff.mp h
  refine ⟨record, hrecord, ?_⟩
  split at hdead
  . next hstate => rw [hstate]; rfl
  . next hstate => rw [hstate]; rfl
  . next hstate => rw [hstate]; rfl
  . cases hdead

theorem decided_of_isReady (h : e.isReady d s id = some true)
    : (∃ record, s.activity? id = some record ∧ record.state.isSettled = false) ∧ Decided d s id := by
  unfold isReady at h
  obtain ⟨record, hrecord, hready⟩ := Option.map_eq_some_iff.mp h
  have hedges : (d.inbound id = [] || (!(e.edges d s id).contains .pending
      && (e.edges d s id).contains .live)) = true ∧ record.state.isSettled = false := by
    split at hready
    . next hstate => rw [hstate]; exact ⟨hready, rfl⟩
    . next hstate => rw [hstate]; exact ⟨hready, rfl⟩
    . next hstate => rw [hstate]; exact ⟨hready, rfl⟩
    . next hstate => rw [hstate]; exact ⟨hready, rfl⟩
    . cases hready
  refine ⟨⟨record, hrecord, hedges.2⟩, ?_⟩
  intro t ht
  have hpending : e.classifyEdge s t ≠ .pending := by
    intro hpending
    have hmem : Edge.pending ∈ e.edges d s id := mem_map.mpr ⟨t, ht, hpending⟩
    have hnonempty : d.inbound id ≠ [] := ne_nil_of_mem ht
    simp [hnonempty, hmem] at hedges
  unfold classifyEdge at hpending
  cases hsource : s.activity? t.source with
  | none => simp [hsource] at hpending
  | some source =>
    refine ⟨source, rfl, ?_⟩
    rw [hsource] at hpending
    cases hstate : source.state <;> simp_all [ActivityState.isSettled]

theorem mem_forward {a : ActivityDef} (h : a ∈ forward d)
    : a ∈ d.spec.activities ∧ a.id ∉ d.compensationTargets := by
  unfold forward at h
  obtain ⟨hmem, hforward⟩ := mem_filter.mp h
  exact ⟨hmem, by simpa using hforward⟩

theorem runnable_of_isReady (hsane : d.Sane) {a : ActivityDef} (ha : a ∈ forward d)
    (h : e.isReady d s a.id = some true) : Runnable d s a := by
  obtain ⟨hmem, hforward⟩ := mem_forward ha
  obtain ⟨hpending, hdecided⟩ := decided_of_isReady h
  exact ⟨Definition.activity_of_mem hsane hmem, hforward, hpending, hdecided⟩

theorem runnable_of_nextReady (hsane : d.Sane) (h : e.nextReady d s = some (some id))
    : ∃ a, d.activity id = some a ∧ Runnable d s a := by
  obtain ⟨a, ha, rfl, hready⟩ := firstId_some h
  have hrun := runnable_of_isReady hsane ha hready
  exact ⟨a, hrun.declared, hrun⟩

end

theorem head_refusal (status target : WorkflowState)
    : ∃ msg, refusal status target = .runtime msg ∧ msg.toList.head? = some 'i' := by
  refine ⟨_, rfl, ?_⟩
  have hhead : "invalid workflow transition ".toList.head? = some 'i' := by decide
  simp only [String.toList_append, head?_append]
  rw [show toString "invalid workflow transition " = "invalid workflow transition " from rfl, hhead]
  rfl

theorem not_refusal_of_head {msg : String} {c : Char} (h : msg.toList.head? = some c) (hc : c ≠ 'i')
    : ¬Refusal (.runtime msg) := by
  rintro ⟨status, target, heq⟩
  obtain ⟨msg', hmsg, hhead⟩ := head_refusal status target
  rw [hmsg] at heq
  cases heq
  rw [h] at hhead
  exact hc (Option.some.inj hhead)

theorem not_refusal_invalid (msg : String) : ¬Refusal (.invalid msg) := by
  rintro ⟨status, target, heq⟩
  cases heq

theorem instanceId_inj {id : String} {i j : Nat} (h : instanceId id i = instanceId id j) : i = j := by
  unfold instanceId at h
  rw [← String.toList_inj] at h
  simp only [String.toList_append, append_assoc, append_cancel_left_eq,
    append_cancel_right_eq] at h
  exact Nat.repr_injective (String.toList_inj.mp h)

theorem instanceId_ne_plain {id id' : String} {i : Nat} (h : '[' ∉ id'.toList) : instanceId id i ≠ id' := by
  rintro rfl
  exact h (instanceId_bracket id i)

theorem activity?_initialState_instance {d : Definition} (hsane : d.Sane) (executionId : String) (input : Value)
    (id : String) (i : Nat) : (initialState d executionId input).activity? (instanceId id i) = none := by
  rw [activity?_initialState, if_neg]
  intro hmem
  obtain ⟨b, hb, hid⟩ := mem_map.mp hmem
  exact instanceId_ne_plain (hsane.plain b hb) hid.symm

theorem Outstanding.setRecord {s : ExecutionState} {id : String} {i j : Nat} (h : Outstanding s id j)
    (hne : i ≠ j) (r : ActivityRecord) : Outstanding (s.setRecord (instanceId id i) r) id j := by
  obtain ⟨record, hrecord, hstate⟩ := h
  refine ⟨record, ?_, hstate⟩
  rw [activity?_setRecord_of_ne s r fun heq => hne (instanceId_inj heq)]
  exact hrecord

theorem Runnable.setItem {ω : Type} {e : Engine ω} {d : Definition} {s : ExecutionState}
    {a : ActivityDef} {l l' : Layer} (hsane : d.Sane) (h : Runnable d s a) {id : String} {i : Nat}
    {r : ActivityRecord} (hmove : Move e d s l l' (s.setRecord (instanceId id i) r))
    : Runnable d (s.setRecord (instanceId id i) r) a := by
  obtain ⟨record, hrecord, hpending⟩ := h.pending
  refine h.move hsane hmove ⟨record, ?_, hpending⟩
  rw [activity?_setRecord_of_ne s r (instanceId_ne_plain (h.plain hsane))]
  exact hrecord

def Holds {ω : Type} (e : Engine ω) (a : ActivityDef) : Task ⊕ IsolatedOutcome → Prop
  | .inl task => task.activity = a ∧ ∀ event ∈ task.events, event.isNeutral = true
  | .inr outcome =>
    outcome.id = a.id ∧ (∀ event ∈ outcome.events, event.isNeutral = true)
      ∧ ∀ output, outcome.result = .completed output → e.Answers output

theorem holds_settle {ω : Type} {e : Engine ω} {task : Task} {attempt : Nat} {reply : Reply}
    {kind : String} {slot : Task ⊕ IsolatedOutcome} {a : ActivityDef} (h : Holds e a (.inl task))
    (hreply : ∀ output, reply = .output output → e.Answers output)
    (hsettle : e.settle task attempt reply kind = .ok slot) : Holds e a slot := by
  obtain ⟨rfl, hevents⟩ := h
  have hstarted : ∀ event ∈ task.events ++ [.activityStarted task.activity.id attempt],
      event.isNeutral = true :=
    forall_mem_snoc hevents rfl
  unfold settle at hsettle
  cases reply with
  | output output =>
    cases hsettle
    refine ⟨rfl, hstarted, ?_⟩
    intro output' houtput
    cases houtput
    exact hreply output rfl
  | panic reason => cases hsettle
  | error err =>
    cases err with
    | retryable msg =>
      dsimp only at hsettle
      split at hsettle
      . cases hsettle
        exact ⟨rfl, hstarted, nofun⟩
      . cases hsettle
        exact ⟨rfl, forall_mem_snoc hstarted rfl⟩
    | permanent msg | interrupted msg =>
      cases hsettle
      exact ⟨rfl, hstarted, nofun⟩

theorem settle_refusal {ω : Type} {e : Engine ω} {task : Task} {attempt : Nat} {reply : Reply}
    {kind : String} {err : Error} (hkind : kind = "activity" ∨ kind = "for_each item")
    (h : e.settle task attempt reply kind = .error err) : ¬Refusal err := by
  unfold settle at h
  cases reply with
  | output output => cases h
  | panic reason =>
    cases h
    cases hkind with
    | inl hkind =>
      rw [hkind]
      have hhead : "activity".toList.head? = some 'a' := by decide
      refine not_refusal_of_head (c := 'a') ?_ (by decide)
      simp only [String.toList_append, head?_append]
      rw [show toString "activity" = "activity" from rfl, hhead]
      rfl
    | inr hkind =>
      rw [hkind]
      have hhead : "for_each item".toList.head? = some 'f' := by decide
      refine not_refusal_of_head (c := 'f') ?_ (by decide)
      simp only [String.toList_append, head?_append]
      rw [show toString "for_each item" = "for_each item" from rfl, hhead]
      rfl
  | error err =>
    cases err with
    | retryable msg =>
      dsimp only at h
      split at h <;> cases h
    | permanent msg | interrupted msg => cases h

theorem addInstances_kept (indices : List Nat) (s : ExecutionState) (id : String) {id' : String}
    {record : ActivityRecord} (h : s.activity? id' = some record)
    : (addInstances id indices s).activity? id' = some record := by
  induction indices generalizing s with
  | nil => exact h
  | cons index indices ih =>
    unfold addInstances
    apply ih
    split
    . exact h
    next hnone =>
      rw [activity?_setRecord_of_ne]
      . exact h
      . rintro rfl
        rw [hnone] at h
        cases h

theorem addInstances_recorded (indices : List Nat) (s : ExecutionState) (id : String) {i : Nat}
    (hi : i ∈ indices) : ∃ record, (addInstances id indices s).activity? (instanceId id i) = some record := by
  induction indices generalizing s with
  | nil => cases hi
  | cons index indices ih =>
    unfold addInstances
    cases mem_cons.mp hi with
    | inr hi => exact ih _ hi
    | inl heq =>
      rw [heq]
      cases hrecord : s.activity? (instanceId id index) with
      | some record => exact ⟨record, addInstances_kept indices s id hrecord⟩
      | none => exact ⟨{}, addInstances_kept indices _ id (activity?_setRecord_self s _ _)⟩

theorem addInstances_new (indices : List Nat) (s : ExecutionState) (id : String) {id' : String}
    {record : ActivityRecord} (h : (addInstances id indices s).activity? id' = some record)
    : s.activity? id' = some record ∨ (s.activity? id' = none ∧ record = {}) := by
  induction indices generalizing s with
  | nil => exact .inl h
  | cons index indices ih =>
    unfold addInstances at h
    cases hrecord : s.activity? (instanceId id index) with
    | some record' =>
      rw [hrecord] at h
      exact ih s h
    | none =>
      rw [hrecord] at h
      have hset := ih _ h
      rw [activity?_setRecord] at hset
      split at hset
      next heq =>
        subst heq
        rcases hset with hset | ⟨hset, -⟩
        . cases hset
          exact .inr ⟨hrecord, rfl⟩
        . cases hset
      next => exact hset

theorem addInstances_runnable {ω : Type} (e : Engine ω) {d : Definition} (hsane : d.Sane)
    {a : ActivityDef} (indices : List Nat) {s : ExecutionState} (h : Runnable d s a) (id : String)
    : Runnable d (addInstances id indices s) a := by
  induction indices generalizing s with
  | nil => exact h
  | cons index indices ih =>
    unfold addInstances
    apply ih
    split
    . exact h
    next hnone =>
      have hmove : Move e d s .rest .rest (s.setRecord (instanceId id index) {}) := .expand id index hnone
      exact h.setItem hsane hmove

theorem outstanding_of_pending {s : ExecutionState} {id : String} {n i : Nat}
    (h : i ∈ pendingItems (addInstances id (range n) s) id n)
    : Outstanding (addInstances id (range n) s) id i := by
  unfold pendingItems at h
  obtain ⟨hi, hstate⟩ := mem_filter.mp h
  obtain ⟨record, hrecord⟩ := addInstances_recorded (range n) s id hi
  refine ⟨record, hrecord, ?_⟩
  intro hcompleted
  simp [hrecord, hcompleted] at hstate

structure Fanned {ω : Type} (e : Engine ω) (s : ExecutionState) (a : ActivityDef) (spec : ForEachSpec)
    (f : FanOut) : Prop where
  nodup : (f.inFlight.map Prod.fst ++ f.queue ++ f.joined.map Prod.fst).Nodup
  outstanding : ∀ i ∈ f.inFlight.map Prod.fst ++ f.queue ++ f.joined.map Prod.fst, Outstanding s a.id i
  inFlight : ∀ x ∈ f.inFlight, Holds e (spec.instance a.id x.1) x.2
  joined : ∀ x ∈ f.joined, Holds e (spec.instance a.id x.1) (.inr x.2)

theorem Fanned.set {ω : Type} {e : Engine ω} {s : ExecutionState} {a : ActivityDef} {spec : ForEachSpec} {f : FanOut}
    (h : Fanned e s a spec f) {k index : Nat} {slot slot' : Task ⊕ IsolatedOutcome}
    (hk : f.inFlight[k]? = some (index, slot)) (hslot : Holds e (spec.instance a.id index) slot')
    : Fanned e s a spec { f with inFlight := f.inFlight.set k (index, slot') } := by
  have hmap : (f.inFlight.set k (index, slot')).map Prod.fst = f.inFlight.map Prod.fst := by
    apply ext_getElem?
    intro i
    rw [map_set, getElem?_set]
    split
    next heq =>
      subst heq
      obtain ⟨hlt, hget⟩ := List.getElem?_eq_some_iff.mp hk
      rw [if_pos (by simpa using hlt), getElem?_map, hk]
      rfl
    next => rfl
  refine ⟨?_, ?_, ?_, h.joined⟩
  . dsimp only
    rw [hmap]
    exact h.nodup
  . dsimp only
    rw [hmap]
    exact h.outstanding
  . intro x hx
    cases mem_or_eq_of_mem_set hx with
    | inl hx => exact h.inFlight x hx
    | inr heq =>
      rw [heq]
      exact hslot

theorem Fanned.of_perm {ω : Type} {e : Engine ω} {s : ExecutionState} {a : ActivityDef} {spec : ForEachSpec} {f g : FanOut}
    (h : Fanned e s a spec f)
    (hperm : Perm (g.inFlight.map Prod.fst ++ g.queue ++ g.joined.map Prod.fst)
      (f.inFlight.map Prod.fst ++ f.queue ++ f.joined.map Prod.fst))
    (hinFlight : ∀ x ∈ g.inFlight, Holds e (spec.instance a.id x.1) x.2)
    (hjoined : ∀ x ∈ g.joined, Holds e (spec.instance a.id x.1) (.inr x.2)) : Fanned e s a spec g :=
  ⟨hperm.nodup_iff.mpr h.nodup, fun i hi => h.outstanding i (hperm.mem_iff.mp hi), hinFlight, hjoined⟩

theorem Fanned.join {ω : Type} {e : Engine ω} {s : ExecutionState} {a : ActivityDef} {spec : ForEachSpec} {f : FanOut}
    {p : Platform} {launch : Nat → Nat × (Task ⊕ IsolatedOutcome)}
    (hlaunch : ∀ i, (launch i).1 = i ∧ Holds e (spec.instance a.id i) (launch i).2)
    (h : Fanned e s a spec f) {k index : Nat} {outcome : IsolatedOutcome}
    (hk : f.inFlight[k]? = some (index, .inr outcome))
    : Fanned e s a spec (f.join p spec launch k index outcome) := by
  obtain ⟨hlt, hget⟩ := List.getElem?_eq_some_iff.mp hk
  have hmem : (index, Sum.inr outcome) ∈ f.inFlight := mem_of_getElem? hk
  have herase : Perm (f.inFlight.map Prod.fst) (index :: (f.inFlight.eraseIdx k).map Prod.fst) := by
    have hcons := getElem_cons_eraseIdx_perm hlt
    rw [hget] at hcons
    exact (hcons.map Prod.fst).symm
  have hold : ∀ x ∈ f.inFlight.eraseIdx k, Holds e (spec.instance a.id x.1) x.2 :=
    fun x hx => h.inFlight x (mem_of_mem_eraseIdx hx)
  have hslot : Holds e (spec.instance a.id index) (.inr outcome) := h.inFlight (index, .inr outcome) hmem
  have hjoined : ∀ x ∈ f.joined ++ [(index, outcome)], Holds e (spec.instance a.id x.1) (.inr x.2) := by
    apply forall_mem_snoc h.joined
    exact hslot
  have hkept (queue joined : List Nat)
      : Perm ((f.inFlight.eraseIdx k).map Prod.fst ++ queue ++ (joined ++ [index]))
        (f.inFlight.map Prod.fst ++ queue ++ joined) := by
    have hfront : Perm (index :: (f.inFlight.eraseIdx k).map Prod.fst ++ queue ++ joined)
        (f.inFlight.map Prod.fst ++ queue ++ joined) :=
      List.Perm.append_right joined (List.Perm.append_right queue herase.symm)
    apply List.Perm.trans _ hfront
    rw [← append_assoc]
    exact perm_append_singleton index _
  unfold Engine.FanOut.join
  dsimp only
  split
  next next queue _ hqueue =>
    apply h.of_perm
    . dsimp only
      rw [map_append, map_append, map_singleton, map_singleton, (hlaunch next).1]
      have hmove : Perm ((f.inFlight.eraseIdx k).map Prod.fst ++ [next] ++ queue)
          ((f.inFlight.eraseIdx k).map Prod.fst ++ f.queue) := by
        rw [hqueue, append_assoc, singleton_append]
      exact (hmove.append_right _).trans (hkept f.queue _)
    . apply forall_mem_snoc hold
      rw [(hlaunch next).1]
      exact (hlaunch next).2
    . exact hjoined
  next =>
    apply h.of_perm
    . dsimp only
      rw [map_append, map_singleton]
      exact hkept f.queue _
    . exact hold
    . exact hjoined

theorem filterMapM_sublist {α β : Type} {f : α → Option (Option β)} {g : α → β}
    (hf : ∀ x y, f x = some (some y) → y = g x) {xs : List α} {ys : List β}
    (h : xs.filterMapM f = some ys)
    : ys.Sublist (xs.map g) ∧ ∀ y ∈ ys, ∃ x ∈ xs, f x = some (some y) := by
  induction xs generalizing ys with
  | nil =>
    rw [filterMapM_nil] at h
    cases h
    exact ⟨List.Sublist.refl _, nofun⟩
  | cons x xs ih =>
    rw [filterMapM_cons] at h
    obtain ⟨found, hfound, hrest⟩ := Option.bind_eq_some_iff.mp h
    cases found with
    | none =>
      obtain ⟨hsub, hmem⟩ := ih hrest
      refine ⟨hsub.cons _, ?_⟩
      intro y hy
      obtain ⟨x', hx', hy⟩ := hmem y hy
      exact ⟨x', mem_cons_of_mem _ hx', hy⟩
    | some y =>
      obtain ⟨zs, hzs, heq⟩ := Option.bind_eq_some_iff.mp hrest
      cases heq
      obtain ⟨hsub, hmem⟩ := ih hzs
      refine ⟨?_, ?_⟩
      . rw [map_cons, hf x y hfound]
        exact hsub.cons_cons _
      . intro z hz
        cases mem_cons.mp hz with
        | inl heq => exact ⟨x, mem_cons_self, heq ▸ hfound⟩
        | inr hz =>
          obtain ⟨x', hx', hz⟩ := hmem z hz
          exact ⟨x', mem_cons_of_mem _ hx', hz⟩

theorem runnable_of_readyBatch {ω : Type} {e : Engine ω} {d : Definition} {s : ExecutionState}
    {batch : List String} (hsane : d.Sane) (h : e.readyBatch d s = some batch)
    : batch.Nodup
        ∧ ∀ id ∈ batch, ∃ a, d.activity id = some a ∧ Runnable d s a ∧ a.activityType ≠ "wait" := by
  unfold readyBatch at h
  obtain ⟨hsub, hmem⟩ := filterMapM_sublist (g := fun a : ActivityDef => a.id) (by
    intro a id hid
    obtain ⟨ready, -, hready⟩ := Option.map_eq_some_iff.mp hid
    split at hready
    . exact (Option.some.inj hready).symm
    . cases hready) h
  refine ⟨?_, ?_⟩
  . apply hsub.nodup
    apply List.Nodup.sublist _ hsane.nodup
    exact List.Sublist.map _ (filter_sublist.trans filter_sublist)
  . intro id hid
    obtain ⟨a, ha, hready⟩ := hmem id hid
    obtain ⟨ready, hisReady, heq⟩ := Option.map_eq_some_iff.mp hready
    split at heq
    next htrue =>
      cases heq
      rw [htrue] at hisReady
      have hrun := runnable_of_isReady hsane (mem_of_mem_filter ha) hisReady
      have htype := of_mem_filter ha
      exact ⟨a, hrun.declared, hrun, by simp_all⟩
    next => cases heq

def slotId : Task ⊕ IsolatedOutcome → String
  | .inl task => task.activity.id
  | .inr outcome => outcome.id

theorem Holds.id_eq {ω : Type} {e : Engine ω} {a : ActivityDef} {slot : Task ⊕ IsolatedOutcome}
    (h : Holds e a slot)
    : slotId slot = a.id := by
  cases slot with
  | inl task => rw [slotId, h.1]
  | inr outcome => exact h.1

structure Raced {ω : Type} (e : Engine ω) (d : Definition) (s : ExecutionState)
    (slots : List (Task ⊕ IsolatedOutcome)) : Prop where
  nodup : (slots.map slotId).Nodup
  holds : ∀ slot ∈ slots, ∃ a, (Runnable d s a ∧ a.activityType ≠ "wait") ∧ Holds e a slot

theorem raced_start {ω : Type} {e : Engine ω} {d : Definition} {s : ExecutionState} {batch : List String}
    {slots : List (Task ⊕ IsolatedOutcome)} (hnodup : batch.Nodup)
    (hbatch : ∀ id ∈ batch, ∃ a, d.activity id = some a ∧ Runnable d s a ∧ a.activityType ≠ "wait")
    (h : batchTasks d s batch = some slots) : Raced e d s slots ∧ slots.map slotId = batch := by
  induction batch generalizing slots with
  | nil =>
    cases h
    exact ⟨⟨nodup_nil, nofun⟩, rfl⟩
  | cons id batch ih =>
    unfold batchTasks at h
    split at h
    next a record tasks ha hrecord htasks =>
      cases h
      obtain ⟨hraced, hids⟩ := ih (nodup_cons.mp hnodup).2
        (fun id' hid' => hbatch id' (mem_cons_of_mem _ hid')) htasks
      obtain ⟨a', ha', hrun⟩ := hbatch id mem_cons_self
      cases ha.symm.trans ha'
      have hmap (slot : Task ⊕ IsolatedOutcome) (hslot : slotId slot = a.id)
          : (slot :: tasks).map slotId = id :: batch := by
        rw [map_cons, hids, hslot, Definition.activity_id ha]
      refine ⟨⟨?_, ?_⟩, hmap _ rfl⟩
      . rw [hmap _ rfl]
        exact hnodup
      . intro slot hslot
        cases mem_cons.mp hslot with
        | inl heq =>
          rw [heq]
          exact ⟨a, hrun, rfl, nofun⟩
        | inr hslot => exact hraced.holds slot hslot
    next => cases h

theorem map_slotId_set {slots : List (Task ⊕ IsolatedOutcome)} {i : Nat} {slot slot' : Task ⊕ IsolatedOutcome}
    (hi : slots[i]? = some slot) (hid : slotId slot' = slotId slot)
    : (slots.set i slot').map slotId = slots.map slotId := by
  apply ext_getElem?
  intro j
  rw [map_set, getElem?_set]
  split
  next heq =>
    subst heq
    obtain ⟨hlt, -⟩ := List.getElem?_eq_some_iff.mp hi
    rw [if_pos (by simpa using hlt), getElem?_map, hi, hid, Option.map_some]
  next => rfl

theorem Raced.set {ω : Type} {e : Engine ω} {d : Definition} {s : ExecutionState} {slots : List (Task ⊕ IsolatedOutcome)}
    (h : Raced e d s slots) {i : Nat} {slot slot' : Task ⊕ IsolatedOutcome} (hi : slots[i]? = some slot)
    {a : ActivityDef} (hrun : Runnable d s a ∧ a.activityType ≠ "wait") (hslot : Holds e a slot)
    (hslot' : Holds e a slot')
    : Raced e d s (slots.set i slot') := by
  refine ⟨?_, ?_⟩
  . rw [map_slotId_set hi (hslot'.id_eq.trans hslot.id_eq.symm)]
    exact h.nodup
  . intro x hx
    cases mem_or_eq_of_mem_set hx with
    | inl hx => exact h.holds x hx
    | inr heq => exact ⟨a, hrun, heq ▸ hslot'⟩

theorem Raced.outcomes {ω : Type} {e : Engine ω} {d : Definition} {s : ExecutionState} {slots : List (Task ⊕ IsolatedOutcome)}
    (h : Raced e d s slots)
    : ((slots.filterMap Sum.getRight?).map (·.id)).Nodup
        ∧ ∀ outcome ∈ slots.filterMap Sum.getRight?,
          ∃ a, (Runnable d s a ∧ a.activityType ≠ "wait") ∧ Holds e a (.inr outcome) := by
  refine ⟨?_, ?_⟩
  . apply List.Nodup.sublist _ h.nodup
    clear h
    induction slots with
    | nil => exact List.Sublist.refl _
    | cons slot slots ih =>
      cases slot with
      | inl task => exact ih.cons _
      | inr outcome => exact ih.cons_cons _
  . intro outcome houtcome
    obtain ⟨slot, hslot, heq⟩ := mem_filterMap.mp houtcome
    cases slot with
    | inl task => cases heq
    | inr outcome' =>
      cases heq
      exact h.holds _ hslot

theorem dressed_insert {vars : Variables} {key : String} (hkey : key.toList.head? = some '_') (v : Value)
    : Dressed vars (vars.insert key v) := by
  intro key' hkey'
  rw [Map.getElem?_insert, if_neg]
  rintro rfl
  exact hkey' hkey

theorem dressed_erase {vars : Variables} {key : String} (hkey : key.toList.head? = some '_')
    : Dressed vars (vars.erase key) := by
  intro key' hkey'
  rw [Map.getElem?_erase, if_neg]
  rintro rfl
  exact hkey' hkey

theorem timerMarker_head (id : String) : (timerMarker id).toList.head? = some '_' := by
  have hhead : "__timer_set.".toList.head? = some '_' := by decide
  simp only [timerMarker, String.toList_append, head?_append, hhead]
  rfl

theorem forEachMarker_head (id : String) : (forEachMarker id).toList.head? = some '_' := by
  have hhead : "__for_each.".toList.head? = some '_' := by decide
  simp only [forEachMarker, String.toList_append, head?_append, hhead]
  rfl

namespace Course

variable {ω β : Type} {e : Engine ω} {K : Course e} {d : Definition} {s : ExecutionState}

theorem saved_keeps {α : Type} {Q : ExecutionState × α → Store → Prop} {ph : Phase} (a : α)
    (h : ∀ st, K.At ph .rest d s st → Q (s, a) st)
    : K.Keeps (K.At ph .rest d s) (do e.checkpoint s; return (s, a)) Q :=
  bind_keeps checkpoint_keeps fun _ => pure_keeps _ h

theorem stepped {st : Store} (step : Step) (h : K.At .onward .rest d s st) : K.Stepped d (s, step) st :=
  ⟨at_failing h, fun _ => ((K.onward _ st d s).mp h).2⟩

theorem stepped_failed {st : Store} (msg : String) (h : K.At .failing .rest d s st)
    : K.Stepped d (s, .failed msg) st :=
  ⟨h, fun hfailed => absurd rfl (hfailed msg)⟩

theorem sane_keeps {α : Type} {ph : Phase} {l : Layer} {m : Action ω α} {Q : α → Store → Prop}
    (h : d.Sane → K.Keeps (K.At ph l d s) m Q) : K.Keeps (K.At ph l d s) m Q :=
  given_keeps (fun st hst => K.sane ph l st d s hst) h

theorem applySkips_keeps (n : Nat)
    : K.Keeps (K.At .onward .rest d s) (e.applySkips d n s) (fun t => K.At .onward .rest d t) := by
  induction n generalizing s with
  | zero => exact pure_keeps _ fun _ h => h
  | succ n ih =>
    unfold applySkips
    apply ofOption_keeps
    intro found hfound
    cases found with
    | none => exact pure_keeps _ fun _ h => h
    | some id =>
      obtain ⟨a, -, -, hdead⟩ := firstId_some hfound
      obtain ⟨record, hrecord, hpending⟩ := pending_of_isDead hdead
      dsimp only
      rw [setActivity_eq hrecord]
      refine moved_onward (.settle ⟨hrecord, .inl hpending⟩ (.inl rfl) rfl) (emit_keeps rfl rfl ?_)
      intro version
      apply bind_keeps checkpoint_keeps
      intro _
      exact ih

theorem terminalActivityFailure_keeps {l : Layer} {a : ActivityDef} (hrun : Runnable d s a)
    (hl : l = .rest ∨ l = .busy a.id) (attempt : Nat) (msg : String)
    : K.Keeps (K.At .failing l d s) (e.terminalActivityFailure s a.id attempt msg) (K.Stepped d) := by
  obtain ⟨record, hrecord, hpending⟩ := hrun.pending
  unfold terminalActivityFailure
  apply recordOf_keeps hrecord
  refine moved_failing (.fail msg ⟨hrecord, .inl hpending⟩ hl rfl) (pay_keeps ?_)
  intro version
  exact saved_keeps _ fun st h => stepped_failed _ h

theorem failOnce_keeps {a : ActivityDef} (hrun : Runnable d s a) (msg : String)
    : K.Keeps (K.At .failing .rest d s) (e.failOnce s a.id msg) (K.Stepped d) := by
  obtain ⟨record, hrecord, -⟩ := hrun.pending
  unfold failOnce
  apply recordOf_keeps hrecord
  exact terminalActivityFailure_keeps hrun (.inl rfl) _ msg

theorem failed_keeps {l : Layer} {m : Action ω (ExecutionState × Step)}
    (h : K.Keeps (K.At .failing l d s) m (K.Stepped d)) : K.Keeps (K.At .onward l d s) m (K.Stepped d) :=
  pre_keeps (fun _ hst => at_failing hst) h

theorem completeActivity_keeps {l : Layer} {a : ActivityDef} (hrun : Runnable d s a)
    (hl : l = .rest ∨ l = .busy a.id) (record : ActivityRecord) {output : Value}
    (hsource : Source e s a output) {f : ExecutionState × Step → Action ω β} {R : β → Store → Prop}
    (hf : ∀ version, K.Keeps (K.At .onward .rest d { s.complete a.id record output with version })
      (f ({ s.complete a.id record output with version }, .completed)) R)
    : K.Keeps (K.At .onward l d s) (e.completeActivity s a.id record output >>= f) R := by
  unfold completeActivity
  rw [Prog.bind_assoc]
  refine moved_onward (.complete record hrun hl hsource) (pay_keeps ?_)
  intro version
  rw [Prog.bind_assoc]
  apply bind_keeps checkpoint_keeps
  intro _
  exact hf version

theorem completed_keeps {l : Layer} {a : ActivityDef} (hrun : Runnable d s a)
    (hl : l = .rest ∨ l = .busy a.id) (record : ActivityRecord) {output : Value}
    (hsource : Source e s a output)
    : K.Keeps (K.At .onward l d s) (e.completeActivity s a.id record output) (K.Stepped d) := by
  unfold completeActivity
  refine moved_onward (.complete record hrun hl hsource) (pay_keeps ?_)
  intro version
  exact saved_keeps _ fun st h => stepped _ h

theorem suspend_keeps {l : Layer} {a : ActivityDef} (hrun : Runnable d s a)
    (hl : l = .rest ∨ l = .busy a.id) (msg : String)
    : K.Keeps (K.At .onward l d s)
        (do e.checkpoint (s.setActivity a.id .ready); return (s.setActivity a.id .ready, .interrupted msg))
        (K.Stepped d) := by
  obtain ⟨record, hrecord, hpending⟩ := hrun.pending
  rw [setActivity_eq hrecord]
  have hmove : Move e d s l .rest (s.setRecord a.id { record with state := .ready }) :=
    .settle ⟨hrecord, .inl hpending⟩ hl rfl
  apply moved_onward hmove
  exact saved_keeps _ fun st h => stepped _ h

theorem runAttempts_keeps {a : ActivityDef} (htype : a.activityType ≠ "wait") (hrun : Runnable d s a)
    (policy : RetryPolicy) (gas : Nat)
    : K.Keeps (K.At .onward .rest d s) (e.runAttempts a policy gas s) (K.Stepped d) := by
  apply sane_keeps
  intro hsane
  induction gas generalizing s with
  | zero => exact halt_keeps
  | succ gas ih =>
    obtain ⟨record, hrecord, hpending⟩ := hrun.pending
    unfold runAttempts
    apply recordOf_keeps hrecord
    dsimp only
    rw [setActivity_eq hrecord]
    have hmove : Move e d s .rest (.busy a.id) (s.setRecord a.id { record with state := .running }) :=
      .run ⟨hrecord, .inl hpending⟩
    have hrun := hrun.again hsane hmove rfl
    have hrecord := activity?_setRecord_self s a.id { record with state := .running }
    apply moved_onward hmove
    clear hmove
    generalize s.setRecord a.id { record with state := .running } = t at hrun hrecord
    apply emit_keeps rfl rfl
    intro version
    have hrun := hrun.dress t.vars version
    apply callExecutor_keeps
    . exact fun st reply _ h => K.calls _ st d _ _ reply h (.activity hrun _ _)
    rintro ⟨progress, reply⟩ hanswer
    apply emitAll_keeps _ rfl
    . intro version'
      have hrun := hrun.dress t.vars version'
      have hrecord : { t with version := version' }.activity? a.id = _ := hrecord
      generalize { t with version := version' } = t at hrun hrecord
      apply recordOf_keeps hrecord
      cases reply with
      | panic reason => exact halt_keeps
      | output output =>
        dsimp only
        split
        . exact failed_keeps (terminalActivityFailure_keeps hrun (.inr rfl) _ _)
        next hsize => exact completed_keeps hrun (.inr rfl) _ (.sized htype hsize)
      | error err =>
        cases err with
        | interrupted msg => exact suspend_keeps hrun (.inr rfl) msg
        | permanent msg => exact failed_keeps (terminalActivityFailure_keeps hrun (.inr rfl) _ _)
        | retryable msg =>
          dsimp only
          split
          . exact failed_keeps (terminalActivityFailure_keeps hrun (.inr rfl) _ _)
          . have hmove : Move e d t (.busy a.id) .rest (t.setRecord a.id
                { record with state := .retrying, attempts := record.attempts + 1, lastError := some msg }) :=
              .settle ⟨hrecord, .inl rfl⟩ (.inr rfl) rfl
            have hrun := hrun.again hsane hmove rfl
            refine moved_onward hmove (emit_keeps rfl rfl ?_)
            intro version''
            apply bind_keeps checkpoint_keeps
            intro _
            exact ih (hrun.dress _ version'')
    . intro event hevent
      obtain ⟨message, -, rfl⟩ := mem_map.mp hevent
      rfl

theorem dressed_keeps {α : Type} {ph : Phase} {l : Layer} {m : Action ω α} {Q : α → Store → Prop}
    {vars : Variables} (hvars : Dressed s.vars vars) (h : K.Keeps (K.At ph l d { s with vars }) m Q)
    : K.Keeps (K.At ph l d s) m Q :=
  pre_keeps (fun st hst => K.dress ph l st d s vars s.version hst hvars) h

theorem registerTimer_keeps {α : Type} {f : ExecutionState → Action ω α} {R : α → Store → Prop}
    {ph : Phase} (a : ActivityDef) (spec : WaitSpec)
    (hf : ∀ vars version, K.Keeps (K.At ph .rest d { s with vars, version })
      (f { s with vars, version }) R)
    : K.Keeps (K.At ph .rest d s) (e.registerTimer s a spec >>= f) R := by
  have hsame : K.Keeps (K.At ph .rest d s) (f s) R := hf s.vars s.version
  unfold registerTimer
  split
  . split
    . exact hsame
    . split
      . rw [Prog.bind_assoc]
        apply gets_keeps _ (fun _ _ => rfl)
        intro w
        rw [Prog.bind_assoc]
        apply timers_keeps
        . exact ⟨fun _ _ => rfl, fun _ => rfl⟩
        . exact fun _ => rfl
        . refine dressed_keeps (dressed_insert (timerMarker_head _) _) (emit_keeps rfl rfl ?_)
          exact hf _
      . exact fail_keeps _ (not_refusal_invalid _)
  . exact hsame

theorem clearTimer_keeps {α : Type} {f : ExecutionState → Action ω α} {R : α → Store → Prop}
    {ph : Phase} {l : Layer} (spec : WaitSpec)
    (hf : ∀ vars, K.Keeps (K.At ph l d { s with vars }) (f { s with vars }) R)
    : K.Keeps (K.At ph l d s) (e.clearTimer s spec >>= f) R := by
  unfold clearTimer
  split
  next id _ =>
    have hrest : K.Keeps (K.At ph l d s) (f (s.removeVariable (timerMarker id))) R :=
      dressed_keeps (dressed_erase (timerMarker_head id)) (hf (s.vars.erase (timerMarker id)))
    split
    . rw [Prog.bind_assoc]
      apply timers_keeps
      . exact ⟨fun _ _ => rfl, fun _ => rfl⟩
      . exact fun _ => rfl
      . exact hrest
    . exact hrest
  . exact hf s.vars

theorem fromInputs_refusal {id : String} {inputs : Value} {err : Error}
    (h : WaitSpec.fromInputs id inputs = .error err) : ¬Refusal err := by
  have hduration (v : Value) (err : Error) (h : parseDurationMs v = .error err) : ¬Refusal err := by
    unfold parseDurationMs at h
    split at h
    . cases h
    . split at h
      . dsimp only at h
        split at h
        . cases h
          exact not_refusal_invalid _
        . split at h
          . cases h
            exact not_refusal_invalid _
          . split at h
            . cases h
              exact not_refusal_invalid _
            . cases h
      . cases h
        exact not_refusal_invalid _
  have hdeadline (v : Value) (err : Error) (h : WaitSpec.deadlineOf v = .error err) : ¬Refusal err := by
    unfold WaitSpec.deadlineOf at h
    split at h
    next after _ =>
      cases hafter : parseDurationMs after with
      | ok ms =>
        rw [hafter] at h
        cases h
      | error err' =>
        rw [hafter] at h
        cases h
        exact hduration after err hafter
    . split at h
      . cases h
      . cases h
        exact not_refusal_invalid _
  unfold WaitSpec.fromInputs at h
  split at h
  . cases h
  . split at h
    . cases h
    next fields _ =>
      cases hfields : WaitSpec.deadlineOf (.object fields) with
      | ok deadline =>
        rw [hfields] at h
        cases h
      | error err' =>
        rw [hfields] at h
        cases h
        exact hdeadline _ err hfields
    . cases h
      exact not_refusal_invalid _

theorem runWait_keeps {a : ActivityDef} (htype : a.activityType = "wait") (hrun : Runnable d s a)
    : K.Keeps (K.At .onward .rest d s) (e.runWait s a) (K.Stepped d) := by
  obtain ⟨record, hrecord, hpending⟩ := hrun.pending
  unfold runWait
  apply ofExcept_keeps
  . exact fun err h => fromInputs_refusal h
  intro spec hspec
  split
  next payload hpayload =>
    apply recordOf_keeps hrecord
    refine moved_onward (.complete record hrun (.inl rfl) (.delivered htype hspec hpayload))
      (clearTimer_keeps spec ?_)
    intro vars
    apply pay_keeps
    intro version
    exact saved_keeps _ fun st h => stepped _ h
  next =>
    apply registerTimer_keeps
    intro vars version
    rw [setActivity_eq (s := { s with vars, version }) hrecord]
    refine moved_onward (.settle ⟨hrecord, .inl hpending⟩ (.inl rfl) rfl) (emit_keeps rfl rfl ?_)
    intro version'
    exact saved_keeps _ fun st h => stepped _ h

theorem advance_keeps {a : ActivityDef} {task : Task} {kind : String}
    {f : Task ⊕ IsolatedOutcome → Action ω β} {R : β → Store → Prop}
    (hkind : kind = "activity" ∨ kind = "for_each item") (hholds : Holds e a (.inl task))
    (hcall : ∀ vars attempt, Callable d s (a.context vars attempt))
    (hf : ∀ slot, Holds e a slot → K.Keeps (K.At .onward .rest d s) (f slot) R)
    : K.Keeps (K.At .onward .rest d s) (e.advance s.executionId kind task >>= f) R := by
  unfold advance
  rw [Prog.bind_assoc]
  apply callExecutor_keeps
  . intro st reply _ h
    rw [hholds.1]
    exact K.calls _ st d _ _ reply h (hcall _ _)
  . rintro ⟨progress, reply⟩ hanswer
    apply ofExcept_keeps
    . exact fun err herr => settle_refusal hkind herr
    . exact fun slot hslot => hf slot (holds_settle hholds hanswer hslot)

theorem fanOut_keeps {a : ActivityDef} {spec : ForEachSpec}
    {launch : Nat → Nat × (Task ⊕ IsolatedOutcome)}
    (hlaunch : ∀ i, (launch i).1 = i ∧ Holds e (spec.instance a.id i) (launch i).2) (gas : Nat)
    {f : FanOut} (hf : Fanned e s a spec f)
    : K.Keeps (K.At .onward .rest d s) (e.fanOut s.executionId spec launch gas f)
        (fun f' st => K.At .onward .rest d s st ∧ Fanned e s a spec f') := by
  induction gas generalizing f with
  | zero => exact halt_keeps
  | succ gas ih =>
    unfold fanOut
    split
    . exact pure_keeps _ fun _ h => ⟨h, hf⟩
    . apply pick_keeps
      intro k
      split
      next index task hpicked =>
        have hmem := mem_of_getElem? hpicked
        have hindex : Outstanding s a.id index := by
          apply hf.outstanding
          apply mem_append_left
          apply mem_append_left
          exact mem_map.mpr ⟨_, hmem, rfl⟩
        apply advance_keeps (.inr rfl) (hf.inFlight _ hmem)
        . exact fun vars attempt => .item hindex spec vars attempt
        . exact fun slot hslot => ih (hf.set hpicked hslot)
      next index outcome hpicked => exact ih (hf.join hlaunch hpicked)
      next => exact halt_keeps

theorem commitFailure_keeps {outcome : IsolatedOutcome} {msg : String} {record : ActivityRecord}
    {f : ExecutionState → Action ω β} {R : β → Store → Prop}
    (hrecord : s.activity? outcome.id = some record) (hchange : Changeable s outcome.id record)
    (hf : ∀ version, K.Keeps
      (K.At .onward .rest d { s.setRecord outcome.id
        { record with attempts := outcome.attempts, state := .failed, lastError := some msg } with version })
      (f { s.setRecord outcome.id
        { record with attempts := outcome.attempts, state := .failed, lastError := some msg } with version })
      R)
    : K.Keeps (K.At .onward (.busy outcome.id) d s) (e.commitFailure s outcome msg >>= f) R := by
  unfold commitFailure
  rw [Prog.bind_assoc]
  apply recordOf_keeps hrecord
  rw [Prog.bind_assoc]
  refine moved_onward (.fail msg hchange (.inr rfl) rfl) (pay_keeps ?_)
  intro version
  rw [Prog.bind_assoc]
  apply bind_keeps checkpoint_keeps
  intro _
  exact hf version

theorem commitInterrupt_keeps {outcome : IsolatedOutcome} {f : ExecutionState → Action ω β}
    {R : β → Store → Prop} {record : ActivityRecord} (hchange : Changeable s outcome.id record)
    (hf : K.Keeps (K.At .onward .rest d (s.setRecord outcome.id { record with state := .ready }))
      (f (s.setRecord outcome.id { record with state := .ready })) R)
    : K.Keeps (K.At .onward (.busy outcome.id) d s) (e.commitInterrupt s outcome >>= f) R := by
  unfold commitInterrupt
  rw [Prog.bind_assoc, setActivity_eq hchange.1]
  have hmove : Move e d s (.busy outcome.id) .rest (s.setRecord outcome.id { record with state := .ready }) :=
    .settle hchange (.inr rfl) rfl
  apply moved_onward hmove
  apply bind_keeps checkpoint_keeps
  intro _
  exact hf

structure Spared (d : Definition) (a : ActivityDef) (index : Nat) (s t : ExecutionState) : Prop where
  runnable : Runnable d t a
  others : ∀ i, index ≠ i → Outstanding s a.id i → Outstanding t a.id i

theorem Spared.setItem {l l' : Layer} {a : ActivityDef} {index : Nat} {t : ExecutionState}
    (hsane : d.Sane) (h : Spared d a index s t) {r : ActivityRecord}
    (hmove : Move e d t l l' (t.setRecord (instanceId a.id index) r))
    : Spared d a index s (t.setRecord (instanceId a.id index) r) :=
  ⟨h.runnable.setItem hsane hmove, fun i hne hi => (h.others i hne hi).setRecord hne r⟩

theorem Spared.dress {a : ActivityDef} {index : Nat} {t : ExecutionState} (h : Spared d a index s t)
    (version : Nat) : Spared d a index s { t with version } :=
  ⟨h.runnable.dress t.vars version, h.others⟩

theorem commitItem_keeps {a : ActivityDef} {index : Nat} {outcome : IsolatedOutcome} {spec : ForEachSpec}
    (hrun : Runnable d s a) (hindex : Outstanding s a.id index)
    (houtcome : Holds e (spec.instance a.id index) (.inr outcome)) (v : Verdicts)
    : K.Keeps (K.At .onward .rest d s) (e.commitItem s v index outcome)
        (fun r st => K.At .onward .rest d r.1 st ∧ Spared d a index s r.1) := by
  apply sane_keeps
  intro hsane
  obtain ⟨hid, hevents, hanswer⟩ := houtcome
  have hid : outcome.id = instanceId a.id index := hid
  obtain ⟨record, hrecord, hstate⟩ := hindex
  unfold commitItem
  rw [hid, setActivity_eq hrecord]
  have hmove : Move e d s .rest (.busy (instanceId a.id index))
      (s.setRecord (instanceId a.id index) { record with state := .running }) :=
    .run ⟨hrecord, .inr ⟨hstate, a.id, index, rfl⟩⟩
  apply moved_onward hmove
  have hself : Spared d a index s s := ⟨hrun, fun _ _ h => h⟩
  have hspared := hself.setItem hsane hmove
  have hrunning := activity?_setRecord_self s (instanceId a.id index)
    { record with state := .running }
  clear hmove
  generalize s.setRecord (instanceId a.id index) { record with state := .running } = t at hspared hrunning
  apply emitAll_keeps hevents rfl
  intro version
  have hspared := hspared.dress version
  have hchange : Changeable { t with version } (instanceId a.id index) { record with state := .running } :=
    ⟨hrunning, .inl rfl⟩
  generalize { t with version } = t at hspared hchange
  split
  next output hresult =>
    apply recordOf_keeps hchange.1
    have hmove : Move e d t _ _ _ := .completeItem outcome.attempts hchange (hanswer output hresult)
    refine moved_onward hmove (pay_keeps ?_)
    intro version
    exact saved_keeps _ fun st h => ⟨h, (hspared.setItem hsane hmove).dress version⟩
  next msg _ =>
    have hmove : Move e d t (.busy (instanceId a.id index)) _ (t.setRecord (instanceId a.id index)
        { record with attempts := outcome.attempts, state := .failed, lastError := some msg }) :=
      .fail msg hchange (.inr rfl) rfl
    have hspared := hspared.setItem hsane hmove
    clear hmove
    rw [← hid] at hchange hspared ⊢
    apply commitFailure_keeps hchange.1 hchange
    intro version
    exact pure_keeps _ fun st h => ⟨h, hspared.dress version⟩
  next msg _ =>
    have hmove : Move e d t (.busy (instanceId a.id index)) .rest (t.setRecord (instanceId a.id index)
        { record with state := .ready }) :=
      .settle hchange (.inr rfl) rfl
    have hspared := hspared.setItem hsane hmove
    clear hmove
    rw [← hid] at hchange hspared ⊢
    apply commitInterrupt_keeps hchange
    exact pure_keeps _ fun st h => ⟨h, hspared⟩

theorem commitItems_keeps {a : ActivityDef} {spec : ForEachSpec}
    {outcomes : List (Nat × IsolatedOutcome)} (hrun : Runnable d s a)
    (hnodup : (outcomes.map Prod.fst).Nodup) (hindices : ∀ x ∈ outcomes, Outstanding s a.id x.1)
    (hholds : ∀ x ∈ outcomes, Holds e (spec.instance a.id x.1) (.inr x.2)) (v : Verdicts)
    : K.Keeps (K.At .onward .rest d s) (e.commitItems s v outcomes)
        (fun r st => K.At .onward .rest d r.1 st ∧ Runnable d r.1 a) := by
  induction outcomes generalizing s v with
  | nil => exact pure_keeps _ fun st h => ⟨h, hrun⟩
  | cons x outcomes ih =>
    rw [map_cons, nodup_cons] at hnodup
    unfold commitItems
    apply bind_keeps
    . exact commitItem_keeps hrun (hindices x mem_cons_self) (hholds x mem_cons_self) v
    . rintro ⟨t, v'⟩
      apply given_keeps fun st h => h.2
      intro hspared
      apply pre_keeps fun st h => h.1
      apply ih hspared.runnable hnodup.2
      . intro y hy
        apply hspared.others
        . intro heq
          exact hnodup.1 (heq ▸ mem_map.mpr ⟨y, hy, rfl⟩)
        . exact hindices y (mem_cons_of_mem _ hy)
      . exact fun y hy => hholds y (mem_cons_of_mem _ hy)

theorem completeForEach_keeps {a : ActivityDef} (htype : a.activityType ≠ "wait") (hrun : Runnable d s a)
    (outputs : List Value)
    : K.Keeps (K.At .onward .rest d s) (e.completeForEach s a.id outputs) (K.Stepped d) := by
  unfold completeForEach
  split
  . exact failed_keeps (failOnce_keeps hrun _)
  next hsize =>
    obtain ⟨record, hrecord, -⟩ := hrun.pending
    apply recordOf_keeps hrecord
    exact completed_keeps hrun (.inl rfl) _ (.sized htype hsize)

theorem finishForEach_keeps {a : ActivityDef} (htype : a.activityType ≠ "wait") (hrun : Runnable d s a)
    (items : List Value) (f : FanOut) (v : Verdicts)
    : K.Keeps (K.At .onward .rest d s) (e.finishForEach s a items f v) (K.Stepped d) := by
  unfold finishForEach
  split
  . exact failed_keeps (failOnce_keeps hrun _)
  . exact failed_keeps (failOnce_keeps hrun _)
  . exact suspend_keeps hrun (.inl rfl) _
  . apply dressed_keeps (dressed_erase (forEachMarker_head a.id))
    exact completeForEach_keeps htype (hrun.dress _ s.version) _

theorem addInstances_at {st : Store} (id : String) (indices : List Nat) (h : K.At .onward .rest d s st)
    : K.At .onward .rest d (addInstances id indices s) st := by
  induction indices generalizing s with
  | nil => exact h
  | cons index indices ih =>
    unfold addInstances
    apply ih
    split
    . exact h
    next hnone => exact move_onward h (.expand id index hnone)

theorem fanned_start {a : ActivityDef} {spec : ForEachSpec} {launch : Nat → Nat × (Task ⊕ IsolatedOutcome)}
    (hlaunch : ∀ i, (launch i).1 = i ∧ Holds e (spec.instance a.id i) (launch i).2) {pending : List Nat}
    (hnodup : pending.Nodup) (hpending : ∀ i ∈ pending, Outstanding s a.id i) (n : Nat)
    : Fanned e s a spec { inFlight := (pending.take n).map launch, queue := pending.drop n } := by
  have hindices : ((pending.take n).map launch).map Prod.fst ++ pending.drop n ++ ([] : List Nat) = pending := by
    have hfst : (Prod.fst ∘ launch) = id := funext fun i => (hlaunch i).1
    rw [map_map, hfst, map_id, append_nil, take_append_drop]
  refine ⟨?_, ?_, ?_, nofun⟩
  . show (_ ++ _ ++ ([] : List Nat)).Nodup
    rw [hindices]
    exact hnodup
  . show ∀ i ∈ _ ++ _ ++ ([] : List Nat), _
    rw [hindices]
    exact hpending
  . intro x hx
    obtain ⟨i, -, rfl⟩ := mem_map.mp hx
    rw [(hlaunch i).1]
    exact (hlaunch i).2

theorem runItems_keeps {a : ActivityDef} (htype : a.activityType ≠ "wait") (hrun : Runnable d s a)
    (gas : Nat) (spec : ForEachSpec) (items : List Value)
    : K.Keeps (K.At .onward .rest d s) (e.runItems d gas s a spec items) (K.Stepped d) := by
  apply sane_keeps
  intro hsane
  have hpending (i : Nat) := @outstanding_of_pending s a.id items.length i
  have hnodup : (pendingItems (addInstances a.id (range items.length) s) a.id
      items.length).Nodup :=
    List.Nodup.filter _ nodup_range
  have hrun := addInstances_runnable e hsane (range items.length) hrun a.id
  unfold runItems
  apply pre_keeps fun st h => addInstances_at a.id (range items.length) h
  generalize addInstances a.id (range items.length) s = t at hpending hnodup hrun
  have hlaunch (i : Nat) : (launch t a spec ((spec.body.retry.or d.spec.retry).getD {}) items i).1 = i
      ∧ Holds e (spec.instance a.id i)
        (launch t a spec ((spec.body.retry.or d.spec.retry).getD {}) items i).2 :=
    ⟨rfl, rfl, nofun⟩
  apply bind_keeps (fanOut_keeps hlaunch gas (fanned_start hlaunch hnodup hpending spec.maxConcurrent))
  intro f
  apply given_keeps fun st h => h.2
  intro hfanned
  have hsorted := mergeSort_perm f.joined (fun x y => x.1 ≤ y.1)
  apply pre_keeps fun st h => h.1
  apply bind_keeps
  . have hholds (x : Nat × IsolatedOutcome) (hx : x ∈ f.joined.mergeSort fun x y => x.1 ≤ y.1)
        : Holds e (spec.instance a.id x.1) (.inr x.2) :=
      hfanned.joined x (hsorted.mem_iff.mp hx)
    refine commitItems_keeps hrun ?_ ?_ hholds _
    . apply (hsorted.map Prod.fst).nodup_iff.mpr
      exact (nodup_append.mp hfanned.nodup).2.1
    . intro x hx
      apply hfanned.outstanding
      apply mem_append_right
      exact mem_map.mpr ⟨x, hsorted.mem_iff.mp hx, rfl⟩
  . rintro ⟨u, v⟩
    apply given_keeps fun st h => h.2
    intro hrun
    apply pre_keeps fun st h => h.1
    exact finishForEach_keeps htype hrun items f v

theorem positive_refusal {a : ActivityDef} {field : String} {fallback : Nat} {bound : Option Nat}
    {err : Error} (h : positive a field fallback bound = .error err) : ¬Refusal err := by
  unfold positive at h
  split at h
  . cases h
    exact not_refusal_invalid _
  . cases h
  . cases h

theorem parse_refusal {a : ActivityDef} {err : Error}
    (h : ForEachSpec.parse e.platform a = .error err) : ¬Refusal err := by
  simp only [ForEachSpec.parse, bind, Except.bind, throw, throwThe, MonadExceptOf.throw, pure,
    Except.pure] at h
  repeat' split at h
  all_goals first
    | cases h; exact not_refusal_invalid _
    | cases h; exact positive_refusal (by assumption)
    | cases h

theorem runForEach_keeps {a : ActivityDef} (htype : a.activityType ≠ "wait") (hrun : Runnable d s a)
    (gas : Nat)
    : K.Keeps (K.At .onward .rest d s) (e.runForEach d gas s a) (K.Stepped d) := by
  unfold runForEach
  apply ofExcept_keeps
  . exact fun err h => parse_refusal h
  intro spec _
  split
  . exact failed_keeps (failOnce_keeps hrun _)
  next isNew items _ =>
    have hrest (vars : Variables)
        : K.Keeps (K.At .onward .rest d { s with vars })
          (if items = [] then
            e.completeForEach (removeVariable { s with vars } (forEachMarker a.id)) a.id []
          else e.runItems d gas { s with vars } a spec items) (K.Stepped d) := by
      have hrun := hrun.dress vars s.version
      split
      . apply dressed_keeps (dressed_erase (forEachMarker_head a.id))
        exact completeForEach_keeps htype (hrun.dress _ s.version) _
      . exact runItems_keeps htype hrun gas spec items
    cases isNew with
    | false => exact hrest s.vars
    | true =>
      apply dressed_keeps (dressed_insert (forEachMarker_head a.id) (.array items))
      apply bind_keeps checkpoint_keeps
      intro _
      exact hrest _

theorem race_keeps {slots : List (Task ⊕ IsolatedOutcome)} (gas : Nat) (hraced : Raced e d s slots)
    : K.Keeps (K.At .onward .rest d s) (e.race s.executionId gas slots)
        (fun outcomes st => K.At .onward .rest d s st
          ∧ ∃ slots, Raced e d s slots ∧ outcomes = slots.filterMap Sum.getRight?) := by
  induction gas generalizing slots with
  | zero => exact halt_keeps
  | succ gas ih =>
    unfold race
    dsimp only
    split
    . exact pure_keeps _ fun _ h => ⟨h, slots, hraced, rfl⟩
    . apply pick_keeps
      intro k
      split
      next i task hpicked =>
        obtain ⟨j, -, hslot⟩ := Option.bind_eq_some_iff.mp hpicked
        obtain ⟨task', htask, heq⟩ := Option.map_eq_some_iff.mp hslot
        cases heq
        obtain ⟨slot, hi, hleft⟩ := Option.bind_eq_some_iff.mp htask
        cases slot with
        | inr outcome => cases hleft
        | inl task =>
          cases hleft
          obtain ⟨a, hrun, hholds⟩ := hraced.holds _ (mem_of_getElem? hi)
          apply advance_keeps (.inl rfl) hholds
          . exact fun vars attempt => .activity hrun.1 vars attempt
          . exact fun slot hslot => ih (hraced.set hi hrun hholds hslot)
      next => exact halt_keeps

theorem commitActivity_keeps {a : ActivityDef} {outcome : IsolatedOutcome}
    (htype : a.activityType ≠ "wait") (hrun : Runnable d s a) (houtcome : Holds e a (.inr outcome))
    (v : Verdicts)
    : K.Keeps (K.At .onward .rest d s) (e.commitActivity s v outcome)
        (fun r st => K.At .onward .rest d r.1 st
          ∧ ∀ b, a.id ≠ b.id → Runnable d s b → Runnable d r.1 b) := by
  apply sane_keeps
  intro hsane
  obtain ⟨hid, hevents, hanswer⟩ := houtcome
  obtain ⟨record, hrecord, hpending⟩ := hrun.pending
  unfold commitActivity
  rw [hid, setActivity_eq hrecord]
  have hmove : Move e d s .rest (.busy a.id) (s.setRecord a.id { record with state := .running }) :=
    .run ⟨hrecord, .inl hpending⟩
  have hrun := hrun.again hsane hmove rfl
  apply moved_onward hmove
  have hothers (b : ActivityDef) (hne : a.id ≠ b.id) (hb : Runnable d s b)
      : Runnable d (s.setRecord a.id { record with state := .running }) b :=
    hb.other hsane hmove (activity?_setRecord_of_ne s _ hne)
  have hrunning := activity?_setRecord_self s a.id { record with state := .running }
  clear hmove
  generalize s.setRecord a.id { record with state := .running } = t at hrun hothers hrunning
  apply emitAll_keeps hevents rfl
  intro version
  have hrun := hrun.dress t.vars version
  have hothers (b : ActivityDef) (hne : a.id ≠ b.id) (hb : Runnable d s b)
      : Runnable d { t with version } b :=
    (hothers b hne hb).dress t.vars version
  have hchange : Changeable { t with version } a.id { record with state := .running } :=
    ⟨hrunning, .inl rfl⟩
  generalize { t with version } = t at hrun hothers hchange
  have hset {r : ActivityRecord} {l' : Layer} (hmove : Move e d t (.busy a.id) l' (t.setRecord a.id r))
      (version : Nat) (b : ActivityDef) (hne : a.id ≠ b.id) (hb : Runnable d s b)
      : Runnable d { t.setRecord a.id r with version } b :=
    ((hothers b hne hb).other hsane hmove (activity?_setRecord_of_ne t r hne)).dress _ version
  split
  next output hresult =>
    apply recordOf_keeps hchange.1
    have hsource : Source e t a output := .answered htype (hanswer output hresult)
    apply completeActivity_keeps hrun (.inr rfl) _ hsource
    intro version
    apply pure_keeps
    intro st h
    refine ⟨h, ?_⟩
    intro b hne hb
    have hmove := Move.complete { record with state := .running, attempts := outcome.attempts } hrun
      (.inr rfl) hsource
    refine ((hothers b hne hb).other hsane hmove ?_).dress _ version
    rw [activity?_complete, if_neg hne]
  next msg _ =>
    have hset := hset (r := { record with attempts := outcome.attempts, state := .failed, lastError := some msg })
      (.fail msg hchange (.inr rfl) rfl)
    rw [← hid] at hchange hset ⊢
    apply commitFailure_keeps hchange.1 hchange
    intro version
    exact pure_keeps _ fun st h => ⟨h, hset version⟩
  next msg _ =>
    have hset := hset (r := { record with state := .ready }) (.settle hchange (.inr rfl) rfl)
    rw [← hid] at hchange hset ⊢
    apply commitInterrupt_keeps hchange
    exact pure_keeps _ fun st h => ⟨h, hset t.version⟩

theorem commitActivities_keeps {outcomes : List IsolatedOutcome}
    (hnodup : (outcomes.map (·.id)).Nodup)
    (hruns : ∀ outcome ∈ outcomes, ∃ a, (Runnable d s a ∧ a.activityType ≠ "wait")
      ∧ Holds e a (.inr outcome)) (v : Verdicts)
    : K.Keeps (K.At .onward .rest d s) (e.commitActivities s v outcomes) (fun r => K.At .onward .rest d r.1) := by
  induction outcomes generalizing s v with
  | nil => exact pure_keeps _ fun _ h => h
  | cons outcome outcomes ih =>
    rw [map_cons, nodup_cons] at hnodup
    obtain ⟨a, hrun, hholds⟩ := hruns outcome mem_cons_self
    unfold commitActivities
    apply bind_keeps (commitActivity_keeps hrun.2 hrun.1 hholds v)
    rintro ⟨t, v'⟩
    apply given_keeps fun st h => h.2
    intro hothers
    apply pre_keeps fun st h => h.1
    apply ih hnodup.2
    intro outcome' houtcome'
    obtain ⟨b, hb, hholds'⟩ := hruns outcome' (mem_cons_of_mem _ houtcome')
    refine ⟨b, ⟨hothers b ?_ hb.1, hb.2⟩, hholds'⟩
    intro heq
    apply hnodup.1
    have hid : outcome.id = a.id := hholds.id_eq
    have hid' : outcome'.id = b.id := hholds'.id_eq
    rw [hid, heq, ← hid']
    exact mem_map.mpr ⟨outcome', houtcome', rfl⟩

theorem runReadyBatch_keeps {batch : List String} (hbatch : e.readyBatch d s = some batch) (gas : Nat)
    : K.Keeps (K.At .onward .rest d s) (e.runReadyBatch d gas s batch) (fun r => K.At .onward .rest d r.1) := by
  apply sane_keeps
  intro hsane
  obtain ⟨hnodup, hruns⟩ := runnable_of_readyBatch hsane hbatch
  unfold runReadyBatch
  apply ofOption_keeps
  intro slots hslots
  apply bind_keeps (race_keeps gas (raced_start hnodup hruns hslots).1)
  intro outcomes
  apply given_keeps fun st h => h.2
  rintro ⟨slots', hraced, rfl⟩
  obtain ⟨hnodup', hruns'⟩ := hraced.outcomes
  apply pre_keeps fun st h => h.1
  apply bind_keeps (commitActivities_keeps hnodup' hruns' {})
  rintro ⟨t, v⟩
  dsimp only
  split
  . exact pure_keeps _ fun _ h => h
  . exact pure_keeps _ fun _ h => h
  . exact pure_keeps _ fun _ h => h

section

variable {drive : Definition → ExecutionState → Action ω (RunOutcome × ExecutionState)}

def Clean : RunOutcome → Prop
  | .completed | .interrupted _ => True
  | .failed _ | .compensated _ => False

def Nests (K : Course e) (drive : Definition → ExecutionState → Action ω (RunOutcome × ExecutionState))
    (d : Definition) : Prop :=
  ∀ s a child, d.activity a.id = some a → e.Resolves a child →
    K.Keeps (K.At .onward .rest d s) (e.runChild drive child (childId s a) a.inputs)
      (fun r st => K.At .failing .rest d s st ∧ (Clean r.1 → K.whole st))

theorem settleChild_keeps {a : ActivityDef} (htype : a.activityType = "workflow")
    (hrun : Runnable d s a) (childName : String)
    (outcome : RunOutcome) (child : ExecutionState)
    : K.Keeps (fun st => K.At .failing .rest d s st ∧ (Clean outcome → K.whole st))
        (e.settleChild s a childName outcome child) (K.Stepped d) := by
  unfold settleChild
  cases outcome with
  | completed =>
    obtain ⟨record, hrecord, -⟩ := hrun.pending
    apply pre_keeps fun st h => at_onward h.1 (h.2 trivial)
    apply recordOf_keeps hrecord
    exact completed_keeps hrun (.inl rfl) _ (.nested htype child rfl)
  | failed msg | compensated msg => exact pre_keeps (fun st h => h.1) (failOnce_keeps hrun _)
  | interrupted msg =>
    apply pre_keeps fun st h => at_onward h.1 (h.2 trivial)
    exact suspend_keeps hrun (.inl rfl) _

theorem runSubworkflow_keeps (hnests : Nests K drive d) {a : ActivityDef}
    (htype : a.activityType = "workflow") (hrun : Runnable d s a)
    : K.Keeps (K.At .onward .rest d s) (e.runSubworkflow drive s a) (K.Stepped d) := by
  unfold runSubworkflow
  split
  . exact fail_keeps _ (not_refusal_invalid _)
  next resolver hresolver =>
    split
    . exact fail_keeps _ (not_refusal_invalid _)
    next childName hname =>
      apply gets_keeps _ (fun _ _ => rfl)
      intro w
      split
      . exact fail_keeps _ (not_refusal_invalid _)
      next child hchild =>
        dsimp only
        split
        . exact failed_keeps (failOnce_keeps hrun _)
        . apply bind_keeps (hnests s a child hrun.declared ⟨htype, resolver, _, _, hresolver, hname, hchild⟩)
          rintro ⟨outcome, childState⟩
          exact settleChild_keeps htype hrun childName outcome childState

theorem runActivity_keeps (hnests : Nests K drive d) (gas : Nat) {id : String} {a : ActivityDef}
    (ha : d.activity id = some a) (hrun : Runnable d s a)
    : K.Keeps (K.At .onward .rest d s) (e.runActivity drive d gas s id) (K.Stepped d) := by
  unfold runActivity
  apply ofOption_keeps
  intro a' ha'
  cases ha.symm.trans ha'
  split
  next hwait => exact runWait_keeps hwait hrun
  next hwait =>
    split
    next hworkflow => exact runSubworkflow_keeps hnests hworkflow hrun
    next =>
      split
      . exact runForEach_keeps hwait hrun gas
      . exact runAttempts_keeps hwait hrun _ gas

end

end Wovyr.Workflow.Course
