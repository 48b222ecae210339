import Wovyr.Lib.Run
import Wovyr.Server.Webhooks

/-!
This module contains what becomes of a delivery once it is journaled, over any number of processes.
-/

namespace Wovyr.Server.Webhooks.Dispatcher

open List List.Subset

variable {maxAttempts : Nat} {s : Dispatcher}

def Kept (s : Dispatcher) (outbox : WebhookOutbox) (entry : OutboxEntry) : Prop :=
  outbox.pending[entry.deliveryId]? = some entry
    ∨ (∃ letter ∈ outbox.dlq, letter.serial = entry.serial)
    ∨ entry.serial ∈ s.accepted
    ∨ entry.serial ∈ s.cancelled

structure NoLoss (s : Dispatcher) : Prop where
  outbox : ∀ entry ∈ s.journaled, s.Kept s.outbox entry
  disk : ∀ entry ∈ s.journaled, s.Kept s.disk entry
  posts : ∀ post ∈ s.posts, ∃ entry ∈ s.journaled,
    entry.serial = post.serial ∧ entry.event = post.event ∧ entry.subId = post.sub.id

structure Fresh (s : Dispatcher) (deliveryId : String) : Prop where
  pending : s.outbox.pending[deliveryId]? = none
  tasks : ∀ task ∈ s.tasks, task.deliveryId ≠ deliveryId
  recovering : ∀ entry ∈ s.recovering, entry.deliveryId ≠ deliveryId

def Durable (s : Dispatcher) : Move → Prop
  | .journal i written =>
    ∀ event sub, s.dispatching[i]? = some (event, sub) →
      written = true ∧ s.Fresh (s.journalEntry event sub).deliveryId
  | .restart readable => readable = true
  | .recoverNext readable _ => readable = true
  | _ => True

structure Keeps (s : Dispatcher) (outbox : WebhookOutbox) : Prop where
  pending : ∀ id entry, outbox.pending[id]? = some entry → entry.deliveryId = id ∧ entry ∈ s.journaled
  kept : ∀ entry ∈ s.journaled, s.Kept outbox entry

def Owned (s : Dispatcher) (deliveryId : String) (serial : Nat) : Prop :=
  ∀ entry, s.outbox.pending[deliveryId]? = some entry → entry.serial = serial

structure Carries (s : Dispatcher) (task : Task) : Prop where
  journaled : ∃ entry ∈ s.journaled,
    entry.serial = task.serial ∧ entry.event = task.event ∧ entry.subId = task.sub.id
  owned : s.Owned task.deliveryId task.serial
  delivered : task.progress = .delivered → task.serial ∈ s.accepted

structure Sound (s : Dispatcher) : Prop where
  subs : ∀ id sub, s.subs.get id = some sub → sub.id = id
  cancelled : ∀ entry ∈ s.journaled, s.subs.get entry.subId = none → entry.serial ∈ s.cancelled
  outbox : s.Keeps s.outbox
  disk : s.Keeps s.disk
  tasks : ∀ task ∈ s.tasks, s.Carries task
  recovering : ∀ entry ∈ s.recovering, entry ∈ s.journaled ∧ s.Owned entry.deliveryId entry.serial
  posts : ∀ post ∈ s.posts, ∃ entry ∈ s.journaled,
    entry.serial = post.serial ∧ entry.event = post.event ∧ entry.subId = post.sub.id

theorem Sound.noLoss (hs : s.Sound) : s.NoLoss :=
  ⟨hs.outbox.kept, hs.disk.kept, hs.posts⟩

theorem sound_empty : Sound {} := by
  have hkeeps : Keeps {} {} := by
    constructor
    . intro id entry hentry
      simp at hentry
    . intro entry hentry
      cases hentry
  constructor
  . intro id sub hsub
    simp [WebhookState.get] at hsub
  . intro entry hentry
    cases hentry
  . exact hkeeps
  . exact hkeeps
  . intro task htask
    cases htask
  . intro entry hentry
    cases hentry
  . intro post hpost
    cases hpost

section Outbox

variable {outbox outbox' : WebhookOutbox} {id : String}

theorem Keeps.mono {s' : Dispatcher} (h : s.Keeps outbox) (hjournaled : s'.journaled = s.journaled)
    (haccepted : s.accepted ⊆ s'.accepted) (hcancelled : s.cancelled ⊆ s'.cancelled) : s'.Keeps outbox := by
  constructor
  . rw [hjournaled]
    exact h.pending
  . intro entry hentry
    rw [hjournaled] at hentry
    rcases h.kept entry hentry with hpending | hdlq | hacc | hcan
    . exact Or.inl hpending
    . exact Or.inr (Or.inl hdlq)
    . exact Or.inr (Or.inr (Or.inl (haccepted hacc)))
    . exact Or.inr (Or.inr (Or.inr (hcancelled hcan)))

theorem pending_of_erase {entry : OutboxEntry} {k : String}
    (h : (outbox.pending.erase id)[k]? = some entry) : id ≠ k ∧ outbox.pending[k]? = some entry := by
  rw [Map.getElem?_erase] at h
  split at h
  . cases h
  . next hne => exact ⟨hne, h⟩

theorem Keeps.erase (h : s.Keeps outbox) (hpending : outbox'.pending = outbox.pending.erase id)
    (hdlq : outbox.dlq ⊆ outbox'.dlq)
    (hgone : ∀ entry, outbox.pending[id]? = some entry → s.Kept outbox' entry) : s.Keeps outbox' := by
  constructor
  . intro k entry hentry
    rw [hpending] at hentry
    exact h.pending k entry (pending_of_erase hentry).2
  . intro entry hentry
    rcases h.kept entry hentry with hold | ⟨letter, hletter, heq⟩ | hdone
    . by_cases hid : id = entry.deliveryId
      . rw [← hid] at hold
        exact hgone entry hold
      . left
        rw [hpending, Map.getElem?_erase, if_neg hid]
        exact hold
    . exact Or.inr (Or.inl ⟨letter, hdlq hletter, heq⟩)
    . exact Or.inr (Or.inr hdone)

theorem remove_eq_some (h : outbox.remove id = some outbox')
    : outbox'.pending = outbox.pending.erase id ∧ outbox'.dlq = outbox.dlq := by
  unfold WebhookOutbox.remove at h
  rw [Option.map_eq_some_iff] at h
  obtain ⟨_, _, rfl⟩ := h
  exact ⟨rfl, rfl⟩

theorem deadLetter_eq_some {url eventType : String} {attempts failedAtMs : Nat}
    (h : outbox.deadLetter id url eventType attempts failedAtMs = some outbox')
    : outbox'.pending = outbox.pending.erase id
        ∧ ∃ entry letter, outbox.pending[id]? = some entry ∧ letter.serial = entry.serial
          ∧ outbox'.dlq = outbox.dlq ++ [letter] := by
  unfold WebhookOutbox.deadLetter at h
  rw [Option.map_eq_some_iff] at h
  obtain ⟨entry, hentry, rfl⟩ := h
  exact ⟨rfl, entry, _, hentry, rfl, rfl⟩

theorem Keeps.remove (h : s.Keeps outbox) (hremove : outbox.remove id = some outbox')
    (hgone : ∀ entry, outbox.pending[id]? = some entry → entry.serial ∈ s.accepted ∨ entry.serial ∈ s.cancelled)
    : s.Keeps outbox' := by
  obtain ⟨hpending, hdlq⟩ := remove_eq_some hremove
  apply h.erase hpending
  . rw [hdlq]
    exact refl _
  . intro entry hentry
    exact Or.inr (Or.inr (hgone entry hentry))

theorem Keeps.deadLetter (h : s.Keeps outbox) {url eventType : String} {attempts failedAtMs : Nat}
    (hdead : outbox.deadLetter id url eventType attempts failedAtMs = some outbox') : s.Keeps outbox' := by
  obtain ⟨hpending, entry, letter, hentry, hserial, hdlq⟩ := deadLetter_eq_some hdead
  apply h.erase hpending
  . rw [hdlq]
    exact subset_append_left _ _
  . intro entry' hentry'
    rw [hentry] at hentry'
    cases hentry'
    right
    left
    rw [hdlq]
    exact ⟨letter, mem_append_right _ (mem_singleton.mpr rfl), hserial⟩

end Outbox

theorem Carries.of_journaled_eq {s' : Dispatcher} {task : Task} (h : s.Carries task)
    (hjournaled : s'.journaled = s.journaled) (haccepted : s.accepted ⊆ s'.accepted)
    (howned : s'.Owned task.deliveryId task.serial) : s'.Carries task := by
  refine ⟨?_, howned, fun hdelivered => haccepted (h.delivered hdelivered)⟩
  rw [hjournaled]
  exact h.journaled

theorem Sound.frame (hs : s.Sound) {tasks : List Task} {recovering : List OutboxEntry}
    (dispatching : List (Event × WebhookSubscription)) (eventCounter clockMs : Nat)
    (htasks : ∀ task ∈ tasks, s.Carries task)
    (hrecovering : ∀ entry ∈ recovering, entry ∈ s.journaled ∧ s.Owned entry.deliveryId entry.serial)
    : Sound { s with tasks, recovering, dispatching, eventCounter, clockMs } := by
  constructor
  . exact hs.subs
  . exact hs.cancelled
  . exact ⟨hs.outbox.pending, hs.outbox.kept⟩
  . exact ⟨hs.disk.pending, hs.disk.kept⟩
  . intro task htask
    have hcarries := htasks task htask
    exact ⟨hcarries.journaled, hcarries.owned, hcarries.delivered⟩
  . exact hrecovering
  . exact hs.posts

theorem Owned.erase {outbox : WebhookOutbox} {id deliveryId : String} {serial : Nat}
    (h : s.Owned deliveryId serial) (hpending : outbox.pending = s.outbox.pending.erase id) (disk : WebhookOutbox)
    : Owned { s with outbox, disk } deliveryId serial := by
  intro entry hentry
  dsimp only at hentry
  rw [hpending] at hentry
  exact h entry (pending_of_erase hentry).2

theorem Sound.persist (hs : s.Sound) (written : Bool) {id : String} {result : Option WebhookOutbox}
    (hpending : ∀ outbox, result = some outbox → outbox.pending = s.outbox.pending.erase id)
    (hkeeps : ∀ outbox, result = some outbox → s.Keeps outbox) : (s.persist written result).Sound := by
  cases result with
  | none => exact hs
  | some outbox =>
    have herase := hpending outbox rfl
    have hkept := hkeeps outbox rfl
    unfold Dispatcher.persist
    dsimp only
    constructor
    . exact hs.subs
    . exact hs.cancelled
    . exact ⟨hkept.pending, hkept.kept⟩
    . dsimp only
      split
      . exact ⟨hkept.pending, hkept.kept⟩
      . exact ⟨hs.disk.pending, hs.disk.kept⟩
    . intro task htask
      have hcarries := hs.tasks task htask
      exact hcarries.of_journaled_eq rfl (refl _) (hcarries.owned.erase herase _)
    . intro entry hentry
      obtain ⟨hmem, howned⟩ := hs.recovering entry hentry
      exact ⟨hmem, howned.erase herase _⟩
    . exact hs.posts

theorem Sound.settle (hs : s.Sound) (i : Nat) (written : Bool) : (s.settle maxAttempts i written).Sound := by
  unfold Dispatcher.settle
  split
  . exact hs
  . next task htask =>
    have hcarries := hs.tasks task (mem_of_getElem? htask)
    have hrest : Sound { s with tasks := s.tasks.eraseIdx i } := by
      apply hs.frame _ _ _ _ hs.recovering
      intro task' htask'
      exact hs.tasks task' (mem_of_mem_eraseIdx htask')
    dsimp only
    split
    . exact hs
    . next hdelivered =>
      apply hrest.persist
      . intro outbox hremove
        exact (remove_eq_some hremove).1
      . intro outbox hremove
        apply Keeps.remove hrest.outbox hremove
        intro entry hentry
        left
        rw [hcarries.owned entry hentry]
        exact hcarries.delivered hdelivered
    . apply hrest.persist
      . intro outbox hdead
        exact (deadLetter_eq_some hdead).1
      . intro outbox hdead
        exact hrest.outbox.deadLetter hdead

theorem Sound.recoverNext (hs : s.Sound) (written : Bool) : (s.recoverNext true written).Sound := by
  unfold Dispatcher.recoverNext
  split
  . exact hs
  . next entry recovering hrecovering =>
    have hhead := hs.recovering entry (by rw [hrecovering]; exact mem_cons_self)
    have hrest : Sound { s with recovering } := by
      apply hs.frame _ _ _ hs.tasks
      intro entry' hentry'
      exact hs.recovering entry' (by rw [hrecovering]; exact mem_cons_of_mem _ hentry')
    dsimp only
    rw [if_pos rfl]
    split
    . next sub hsub =>
      apply hrest.frame _ _ _ _ hrest.recovering
      apply forall_mem_snoc hrest.tasks
      refine ⟨⟨entry, hhead.1, rfl, rfl, (hs.subs _ _ hsub).symm⟩, hhead.2, ?_⟩
      intro hdelivered
      cases hdelivered
    . next hnone =>
      apply hrest.persist
      . intro outbox hremove
        exact (remove_eq_some hremove).1
      . intro outbox hremove
        apply Keeps.remove hrest.outbox hremove
        intro pending hpending
        right
        rw [hhead.2 pending hpending]
        exact hs.cancelled entry hhead.1 hnone

theorem Sound.attempt (hs : s.Sound) (i : Nat) (status : Option Nat)
    : (s.attempt maxAttempts i status).Sound := by
  unfold Dispatcher.attempt
  split
  . exact hs
  . next task htask =>
    have hcarries := hs.tasks task (mem_of_getElem? htask)
    split
    . dsimp only
      generalize hok : (status.any fun st => 200 ≤ st && st < 300) = ok
      have haccepted : s.accepted ⊆ if ok then s.accepted ++ [task.serial] else s.accepted := by
        split
        . exact subset_append_left _ _
        . exact refl _
      refine ⟨hs.subs, hs.cancelled, hs.outbox.mono rfl haccepted (refl _),
        hs.disk.mono rfl haccepted (refl _), ?_, hs.recovering, ?_⟩
      . intro task' htask'
        rcases mem_or_eq_of_mem_set htask' with hold | rfl
        . exact (hs.tasks task' hold).of_journaled_eq rfl haccepted (hs.tasks task' hold).owned
        . refine ⟨hcarries.journaled, hcarries.owned, ?_⟩
          -- A delivery counts as delivered exactly if the answer to this attempt was a 2xx.
          intro hdelivered
          cases ok with
          | true => exact mem_append_right _ (mem_singleton.mpr rfl)
          | false =>
            dsimp only at hdelivered
            rw [if_neg (by decide)] at hdelivered
            split at hdelivered <;> cases hdelivered
      . apply forall_mem_snoc hs.posts
        exact hcarries.journaled
    . exact hs

theorem Sound.register (hs : s.Sound) (sub : WebhookSubscription)
    : Sound { s with subs := s.subs.register sub } := by
  have hget (id : String) : (s.subs.register sub).get id = if sub.id = id then some sub else s.subs.get id := by
    unfold WebhookState.register WebhookState.get
    rw [Map.getElem?_insert]
  refine ⟨?_, ?_, ⟨hs.outbox.pending, hs.outbox.kept⟩, ⟨hs.disk.pending, hs.disk.kept⟩, ?_,
    hs.recovering, hs.posts⟩
  . intro id other hother
    dsimp only at hother
    rw [hget] at hother
    split at hother
    . next heq =>
      cases hother
      exact heq
    . exact hs.subs id other hother
  . intro entry hentry hnone
    dsimp only at hnone
    rw [hget] at hnone
    split at hnone
    . cases hnone
    . exact hs.cancelled entry hentry hnone
  . intro task htask
    exact (hs.tasks task htask).of_journaled_eq rfl (refl _) (hs.tasks task htask).owned

theorem Sound.deleteSub (hs : s.Sound) (id : String) : (s.deleteSub id).Sound := by
  unfold Dispatcher.deleteSub
  split
  . exact hs
  . next subs hdelete =>
    unfold WebhookState.delete at hdelete
    split at hdelete
    . cases hdelete
    . cases hdelete
      have hcancelled : s.cancelled ⊆ s.cancelled
          ++ (s.journaled.filter fun entry => entry.subId == id).map (·.serial) :=
        subset_append_left _ _
      refine ⟨?_, ?_, hs.outbox.mono rfl (refl _) hcancelled,
        hs.disk.mono rfl (refl _) hcancelled, ?_, hs.recovering, hs.posts⟩
      . intro other sub hsub
        unfold WebhookState.get at hsub
        dsimp only at hsub
        exact hs.subs other sub (Map.of_erase hsub)
      . intro entry hentry hnone
        unfold WebhookState.get at hnone
        dsimp only at hnone
        rw [Map.getElem?_erase] at hnone
        split at hnone
        . next heq =>
          apply mem_append_right
          rw [mem_map]
          exact ⟨entry, mem_filter.mpr ⟨hentry, beq_iff_eq.mpr heq.symm⟩, rfl⟩
        . exact hcancelled (hs.cancelled entry hentry hnone)
      . intro task htask
        exact (hs.tasks task htask).of_journaled_eq rfl (refl _) (hs.tasks task htask).owned

theorem Sound.restart (hs : s.Sound) : (s.restart true).Sound := by
  unfold Dispatcher.restart
  rw [if_pos rfl]
  have hdisk := hs.disk
  refine ⟨hs.subs, hs.cancelled, ⟨hdisk.pending, hdisk.kept⟩, ⟨hdisk.pending, hdisk.kept⟩, ?_, ?_, hs.posts⟩
  . intro task htask
    cases htask
  . intro entry hentry
    cases hentry

theorem Sound.recoverOutbox (hs : s.Sound) : s.recoverOutbox.Sound := by
  unfold Dispatcher.recoverOutbox
  apply hs.frame _ _ _ hs.tasks
  intro entry hentry
  obtain ⟨id, hid⟩ := (Map.mem_values).mp hentry
  obtain ⟨rfl, hmem⟩ := hs.outbox.pending id entry hid
  refine ⟨hmem, ?_⟩
  intro other hother
  rw [hid] at hother
  cases hother
  rfl

theorem Keeps.enqueue (hs : s.Keeps s.outbox) {s' : Dispatcher} {entry : OutboxEntry}
    (hfresh : s.outbox.pending[entry.deliveryId]? = none) (hjournaled : s'.journaled = s.journaled ++ [entry])
    (haccepted : s'.accepted = s.accepted) (hcancelled : s.cancelled ⊆ s'.cancelled)
    : s'.Keeps (s.outbox.enqueue entry) := by
  unfold WebhookOutbox.enqueue
  constructor
  . intro id other hother
    rw [hjournaled]
    dsimp only at hother
    rcases Map.of_insert hother with ⟨heq, rfl⟩ | hother
    . exact ⟨heq, mem_append_right _ (mem_singleton.mpr rfl)⟩
    . obtain ⟨hid, hmem⟩ := hs.pending id other hother
      exact ⟨hid, mem_append_left _ hmem⟩
  . intro other hother
    rw [hjournaled] at hother
    unfold Kept
    dsimp only
    rw [haccepted]
    rcases mem_append.mp hother with hold | hnew
    . rcases hs.kept other hold with hpending | hdlq | hacc | hcan
      . left
        rw [Map.getElem?_insert_of_ne]
        . exact hpending
        . intro heq
          rw [← heq, hfresh] at hpending
          cases hpending
      . exact Or.inr (Or.inl hdlq)
      . exact Or.inr (Or.inr (Or.inl hacc))
      . exact Or.inr (Or.inr (Or.inr (hcancelled hcan)))
    . cases mem_singleton.mp hnew
      left
      rw [Map.getElem?_insert, if_pos rfl]

theorem Owned.enqueue {s' : Dispatcher} {entry : OutboxEntry} {deliveryId : String} {serial : Nat}
    (h : s.Owned deliveryId serial) (hne : deliveryId ≠ entry.deliveryId)
    (houtbox : s'.outbox = s.outbox.enqueue entry) : s'.Owned deliveryId serial := by
  intro other hother
  rw [houtbox] at hother
  unfold WebhookOutbox.enqueue at hother
  dsimp only at hother
  rw [Map.getElem?_insert_of_ne _ _ hne.symm] at hother
  exact h other hother

theorem Sound.journal (hs : s.Sound) {i : Nat} {written : Bool} (hdurable : s.Durable (.journal i written))
    : (s.journal i written).Sound := by
  unfold Dispatcher.journal
  split
  . exact hs
  . next event sub hdispatching =>
    obtain ⟨rfl, hfresh⟩ := hdurable event sub hdispatching
    generalize hentry : s.journalEntry event sub = entry at *
    have hsub : entry.subId = sub.id := by
      rw [← hentry]
      rfl
    have hevent : entry.event = event := by
      rw [← hentry]
      rfl
    unfold Dispatcher.persist
    dsimp only
    rw [if_pos rfl]
    generalize hcancelled : (if (s.subs.get sub.id).isNone then s.cancelled ++ [entry.serial]
      else s.cancelled) = cancelled
    have hsubset : s.cancelled ⊆ cancelled := by
      rw [← hcancelled]
      split
      . exact subset_append_left _ _
      . exact refl _
    refine ⟨hs.subs, ?_, hs.outbox.enqueue hfresh.pending rfl rfl hsubset,
      hs.outbox.enqueue hfresh.pending rfl rfl hsubset, ?_, ?_, ?_⟩
    . intro other hother hnone
      rcases mem_append.mp hother with hold | hnew
      . exact hsubset (hs.cancelled other hold hnone)
      . cases mem_singleton.mp hnew
        rw [hsub] at hnone
        dsimp only at hnone ⊢
        rw [← hcancelled, hnone]
        exact mem_append_right _ (mem_singleton.mpr rfl)
    . intro task htask
      rcases mem_append.mp htask with hold | hnew
      . obtain ⟨⟨other, hother, heqs⟩, howned, hdelivered⟩ := hs.tasks task hold
        exact ⟨⟨other, mem_append_left _ hother, heqs⟩,
          howned.enqueue (hfresh.tasks task hold) rfl, hdelivered⟩
      . cases mem_singleton.mp hnew
        refine ⟨⟨entry, mem_append_right _ (mem_singleton.mpr rfl), rfl, hevent, hsub⟩, ?_, ?_⟩
        . intro other hother
          unfold WebhookOutbox.enqueue at hother
          dsimp only at hother
          rw [Map.getElem?_insert, if_pos rfl] at hother
          cases hother
          rfl
        . intro hdelivered
          cases hdelivered
    . intro other hother
      obtain ⟨hmem, howned⟩ := hs.recovering other hother
      exact ⟨mem_append_left _ hmem, howned.enqueue (hfresh.recovering other hother) rfl⟩
    . intro post hpost
      obtain ⟨other, hother, heqs⟩ := hs.posts post hpost
      exact ⟨other, mem_append_left _ hother, heqs⟩

theorem Sound.move (hs : s.Sound) {m : Move} (hdurable : s.Durable m) : (s.move maxAttempts m).Sound := by
  cases m with
  | emit eventType tenant payload readable => exact hs.frame _ _ _ hs.tasks hs.recovering
  | journal i written => exact hs.journal hdurable
  | attempt i status => exact hs.attempt i status
  | settle i written => exact hs.settle i written
  | register sub => exact hs.register sub
  | deleteSub id => exact hs.deleteSub id
  | restart readable =>
    cases hdurable
    exact hs.restart
  | recoverOutbox => exact hs.recoverOutbox
  | recoverNext readable written =>
    cases hdurable
    exact hs.recoverNext written
  | setClock clockMs => exact hs.frame _ _ _ hs.tasks hs.recovering

/--
Over any number of processes, each stopped anywhere: every delivery that was journaled is pending or
dead-lettered, in memory and on disk, or was accepted, or its subscription was deleted, and what is
posted is the journaled event, to the journaled subscription. That is, if the file of the outbox can be
written when a delivery is journaled and read when a process starts, if the catalog can be read during
the recovery, and if no delivery is journaled under the id of one that is pending or in flight.
-/
theorem noLoss_of_run (maxAttempts : Nat) (moves : List Move) (s : Dispatcher)
    (hrun : Run (Guarded Durable (move maxAttempts)) {} moves s) : s.NoLoss := by
  apply Sound.noLoss
  apply Run.invariant _ hrun sound_empty
  rintro s m _ hs ⟨hdurable, rfl⟩
  exact hs.move hdurable

def runHook : WebhookSubscription where
  id := "wh-1"
  tenant := "acme"
  url := "https://hooks.test"
  events := ["run.*"]
  secret := "s3cret"

def afterMoves (moves : List Move) : Dispatcher :=
  moves.foldl (move 3) {}

def journalRun (eventType : String) : List Move :=
  [.emit eventType "acme" .null true, .journal 0 true]

def recoverRun : List Move :=
  [.restart true, .recoverOutbox, .recoverNext true true]

def redelivered : List Move :=
  [.register runHook] ++ journalRun "run.started" ++ [.attempt 0 (some 503)] ++ recoverRun
    ++ [.attempt 0 (some 200), .settle 0 true]

theorem noLoss_redelivered : (afterMoves redelivered).accepted = [0] ∧ (afterMoves redelivered).NoLoss := by
  refine ⟨by decide, ?_⟩
  apply noLoss_of_run 3 redelivered
  refine .cons ⟨trivial, rfl⟩ (.cons ⟨trivial, rfl⟩ (.cons ⟨?_, rfl⟩ (.cons ⟨trivial, rfl⟩
    (.cons ⟨rfl, rfl⟩ (.cons ⟨trivial, rfl⟩ (.cons ⟨rfl, rfl⟩ (.cons ⟨trivial, rfl⟩
      (.cons ⟨trivial, rfl⟩ (.nil _)))))))))
  intro event sub _
  refine ⟨rfl, ?_, ?_, ?_⟩
  . exact Std.ExtTreeMap.getElem?_empty
  . intro task htask
    cases htask
  . intro entry hentry
    cases hentry

def overwritten : Dispatcher :=
  afterMoves ([.register runHook] ++ journalRun "run.started" ++ recoverRun ++ journalRun "run.failed"
    ++ recoverRun)

theorem not_noLoss_overwritten : ¬overwritten.NoLoss := by
  intro h
  have hfirst : (overwritten.journaled.head?.map (·.serial)) = some 0 := by
    decide
  have hpending : (overwritten.outbox.pending.values.map (·.serial)) = [1] := by
    decide
  have hdlq : overwritten.outbox.dlq.length = 0 := by
    decide
  have haccepted : overwritten.accepted = [] := by
    decide
  have hcancelled : overwritten.cancelled = [] := by
    decide
  rw [Option.map_eq_some_iff] at hfirst
  obtain ⟨entry, hhead, hserial⟩ := hfirst
  rcases h.outbox entry (mem_of_head? hhead) with hheld | ⟨letter, hletter, -⟩ | hacc | hcan
  . have hmem := mem_map_of_mem ((Map.mem_values).mpr ⟨_, hheld⟩) (f := (·.serial))
    rw [hpending, hserial] at hmem
    revert hmem
    decide
  . rw [length_eq_zero_iff.mp hdlq] at hletter
    cases hletter
  . rw [haccepted] at hacc
    cases hacc
  . rw [hcancelled] at hcan
    cases hcan

end Wovyr.Server.Webhooks.Dispatcher
