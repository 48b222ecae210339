import Wovyr.Lib.Bytes
import Wovyr.Lib.Map
import Wovyr.Lib.Run

/-!
This module contains the work queue that hands out executions under leases, and the workers that
lease, drive and remove them one step at a time.
-/

namespace Wovyr.Workflow

-- FNV-1a over 64 bits.
def shardOf (executionId : String) (total : Nat) : Nat :=
  if total ≤ 1 then
    0
  else
    (Bytes.utf8 executionId.toList).foldl (fun h b => (h ^^^ b.toNat) * 0x100000001b3 % 2 ^ 64)
      0xcbf29ce484222325 % total

structure PartitionAssignment where
  total : Nat
  owned : List Nat
deriving Repr, DecidableEq, Inhabited

def PartitionAssignment.owns (assignment : PartitionAssignment) (shard : Nat) : Bool :=
  assignment.owned.contains shard

structure Lease where
  worker : Option String := none
  expiresAt : Option Nat := none
deriving Repr, DecidableEq, Inhabited

def Lease.isReady (now : Nat) (lease : Lease) : Bool :=
  lease.worker.isNone || lease.expiresAt.any (· ≤ now)

abbrev WorkQueue : Type := Std.ExtTreeMap String Lease

namespace WorkQueue

def enqueue (q : WorkQueue) (executionId : String) : WorkQueue :=
  q.insertIfNew executionId {}

-- The execution with the lowest id that is ready, and the queue in which it is leased.
def leaseWhere (q : WorkQueue) (worker : String) (now ttl : Nat) (owns : String → Bool)
    : Option (String × WorkQueue) :=
  (q.toList.find? fun (id, lease) => lease.isReady now && owns id).map fun (id, _) =>
    (id, q.insert id { worker := some worker, expiresAt := some (now + ttl) })

def remove (q : WorkQueue) (executionId : String) : WorkQueue :=
  q.erase executionId

end WorkQueue

structure Worker where
  id : String
  leaseTtl : Nat := 30000
  partitions : Option PartitionAssignment := none
deriving Repr, DecidableEq, Inhabited

def Worker.lease (worker : Worker) (q : WorkQueue) (now : Nat) : Option (String × WorkQueue) :=
  match worker.partitions with
  | some assignment =>
    q.leaseWhere worker.id now worker.leaseTtl fun id => assignment.owns (shardOf id assignment.total)
  | none => q.leaseWhere worker.id now worker.leaseTtl fun _ => true

inductive WorkerPhase where
  | idle
  -- The clock has been read, the queue is not locked yet.
  | asking (now : Nat)
  | leased (executionId : String)
  -- The checkpoint has been read, and the execution goes on from there.
  | driving (executionId : String)
  -- The drive has come to an outcome, the execution is still in the queue.
  | driven (executionId : String)
deriving Repr, DecidableEq, Inhabited

structure Grant (ι : Type) where
  worker : ι
  executionId : String
  expiresAt : Nat
deriving Repr, DecidableEq

inductive Wakeup (ι : Type) where
  | enqueued (executionId : String)
  | read (worker : ι) (executionId : String)
deriving Repr, DecidableEq

/--
A queue and the workers that share it, with the leases they hold and, the latest one first, what was
enqueued and which checkpoints were read.
-/
structure Fleet (ι : Type) where
  queue : WorkQueue := ∅
  clock : Nat := 0
  phase : ι → WorkerPhase := fun _ => .idle
  grants : List (Grant ι) := []
  wakeups : List (Wakeup ι) := []

inductive QueueMove (ι : Type) where
  | pass (ms : Nat)
  | enqueue (executionId : String)
  | ask (worker : ι)
  | lease (worker : ι)
  | resume (worker : ι)
  -- No definition, no checkpoint or an error of the drive.
  | fail (worker : ι)
  | finish (worker : ι)
  | remove (worker : ι)
deriving Repr, DecidableEq

namespace Fleet

section

variable {ι : Type} [DecidableEq ι] (pool : ι → Worker)

def enter (s : Fleet ι) (worker : ι) (phase : WorkerPhase) : Fleet ι :=
  { s with phase := Function.update s.phase worker phase }

-- The execution on which a worker that takes its turn obtains a lease.
def obtains (s : Fleet ι) (worker : ι) : Option String :=
  match s.phase worker with
  | .asking now => ((pool worker).lease s.queue now).map Prod.fst
  | _ => none

-- A worker for which it is not the time of a move stays as it is.
def ask (s : Fleet ι) (worker : ι) : Fleet ι :=
  match s.phase worker with
  | .idle => s.enter worker (.asking s.clock)
  | _ => s

def lease (s : Fleet ι) (worker : ι) : Fleet ι :=
  match s.phase worker with
  | .asking now =>
    match (pool worker).lease s.queue now with
    | none => s.enter worker .idle
    | some (id, queue) =>
      { s.enter worker (.leased id) with
        queue
        grants := ⟨worker, id, now + (pool worker).leaseTtl⟩ :: s.grants }
  | _ => s

def resume (s : Fleet ι) (worker : ι) : Fleet ι :=
  match s.phase worker with
  | .leased id => { s.enter worker (.driving id) with wakeups := .read worker id :: s.wakeups }
  | _ => s

def fail (s : Fleet ι) (worker : ι) : Fleet ι :=
  match s.phase worker with
  | .leased _ | .driving _ => s.enter worker .idle
  | _ => s

def finish (s : Fleet ι) (worker : ι) : Fleet ι :=
  match s.phase worker with
  | .driving id => s.enter worker (.driven id)
  | _ => s

def remove (s : Fleet ι) (worker : ι) : Fleet ι :=
  match s.phase worker with
  | .driven id =>
    { s.enter worker .idle with
      queue := s.queue.remove id
      grants := s.grants.filter fun g => !(g.worker == worker && g.executionId == id) }
  | _ => s

def step (s : Fleet ι) : QueueMove ι → Fleet ι
  | .pass ms => { s with clock := s.clock + ms }
  | .enqueue id => { s with queue := s.queue.enqueue id, wakeups := .enqueued id :: s.wakeups }
  | .ask worker => s.ask worker
  | .lease worker => s.lease pool worker
  | .resume worker => s.resume worker
  | .fail worker => s.fail worker
  | .finish worker => s.finish worker
  | .remove worker => s.remove worker

end

section

variable {ι : Type} [DecidableEq ι] {pool : ι → Worker} {s : Fleet ι} {worker : ι} {id : String}

theorem enter_phase (s : Fleet ι) (worker w : ι) (phase : WorkerPhase)
    : (s.enter worker phase).phase w = if w = worker then phase else s.phase w :=
  Function.update_apply s.phase worker phase w

structure Sound (pool : ι → Worker) (s : Fleet ι) : Prop where
  asked : ∀ worker now, s.phase worker = .asking now → now ≤ s.clock
  current : ∀ g ∈ s.grants, s.clock < g.expiresAt →
    s.queue[g.executionId]? = some ⟨some (pool g.worker).id, some g.expiresAt⟩

-- No other worker has an unexpired lease on the execution that is removed.
def Current (s : Fleet ι) : QueueMove ι → Prop
  | .remove worker =>
    ∀ id, s.phase worker = .driven id →
      ∀ g ∈ s.grants, g.executionId = id → g.worker ≠ worker → g.expiresAt ≤ s.clock
  | _ => True

-- What was enqueued and read since the worker has read the checkpoint.
def sinceRead (s : Fleet ι) (worker : ι) (id : String) : List (Wakeup ι) :=
  s.wakeups.takeWhile (· ≠ .read worker id)

-- An execution is not enqueued between the read of its checkpoint by a worker and the removal by this worker.
def Attentive (s : Fleet ι) : QueueMove ι → Prop
  | .remove worker =>
    match s.phase worker with
    | .driven id => .enqueued id ∉ s.sinceRead worker id
    | _ => True
  | _ => True

instance : DecidablePred s.Attentive := by
  intro move
  unfold Attentive
  split
  . split <;> infer_instance
  . infer_instance

def Kept (s : Fleet ι) : Prop :=
  ∀ newer older id, s.wakeups = newer ++ .enqueued id :: older →
    id ∈ s.queue ∨ ∃ worker, .read worker id ∈ newer

omit [DecidableEq ι] in
theorem lease_some {q q' : WorkQueue} {w : Worker} {now : Nat} (h : w.lease q now = some (id, q'))
    : (∃ lease : Lease, q[id]? = some lease ∧ lease.isReady now = true)
        ∧ q' = q.insert id ⟨some w.id, some (now + w.leaseTtl)⟩ := by
  have hwhere (owns : String → Bool) (h : q.leaseWhere w.id now w.leaseTtl owns = some (id, q'))
      : (∃ lease : Lease, q[id]? = some lease ∧ lease.isReady now = true)
        ∧ q' = q.insert id ⟨some w.id, some (now + w.leaseTtl)⟩ := by
    unfold WorkQueue.leaseWhere at h
    obtain ⟨⟨id', lease⟩, hfound, heq⟩ := Option.map_eq_some_iff.mp h
    cases heq
    have hmem := List.mem_of_find?_eq_some hfound
    have hready := List.find?_some hfound
    rw [Std.ExtTreeMap.mem_toList_iff_getElem?_eq_some] at hmem
    simp only [Bool.and_eq_true] at hready
    exact ⟨⟨lease, hmem, hready.1⟩, rfl⟩
  unfold Worker.lease at h
  split at h
  . exact hwhere _ h
  . exact hwhere _ h

omit [DecidableEq ι] in
theorem Sound.expired (hs : s.Sound pool) (hobtains : s.obtains pool worker = some id) {g : Grant ι}
    (hg : g ∈ s.grants) (hid : g.executionId = id) : g.expiresAt ≤ s.clock := by
  unfold obtains at hobtains
  split at hobtains
  next now hphase =>
    obtain ⟨⟨id', q'⟩, hlease, heq⟩ := Option.map_eq_some_iff.mp hobtains
    cases heq
    obtain ⟨⟨lease, hfound, hready⟩, -⟩ := lease_some hlease
    have hnow := hs.asked worker now hphase
    apply Nat.le_of_not_lt
    intro hlive
    have hcurrent := hs.current g hg hlive
    rw [hid, hfound] at hcurrent
    cases hcurrent
    simp [Lease.isReady] at hready
    omega
  next => cases hobtains

theorem Sound.enter (hs : s.Sound pool) (phase : WorkerPhase) (hphase : ∀ now, phase = .asking now → now ≤ s.clock)
    : (s.enter worker phase).Sound pool := by
  refine ⟨?_, hs.current⟩
  intro w now hw
  rw [enter_phase] at hw
  split at hw
  . exact hphase now hw
  . exact hs.asked w now hw

theorem Sound.step (hs : s.Sound pool) (move : QueueMove ι) (hcurrent : s.Current move)
    : (s.step pool move).Sound pool := by
  cases move with
  | pass ms =>
    refine ⟨?_, ?_⟩
    . intro w now hw
      exact Nat.le_trans (hs.asked w now hw) (Nat.le_add_right _ _)
    . intro g hg hlive
      exact hs.current g hg (Nat.lt_of_le_of_lt (Nat.le_add_right _ _) hlive)
  | enqueue id =>
    refine ⟨hs.asked, ?_⟩
    intro g hg hlive
    have hfound := hs.current g hg hlive
    have hmem : g.executionId ∈ s.queue := by
      rw [Std.ExtTreeMap.mem_iff_isSome_getElem?, hfound]
      rfl
    show (s.queue.insertIfNew id {})[g.executionId]? = _
    rw [Std.ExtTreeMap.getElem?_insertIfNew, if_neg, hfound]
    rintro ⟨heq, hnot⟩
    rw [Std.LawfulEqCmp.compare_eq_iff_eq] at heq
    exact hnot (heq ▸ hmem)
  | ask worker =>
    show (s.ask worker).Sound pool
    unfold Fleet.ask
    split
    . apply hs.enter _
      intro now hnow
      cases hnow
      exact Nat.le_refl _
    . exact hs
  | lease worker =>
    show (s.lease pool worker).Sound pool
    unfold Fleet.lease
    split
    next now hphase =>
      split
      next => exact hs.enter _ nofun
      next id queue hlease =>
        have hobtains : s.obtains pool worker = some id := by
          unfold obtains
          rw [hphase]
          simp only [hlease, Option.map_some]
        obtain ⟨-, rfl⟩ := lease_some hlease
        refine ⟨(hs.enter (.leased id) nofun).asked, ?_⟩
        intro g hg hlive
        dsimp only
        rw [Map.getElem?_insert]
        cases List.mem_cons.mp hg with
        | inl heq =>
          subst heq
          rw [if_pos rfl]
        | inr hg =>
          split
          next heq => exact absurd hlive (Nat.not_lt.mpr (hs.expired hobtains hg heq.symm))
          next => exact hs.current g hg hlive
    next => exact hs
  | resume worker =>
    show (s.resume worker).Sound pool
    unfold Fleet.resume
    split
    . exact ⟨(hs.enter (.driving _) nofun).asked, hs.current⟩
    . exact hs
  | fail worker =>
    show (s.fail worker).Sound pool
    unfold Fleet.fail
    split
    . exact hs.enter _ nofun
    . exact hs.enter _ nofun
    . exact hs
  | finish worker =>
    show (s.finish worker).Sound pool
    unfold Fleet.finish
    split
    . exact hs.enter _ nofun
    . exact hs
  | remove worker =>
    show (s.remove worker).Sound pool
    unfold Fleet.remove
    split
    next id hphase =>
      refine ⟨(hs.enter .idle nofun).asked, ?_⟩
      intro g hg hlive
      obtain ⟨hg, hkept⟩ := List.mem_filter.mp hg
      show (s.queue.erase id)[g.executionId]? = _
      rw [Map.getElem?_erase]
      split
      next heq =>
        have hother : g.worker ≠ worker := by
          intro hworker
          simp [hworker, heq] at hkept
        exact absurd (hcurrent id hphase g hg heq.symm hother) (Nat.not_le.mpr hlive)
      next => exact hs.current g hg hlive
    next => exact hs

end

section

variable {ι : Type} [DecidableEq ι] {pool : ι → Worker} {s : Fleet ι} {moves : List (QueueMove ι)} {clock : Nat}

omit [DecidableEq ι] in
theorem sound_start (clock : Nat) : ({ clock } : Fleet ι).Sound pool := by
  refine ⟨?_, ?_⟩
  . intro w now hw
    cases hw
  . intro g hg
    cases hg

/--
As long as no worker removes an execution on which another one has an unexpired lease, nobody obtains a
lease on an execution while there is an unexpired one.
-/
theorem leases_exclusive (hrun : Run (Guarded Current (Fleet.step pool)) { clock } moves s) {worker : ι}
    {id : String} (hobtains : s.obtains pool worker = some id) {g : Grant ι} (hg : g ∈ s.grants)
    (hid : g.executionId = id) : g.expiresAt ≤ s.clock := by
  have hsound : s.Sound pool := by
    refine hrun.invariant ?_ (sound_start clock)
    rintro s move t hs ⟨hcurrent, rfl⟩
    exact hs.step move hcurrent
  exact hsound.expired hobtains hg hid

end

namespace Crew

def pool (n : Nat) : Worker where
  id := "worker-" ++ toString n
  leaseTtl := 10

def after (moves : List (QueueMove Nat)) : Fleet Nat :=
  moves.foldl (Fleet.step pool) {}

def late : List (QueueMove Nat) :=
  [.enqueue "e", .ask 1, .lease 1, .resume 1, .pass 10, .ask 2, .lease 2, .resume 2, .finish 2, .remove 2,
    .finish 1]

end Crew

open Crew

theorem leases_exclusive_late
    : (after (late ++ [.enqueue "e", .ask 3])).obtains pool 3 = some "e"
        ∧ (⟨1, "e", 10⟩ : Grant Nat) ∈ (after (late ++ [.enqueue "e", .ask 3])).grants
        ∧ 10 ≤ (after (late ++ [.enqueue "e", .ask 3])).clock := by
  have hobtains : (after (late ++ [.enqueue "e", .ask 3])).obtains pool 3 = some "e" := by
    decide
  have hgrant : (⟨1, "e", 10⟩ : Grant Nat) ∈ (after (late ++ [.enqueue "e", .ask 3])).grants := by
    decide
  suffices hrun : Run (Guarded Current (Fleet.step pool)) {} (late ++ [.enqueue "e", .ask 3])
      (after (late ++ [.enqueue "e", .ask 3])) from
    ⟨hobtains, hgrant, leases_exclusive hrun hobtains hgrant rfl⟩
  refine .cons ⟨trivial, rfl⟩ <| .cons ⟨trivial, rfl⟩ <| .cons ⟨trivial, rfl⟩ <| .cons ⟨trivial, rfl⟩ <|
    .cons ⟨trivial, rfl⟩ <| .cons ⟨trivial, rfl⟩ <| .cons ⟨trivial, rfl⟩ <| .cons ⟨trivial, rfl⟩ <|
    .cons ⟨trivial, rfl⟩ <| .cons ⟨?_, rfl⟩ <| .cons ⟨trivial, rfl⟩ <| .cons ⟨trivial, rfl⟩ <|
    .cons ⟨trivial, rfl⟩ (.nil _)
  -- The second worker removes the execution, the lease of the first one has run out by then.
  intro id _ g hg _ _
  have hall : ∀ g ∈ (after (late.take 9)).grants, g.worker ≠ 2 → g.expiresAt ≤ 10 := by
    decide
  apply hall g hg
  assumption

-- The first worker removes what the second one holds by now.
theorem leased_twice
    : (after [.enqueue "e", .ask 1, .lease 1, .resume 1, .pass 10, .ask 2, .lease 2, .finish 1, .remove 1,
          .enqueue "e", .ask 3]).obtains pool 3 = some "e"
        ∧ (⟨2, "e", 20⟩ : Grant Nat) ∈ (after [.enqueue "e", .ask 1, .lease 1, .resume 1, .pass 10, .ask 2,
          .lease 2, .finish 1, .remove 1, .enqueue "e", .ask 3]).grants
        ∧ (after [.enqueue "e", .ask 1, .lease 1, .resume 1, .pass 10, .ask 2, .lease 2, .finish 1,
          .remove 1, .enqueue "e", .ask 3]).clock < 20 := by
  decide

section

variable {ι : Type} [DecidableEq ι] {pool : ι → Worker} {s : Fleet ι} {moves : List (QueueMove ι)} {clock : Nat}

theorem read_of_attentive {worker : ι} {id : String} {newer older : List (Wakeup ι)}
    (hattentive : .enqueued id ∉ s.sinceRead worker id) (h : s.wakeups = newer ++ .enqueued id :: older)
    : .read worker id ∈ newer := by
  by_contra hread
  apply hattentive
  rw [sinceRead, h, List.takeWhile_append_of_pos, List.takeWhile_cons_of_pos (by simp)]
  . exact List.mem_append_right _ List.mem_cons_self
  . intro wakeup hwakeup
    rw [decide_eq_true_eq]
    rintro rfl
    exact hread hwakeup

theorem Kept.step (hkept : s.Kept) (move : QueueMove ι) (hattentive : s.Attentive move)
    : (s.step pool move).Kept := by
  have hsame {t : Fleet ι} (hwakeups : t.wakeups = s.wakeups) (hqueue : ∀ id, id ∈ s.queue → id ∈ t.queue)
      : t.Kept := by
    intro newer older id h
    rw [hwakeups] at h
    exact (hkept newer older id h).imp_left (hqueue id)
  cases move with
  | pass ms => exact hsame rfl fun _ h => h
  | enqueue id =>
    intro newer older id' h
    have hqueue (x : String) : x ∈ (s.step pool (.enqueue id)).queue ↔ compare id x = .eq ∨ x ∈ s.queue :=
      Std.ExtTreeMap.mem_insertIfNew
    rw [hqueue]
    cases newer with
    | nil =>
      cases h
      exact .inl (.inl Std.ReflCmp.compare_self)
    | cons wakeup newer =>
      obtain ⟨-, h⟩ := List.cons.inj h
      cases hkept newer older id' h with
      | inl hqueued => exact .inl (.inr hqueued)
      | inr hread =>
        obtain ⟨worker, hread⟩ := hread
        exact .inr ⟨worker, List.mem_cons_of_mem _ hread⟩
  | ask worker =>
    show (s.ask worker).Kept
    unfold Fleet.ask
    split
    . exact hsame rfl fun _ h => h
    . exact hkept
  | lease worker =>
    show (s.lease pool worker).Kept
    unfold Fleet.lease
    split
    next =>
      split
      next => exact hsame rfl fun _ h => h
      next id queue hlease =>
        obtain ⟨-, rfl⟩ := lease_some hlease
        exact hsame rfl fun _ h => Std.ExtTreeMap.mem_insert.mpr (.inr h)
    next => exact hkept
  | resume worker =>
    show (s.resume worker).Kept
    unfold Fleet.resume
    split
    next id _ =>
      intro newer older id' h
      cases newer with
      | nil => cases h
      | cons wakeup newer =>
        obtain ⟨-, h⟩ := List.cons.inj h
        cases hkept newer older id' h with
        | inl hqueued => exact .inl hqueued
        | inr hread =>
          obtain ⟨worker, hread⟩ := hread
          exact .inr ⟨worker, List.mem_cons_of_mem _ hread⟩
    next => exact hkept
  | fail worker =>
    show (s.fail worker).Kept
    unfold Fleet.fail
    split
    . exact hsame rfl fun _ h => h
    . exact hsame rfl fun _ h => h
    . exact hkept
  | finish worker =>
    show (s.finish worker).Kept
    unfold Fleet.finish
    split
    . exact hsame rfl fun _ h => h
    . exact hkept
  | remove worker =>
    show (s.remove worker).Kept
    unfold Fleet.remove
    split
    next id hphase =>
      intro newer older id' h
      by_cases heq : id' = id
      . subst heq
        rw [Attentive, hphase] at hattentive
        exact .inr ⟨worker, read_of_attentive hattentive h⟩
      . apply (hkept newer older id' h).imp_left
        intro hqueued
        exact Std.ExtTreeMap.mem_erase.mpr
          ⟨fun hcmp => heq (Std.LawfulEqCmp.eq_of_compare hcmp).symm, hqueued⟩
    next => exact hkept

/--
As long as nothing is enqueued between the read of its checkpoint by a worker and the removal by this worker, whatever
is enqueued stays in the queue until some worker reads its checkpoint.
-/
theorem enqueued_until_read (hrun : Run (Guarded Attentive (Fleet.step pool)) { clock } moves s)
    {newer older : List (Wakeup ι)} {id : String} (h : s.wakeups = newer ++ .enqueued id :: older)
    : id ∈ s.queue ∨ ∃ worker, .read worker id ∈ newer := by
  have hkept : s.Kept := by
    refine hrun.invariant ?_ ?_
    . rintro s move t hs ⟨hattentive, rfl⟩
      exact hs.step move hattentive
    . intro newer older id h
      simp at h
  exact hkept newer older id h

end

def Crew.shared : List (QueueMove Nat) :=
  [.enqueue "e", .ask 1, .lease 1, .enqueue "e", .resume 1, .pass 10, .ask 2, .lease 2, .resume 2, .finish 1, .remove 1,
    .fail 2, .enqueue "e", .ask 2, .lease 2, .enqueue "e"]

theorem enqueued_until_read_shared
    : (after shared).wakeups
          = [.enqueued "e", .enqueued "e", .read 2 "e", .read 1 "e", .enqueued "e", .enqueued "e"]
        ∧ "e" ∈ (after shared).queue := by
  have hrun : Run (Guarded Attentive (Fleet.step pool)) { clock := 0 } shared (after shared) := by
    apply Run.of_take
    decide
  have hwakeups : (after shared).wakeups
      = [] ++ .enqueued "e" :: [.enqueued "e", .read 2 "e", .read 1 "e", .enqueued "e", .enqueued "e"] := by
    decide
  exact ⟨hwakeups, (enqueued_until_read hrun hwakeups).resolve_right (by simp)⟩

-- What is enqueued during the drive is gone with what the worker was driving.
theorem dropped_wakeup
    : (after [.enqueue "e", .ask 1, .lease 1, .resume 1, .enqueue "e", .finish 1, .remove 1]).wakeups
          = [Wakeup.enqueued "e", .read 1 "e", .enqueued "e"]
        ∧ "e" ∉ (after [.enqueue "e", .ask 1, .lease 1, .resume 1, .enqueue "e", .finish 1,
          .remove 1]).queue := by
  decide

end Wovyr.Workflow.Fleet
