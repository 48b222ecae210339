import Wovyr.Lib.Run
import Wovyr.Memory.Engine

/-!
This module contains the ids that the stores give to records over a run: when they are unique, and when
the numbers of a namespace rise.
-/

namespace Wovyr.Memory

variable {F : Type}

inductive StoreKind where
  | memory
  | file (dir : Directory)

namespace StoreKind

abbrev State (F : Type) : StoreKind → Type
  | .memory => InMemoryStore F
  | .file _ => FileStore F

def store : (kind : StoreKind) → MemoryStore (kind.State F) F
  | .memory => InMemoryStore.store
  | .file dir => FileStore.store dir

def empty : (kind : StoreKind) → kind.State F
  | .memory => {}
  | .file _ => {}

def held : (kind : StoreKind) → kind.State F → String → Nat
  | .memory, s, _ => s.inner.length
  | .file _, s, ns => (s.readNs (FileStore.stem ns)).length

theorem put_eq (kind : StoreKind) (r : MemoryRecord F) (s : kind.State F)
    : ∃ t, kind.store.put r s = (.ok (r.stamp (kind.held s r.ns + 1)), t)
        ∧ kind.held t r.ns = kind.held s r.ns + 1 := by
  cases kind with
  | memory => exact ⟨_, rfl, List.length_append⟩
  | file dir =>
    refine ⟨_, rfl, ?_⟩
    unfold held FileStore.readNs
    simp [MemoryRecord.stamp]

end StoreKind

structure Ledger (σ F : Type) where
  store : σ
  issued : List (MemoryRecord F) := []
  marks : String → Nat := fun _ => 0

namespace Ledger

variable (kind : StoreKind)

def put (r : MemoryRecord F) : Prog (Ledger (kind.State F) F) Error (MemoryRecord F) := fun s =>
  match kind.store.put r s.store with
  | (.ok x, t) => (.ok x,
    { store := t, issued := s.issued ++ [x], marks := Function.update s.marks r.ns (kind.held t r.ns) })
  | (o, _) => (o, s)

def update (r : MemoryRecord F) : Prog (Ledger (kind.State F) F) Error Unit := fun s =>
  let (o, t) := kind.store.update r s.store
  (o, { s with store := t })

def delete (ids : List String) : Prog (Ledger (kind.State F) F) Error Unit := fun s =>
  let (o, t) := kind.store.delete ids s.store
  (o, { s with store := t })

theorem put_eq (r : MemoryRecord F) (s : Ledger (kind.State F) F)
    : ∃ t, kind.store.put r s.store = (.ok (r.stamp (kind.held s.store r.ns + 1)), t)
        ∧ put kind r s = (.ok (r.stamp (kind.held s.store r.ns + 1)),
          { store := t
            issued := s.issued ++ [r.stamp (kind.held s.store r.ns + 1)]
            marks := Function.update s.marks r.ns (kind.held s.store r.ns + 1) }) := by
  obtain ⟨t, hput, hheld⟩ := kind.put_eq r s.store
  refine ⟨t, hput, ?_⟩
  unfold put
  simp only [hput, hheld]

def ledger : MemoryStore (Ledger (kind.State F) F) F where
  put := put kind
  all s ns := kind.store.all s.store ns
  delete := delete kind
  update := update kind
  records s := kind.store.records s.store
  nextId s ns := kind.store.nextId s.store ns
  put_ok := by
    intro r s x t h
    obtain ⟨t', hput, heq⟩ := put_eq kind r s
    rw [heq] at h
    cases h
    exact kind.store.put_ok r s.store _ t' hput
  put_state := by
    intro r s o t h ho
    obtain ⟨t', -, heq⟩ := put_eq kind r s
    rw [heq] at h
    cases h
    exact absurd rfl (ho _)
  all_ok s := kind.store.all_ok s.store
  delete_subperm ids s := kind.store.delete_subperm ids s.store
  delete_keeps ids s := kind.store.delete_keeps ids s.store
  update_ids r s := kind.store.update_ids r s.store

end Ledger

open Ledger

inductive Move (F : Type) where
  | put (record : MemoryRecord F)
  | update (record : MemoryRecord F)
  | delete (ids : List String)
  | compress (engine : MemoryEngine F) (ns : String) (policy : CompactionPolicy F)

namespace StoreKind

variable (kind : StoreKind)

def step (s : Ledger (kind.State F) F) : Move F → Ledger (kind.State F) F
  | .put record => ((ledger kind).put record s).2
  | .update record => ((ledger kind).update record s).2
  | .delete ids => ((ledger kind).delete ids s).2
  | .compress engine ns policy => (engine.compress (ledger kind) ns policy s).2

def init : Ledger (kind.State F) F :=
  { store := kind.empty }

def run (moves : List (Move F)) : Ledger (kind.State F) F :=
  moves.foldl kind.step kind.init

def Puts (s : Ledger (kind.State F) F) : Move F → String → Prop
  | .put record, ns => record.ns = ns
  | .compress engine ns' policy, ns =>
    ns' = ns ∧ ∃ cs x mid, engine.consolidate (ledger kind) ns policy s = (.ok (some (cs, x)), mid)
  | .update _, _ => False
  | .delete _, _ => False

-- Where a record is appended there are no fewer records than right after the last put into its
-- namespace.
def Roomy (s : Ledger (kind.State F) F) (move : Move F) : Prop :=
  ∀ ns, kind.Puts s move ns → s.marks ns ≤ kind.held s.store ns

def Rising (issued : List (MemoryRecord F)) : Prop :=
  issued.Pairwise fun a b => a.ns = b.ns → a.seq < b.seq

/--
No two records have one id, no id was given twice, the numbers of a namespace rise, and every record has
the id that was given to one that was put.
-/
structure Identified (s : Ledger (kind.State F) F) : Prop where
  live : ((kind.store.records s.store).map (·.id)).Nodup
  fresh : (s.issued.map (·.id)).Nodup
  rising : Rising s.issued
  issued : ∀ x ∈ kind.store.records s.store, ∃ a ∈ s.issued, a.id = x.id

structure Tracked (s : Ledger (kind.State F) F) : Prop where
  live : ((kind.store.records s.store).map (·.id)).Subperm (s.issued.map (·.id))
  stamped : ∀ a ∈ s.issued, a.id = makeId a.ns a.seq
  marked : ∀ ns, s.marks ns = 0 ∨ ∃ a ∈ s.issued, a.ns = ns ∧ a.seq = s.marks ns
  below : Rising s.issued → ∀ a ∈ s.issued, a.seq ≤ s.marks a.ns

variable {kind} {s : Ledger (kind.State F) F}

theorem identified_of_rising (hs : kind.Tracked s) (hrising : Rising s.issued) : kind.Identified s := by
  have hfresh : (s.issued.map (·.id)).Nodup := by
    apply List.pairwise_map.mpr
    apply hrising.imp_of_mem
    intro a b ha hb hlt hid
    rw [hs.stamped a ha, hs.stamped b hb] at hid
    obtain ⟨hns, hseq⟩ := makeId_inj hid
    have := hlt hns
    omega
  constructor
  . obtain ⟨ids, hperm, hsublist⟩ := hs.live
    exact hperm.nodup (hsublist.nodup hfresh)
  . exact hfresh
  . exact hrising
  . intro x hx
    have hmem := hs.live.subset (List.mem_map_of_mem hx)
    exact List.mem_map.mp hmem

theorem rising_append {issued : List (MemoryRecord F)} {x : MemoryRecord F}
    : Rising (issued ++ [x]) ↔ Rising issued ∧ ∀ a ∈ issued, a.ns = x.ns → a.seq < x.seq := by
  unfold Rising
  simp [List.pairwise_append]

theorem tracked_put (hs : kind.Tracked s) (r : MemoryRecord F) : kind.Tracked (put kind r s).2 := by
  obtain ⟨t, hput, heq⟩ := Ledger.put_eq kind r s
  obtain ⟨-, -, hperm⟩ := kind.store.put_ok r s.store _ t hput
  rw [heq]
  constructor
  . apply (hperm.map (·.id)).subperm.trans
    rw [List.map_append]
    apply ((List.subperm_cons _).mpr hs.live).trans
    exact (List.perm_append_singleton _ _).symm.subperm
  . exact forall_mem_snoc hs.stamped rfl
  . intro ns
    by_cases hns : ns = r.ns
    . subst hns
      exact Or.inr ⟨_, List.mem_append_right _ List.mem_cons_self, rfl, by simp [MemoryRecord.stamp]⟩
    . rcases hs.marked ns with hzero | ⟨a, ha, hmark⟩
      . exact Or.inl (by simp [hns, hzero])
      . exact Or.inr ⟨a, List.mem_append_left _ ha, by simpa [hns] using hmark⟩
  . intro hrising
    obtain ⟨hold, hless⟩ := (rising_append).mp hrising
    apply forall_mem_snoc
    . intro a ha
      by_cases hns : a.ns = r.ns
      . have hlt := hless a ha hns
        simp only [hns, Function.update_self]
        exact Nat.le_of_lt hlt
      . simpa [hns] using hs.below hold a ha
    . simp [MemoryRecord.stamp]

theorem rising_put_iff (hs : kind.Tracked s) (r : MemoryRecord F)
    : Rising (put kind r s).2.issued
        ↔ Rising s.issued ∧ s.marks r.ns ≤ kind.held s.store r.ns := by
  obtain ⟨t, -, heq⟩ := Ledger.put_eq kind r s
  rw [heq]
  dsimp only
  rw [rising_append]
  apply and_congr_right
  intro hrising
  show (∀ a ∈ s.issued, a.ns = r.ns → a.seq < kind.held s.store r.ns + 1) ↔ _
  constructor
  . intro hless
    rcases hs.marked r.ns with hzero | ⟨a, ha, hns, hmark⟩
    . omega
    . have := hless a ha hns
      omega
  . intro hroom a ha hns
    have := hs.below hrising a ha
    rw [hns] at this
    omega

theorem tracked_delete (hs : kind.Tracked s) (ids : List String)
    : kind.Tracked (delete kind ids s).2 := by
  constructor
  . obtain ⟨rest, hperm, hsublist⟩ := kind.store.delete_subperm ids s.store
    have hids : (rest.map (·.id)).Subperm (s.issued.map (·.id)) :=
      (hsublist.map _).subperm.trans hs.live
    exact (hperm.map _).symm.subperm.trans hids
  . exact hs.stamped
  . exact hs.marked
  . exact hs.below

theorem tracked_update (hs : kind.Tracked s) (r : MemoryRecord F)
    : kind.Tracked (update kind r s).2 := by
  constructor
  . exact (kind.store.update_ids r s.store).subperm.trans hs.live
  . exact hs.stamped
  . exact hs.marked
  . exact hs.below

theorem step_compress (engine : MemoryEngine F) (ns : String) (policy : CompactionPolicy F)
    : kind.step s (.compress engine ns policy)
        = (engine.compress (ledger kind) ns policy s).2 := rfl

theorem tracked_step (hs : kind.Tracked s) (move : Move F) : kind.Tracked (kind.step s move) := by
  cases move with
  | put record => exact tracked_put hs record
  | update record => exact tracked_update hs record
  | delete ids => exact tracked_delete hs ids
  | compress engine ns policy =>
    rw [step_compress]
    rcases engine.consolidate_cases (ledger kind) ns policy s with
      ⟨cs, r, x, mid, -, hput, hsome⟩ | ⟨o, hnone, ho⟩
    . have hmid := tracked_put hs r
      rw [show put kind r s = (.ok x, mid) from hput] at hmid
      rw [engine.compress_of_some _ hsome]
      exact tracked_delete hmid _
    . rw [engine.compress_of_not_some _ hnone ho]
      exact hs

theorem rising_step_iff (hs : kind.Tracked s) (move : Move F)
    : Rising (kind.step s move).issued ↔ Rising s.issued ∧ kind.Roomy s move := by
  cases move with
  | put record =>
    have hroomy : kind.Roomy s (.put record) ↔ s.marks record.ns ≤ kind.held s.store record.ns := by
      constructor
      . exact fun h => h _ rfl
      . rintro h ns rfl
        exact h
    rw [hroomy]
    exact rising_put_iff hs record
  | update record => exact (and_iff_left fun _ => False.elim).symm
  | delete ids => exact (and_iff_left fun _ => False.elim).symm
  | compress engine ns policy =>
    rw [step_compress]
    rcases engine.consolidate_cases (ledger kind) ns policy s with
      ⟨cs, r, x, mid, hsummary, hput, hsome⟩ | ⟨o, hnone, ho⟩
    . have hroomy : kind.Roomy s (.compress engine ns policy) ↔ s.marks r.ns ≤ kind.held s.store r.ns := by
        rw [hsummary.ns]
        constructor
        . exact fun h => h ns ⟨rfl, cs, x, mid, hsome⟩
        . rintro h ns' ⟨rfl, -⟩
          exact h
      have hiff := rising_put_iff hs r
      rw [show put kind r s = (.ok x, mid) from hput] at hiff
      rw [engine.compress_of_some _ hsome, hroomy]
      exact hiff
    . rw [engine.compress_of_not_some _ hnone ho]
      apply (and_iff_left _).symm
      rintro ns' ⟨rfl, cs, x, mid, hsome⟩
      rw [hnone] at hsome
      cases hsome
      exact absurd rfl (ho _)

theorem records_empty : kind.store.records (kind.empty (F := F)) = [] := by
  cases kind with
  | memory => rfl
  | file dir => rfl

theorem tracked_init : kind.Tracked (kind.init (F := F)) := by
  constructor
  . rw [show kind.store.records (kind.init (F := F)).store = [] from records_empty]
    exact List.nil_subperm
  . exact fun a ha => absurd ha List.not_mem_nil
  . exact fun ns => Or.inl rfl
  . exact fun _ a ha => absurd ha List.not_mem_nil

theorem tracked_run (moves : List (Move F)) : kind.Tracked (kind.run moves) := by
  unfold run
  induction moves using List.reverseRecOn with
  | nil => exact tracked_init
  | append_singleton moves move ih =>
    rw [List.foldl_append]
    exact tracked_step ih move

-- The ids identify the records exactly if no put comes when more records have gone than come since the
-- put into the same namespace before it.
theorem identified_iff_roomy (kind : StoreKind) (moves : List (Move F))
    : kind.Identified (kind.run moves)
        ↔ Run (Guarded kind.Roomy kind.step) kind.init moves (kind.run moves) := by
  have htracked : kind.Tracked (kind.run moves) := tracked_run moves
  have hiff : Rising (kind.run moves).issued
      ↔ Run (Guarded kind.Roomy kind.step) kind.init moves (kind.run moves) :=
    @Run.iff_guarded _ _ kind.Roomy kind.step kind.Tracked (fun s => Rising s.issued)
      (fun _ move hs => tracked_step hs move) (fun _ move hs => rising_step_iff hs move)
      _ tracked_init List.Pairwise.nil moves
  rw [← hiff]
  constructor
  . exact fun h => h.rising
  . exact identified_of_rising htracked

def sevenThenCompress : List (Move Rat) :=
  (["a", "b", "c", "d", "e", "f", "g"].map fun content => .put { ns := "notes", content, importance := 0 })
    ++ [.compress .noteTaker "notes" (.default .exact)]

-- The pass puts the eighth record and deletes two, so the next record is the seventh again.
theorem not_identified_compress
    : ¬StoreKind.memory.Identified (StoreKind.memory.run
        (sevenThenCompress ++ [.put { ns := "notes", content := "h", importance := 0 }])) := by
  intro h
  exact absurd h.live (by decide +kernel)

end Wovyr.Memory.StoreKind
