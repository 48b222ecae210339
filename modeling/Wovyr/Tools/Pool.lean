import Mathlib.Data.List.Perm.Basic
import Wovyr.Lib.Run

/-!
This module contains the pool of warm sandboxes and what its callers do to it, in any order. A sandbox is the
number of those that were built before it.
-/

namespace Wovyr.Tools

open List

structure AutoscalePolicy where
  minWarm : Nat
  maxWarm : Nat

def AutoscalePolicy.new (minWarm maxWarm : Nat) : AutoscalePolicy :=
  { minWarm, maxWarm := max maxWarm minWarm }

structure SandboxPool where
  maxSize : Nat
  minWarm : Nat
  maxWarm : Nat
  permits : Nat
  -- The one that was pushed last comes first.
  idle : List Nat
  created : Nat
  reused : Nat := 0
  evicted : Nat := 0
  -- Permits without a sandbox yet.
  entering : Nat := 0
  out : List Nat := []
  -- Permits without a sandbox any more.
  leaving : Nat := 0
  -- What calls of `autoscale` have taken for the headroom before they lock.
  headrooms : List Nat := []

namespace SandboxPool

def build (maxSize warmCount : Nat) (policy : AutoscalePolicy) : SandboxPool :=
  let warmCount := min warmCount maxSize
  { maxSize
    minWarm := policy.minWarm
    maxWarm := policy.maxWarm
    permits := maxSize
    idle := (range warmCount).reverse
    created := warmCount }

def new (maxSize warmCount : Nat) : SandboxPool :=
  let maxSize := max maxSize 1
  build maxSize warmCount (.new 0 maxSize)

def withAutoscaling (maxSize : Nat) (policy : AutoscalePolicy) : SandboxPool :=
  let maxSize := max maxSize 1
  let policy := AutoscalePolicy.new (min policy.minWarm maxSize) (min policy.maxWarm maxSize)
  build maxSize policy.minWarm policy

variable (s : SandboxPool)

def inUse : Nat :=
  s.maxSize - s.permits

def shrink (maxWarm : Nat) : List Nat → Nat → List Nat × Nat
  | [], evicted => ([], evicted)
  | sandbox :: idle, evicted =>
    if maxWarm < (sandbox :: idle).length then shrink maxWarm idle (evicted + 1) else (sandbox :: idle, evicted)

-- So many sandboxes are still missing.
def grow : Nat → List Nat → Nat → List Nat × Nat
  | 0, idle, created => (idle, created)
  | missing + 1, idle, created => grow missing (created :: idle) (created + 1)

def target (headroom : Nat) : Nat :=
  min s.minWarm headroom

-- What `autoscale` does while it holds the lock.
def resize (headroom : Nat) : SandboxPool :=
  let (idle, evicted) := shrink s.maxWarm s.idle s.evicted
  let (idle, created) := grow (s.target headroom - idle.length) idle s.created
  { s with idle, evicted, created }

def checkout : SandboxPool :=
  match s.idle with
  | sandbox :: idle => { s with idle, reused := s.reused + 1, out := sandbox :: s.out }
  | [] => { s with created := s.created + 1, out := s.created :: s.out }

def giveBack (sandbox : Nat) : SandboxPool :=
  if s.idle.length < s.maxWarm then
    { s with idle := sandbox :: s.idle }
  else
    { s with evicted := s.evicted + 1 }

inductive Step where
  | acquire
  -- The call is dropped after it was assigned a permit.
  | cancel
  | checkout
  | drop (i : Nat)
  | release
  | measure
  | resize (i : Nat)

def step : Step → SandboxPool
  | .acquire => if 0 < s.permits then { s with permits := s.permits - 1, entering := s.entering + 1 } else s
  | .cancel => if 0 < s.entering then { s with permits := s.permits + 1, entering := s.entering - 1 } else s
  | .checkout => if 0 < s.entering then { s.checkout with entering := s.entering - 1 } else s
  | .drop i =>
    match s.out[i]? with
    | some sandbox => { s with out := s.out.eraseIdx i, leaving := s.leaving + 1 }.giveBack sandbox
    | none => s
  | .release => if 0 < s.leaving then { s with leaving := s.leaving - 1, permits := s.permits + 1 } else s
  | .measure => { s with headrooms := s.headrooms ++ [s.maxSize - s.inUse] }
  | .resize i =>
    match s.headrooms[i]? with
    | some headroom => { s with headrooms := s.headrooms.eraseIdx i }.resize headroom
    | none => s

def run (steps : List Step) : SandboxPool :=
  steps.foldl step s

inductive Setup where
  | fixed (maxSize warmCount : Nat)
  | autoscaling (maxSize : Nat) (policy : AutoscalePolicy)

def Setup.pool : Setup → SandboxPool
  | fixed maxSize warmCount => new maxSize warmCount
  | autoscaling maxSize policy => withAutoscaling maxSize policy

-- Numbers of sandboxes that were built, each once.
def Distinct (sandboxes : List Nat) (created : Nat) : Prop :=
  sandboxes.Nodup ∧ ∀ sandbox ∈ sandboxes, sandbox < created

structure Inv : Prop where
  minWarm : s.minWarm ≤ s.maxWarm
  maxWarm : s.maxWarm ≤ s.maxSize
  permits : s.permits + s.entering + s.out.length + s.leaving = s.maxSize
  warm : s.idle.length ≤ s.maxWarm
  created : s.created = s.idle.length + s.out.length + s.evicted
  distinct : Distinct (s.idle ++ s.out) s.created

variable {s} {xs ys : List Nat} {created : Nat}

theorem Distinct.perm (h : Distinct xs created) (hperm : ys.Perm xs) : Distinct ys created :=
  ⟨hperm.nodup_iff.mpr h.1, fun sandbox hmem => h.2 sandbox (hperm.subset hmem)⟩

theorem Distinct.sublist (h : Distinct xs created) (hsub : ys.Sublist xs) : Distinct ys created :=
  ⟨h.1.sublist hsub, fun sandbox hmem => h.2 sandbox (hsub.subset hmem)⟩

theorem Distinct.built (h : Distinct xs created) : Distinct (created :: xs) (created + 1) := by
  refine ⟨nodup_cons.mpr ⟨fun hmem => Nat.lt_irrefl _ (h.2 created hmem), h.1⟩, ?_⟩
  exact forall_mem_cons.mpr ⟨Nat.lt_succ_self _, fun sandbox hmem => Nat.lt_succ_of_lt (h.2 sandbox hmem)⟩

theorem shrink_eq {maxWarm : Nat} (h : xs.length ≤ maxWarm) (evicted : Nat)
    : shrink maxWarm xs evicted = (xs, evicted) := by
  cases xs with
  | nil => rfl
  | cons sandbox idle => rw [shrink, if_neg (Nat.not_lt.mpr h)]

theorem grow_spec (missing : Nat) (h : Distinct (xs ++ ys) created)
    : Distinct ((grow missing xs created).1 ++ ys) (grow missing xs created).2
      ∧ (grow missing xs created).1.length = xs.length + missing
      ∧ (grow missing xs created).2 = created + missing := by
  induction missing generalizing xs created with
  | zero => exact ⟨h, rfl, rfl⟩
  | succ missing ih =>
    have hbuilt : Distinct ((created :: xs) ++ ys) (created + 1) := h.built
    obtain ⟨hdistinct, hlength, hcreated⟩ := ih hbuilt
    rw [length_cons] at hlength
    exact ⟨hdistinct, by rw [grow]; omega, by rw [grow]; omega⟩

-- Nothing is ever evicted here.
theorem resize_spec (hinv : s.Inv) (headroom : Nat)
    : (s.resize headroom).Inv
      ∧ (s.resize headroom).idle.length = max s.idle.length (s.target headroom)
      ∧ (s.resize headroom).out = s.out ∧ (s.resize headroom).maxSize = s.maxSize := by
  obtain ⟨hdistinct, hlength, hcreated⟩ := grow_spec (s.target headroom - s.idle.length) hinv.distinct
  have htarget : s.target headroom ≤ s.minWarm := Nat.min_le_left _ _
  obtain ⟨hmin, hmax, hpermits, hwarm, hcount, -⟩ := hinv
  unfold resize
  rw [shrink_eq hwarm]
  refine ⟨⟨hmin, hmax, hpermits, ?_, ?_, hdistinct⟩, ?_, rfl, rfl⟩
  . show (grow _ _ _).1.length ≤ s.maxWarm
    omega
  . show (grow _ _ _).2 = (grow _ _ _).1.length + s.out.length + s.evicted
    omega
  . show (grow _ _ _).1.length = _
    omega

theorem inv_step (hinv : s.Inv) (a : Step) : (s.step a).Inv := by
  have ⟨hmin, hmax, hpermits, hwarm, hcount, hdistinct⟩ := hinv
  cases a with
  | acquire | cancel | release =>
    unfold step
    dsimp only
    split
    . exact ⟨hmin, hmax, by dsimp only; omega, hwarm, hcount, hdistinct⟩
    . exact hinv
  | checkout =>
    unfold step checkout
    dsimp only
    split
    . cases hidle : s.idle with
      | nil =>
        rw [hidle] at hcount hdistinct
        refine ⟨hmin, hmax, ?_, Nat.zero_le _, ?_, hdistinct.built⟩
        all_goals simp only [length_cons, length_nil] at hcount ⊢
        all_goals omega
      | cons sandbox idle =>
        rw [hidle] at hcount hdistinct hwarm
        refine ⟨hmin, hmax, ?_, ?_, ?_, hdistinct.perm perm_middle⟩
        all_goals simp only [length_cons] at hcount hwarm ⊢
        all_goals omega
    . exact hinv
  | drop i =>
    unfold step
    dsimp only
    split
    . next sandbox hout =>
      obtain ⟨hi, hget⟩ := List.getElem?_eq_some_iff.mp hout
      have hlength := List.length_eraseIdx_of_lt hi
      unfold giveBack
      dsimp only
      split
      . refine ⟨hmin, hmax, by dsimp only; omega, ?_, ?_, ?_⟩
        . simp only [length_cons]
          omega
        . simp only [length_cons]
          omega
        . apply hdistinct.perm
          have hperm := (getElem_cons_eraseIdx_perm hi).append_left s.idle
          rw [hget] at hperm
          exact perm_middle.symm.trans hperm
      . refine ⟨hmin, hmax, by dsimp only; omega, hwarm, by dsimp only; omega, ?_⟩
        exact hdistinct.sublist ((eraseIdx_sublist s.out i).append_left s.idle)
    . exact hinv
  | measure => exact ⟨hmin, hmax, hpermits, hwarm, hcount, hdistinct⟩
  | resize i =>
    unfold step
    dsimp only
    split
    . apply And.left
      apply resize_spec
      exact ⟨hmin, hmax, hpermits, hwarm, hcount, hdistinct⟩
    . exact hinv

theorem inv_build {maxSize warmCount : Nat} {policy : AutoscalePolicy} (hmin : policy.minWarm ≤ policy.maxWarm)
    (hmax : policy.maxWarm ≤ maxSize) (hwarm : min warmCount maxSize ≤ policy.maxWarm)
    : (build maxSize warmCount policy).Inv := by
  refine ⟨hmin, hmax, rfl, ?_, ?_, ?_, ?_⟩
  . simpa [build] using hwarm
  . simp [build]
  . simp only [build, append_nil]
    exact (reverse_perm _).nodup_iff.mpr nodup_range
  . intro sandbox hmem
    simpa [build] using hmem

theorem inv_pool (setup : Setup) : setup.pool.Inv := by
  cases setup with
  | fixed maxSize warmCount =>
    apply inv_build (Nat.zero_le _)
    all_goals simp only [AutoscalePolicy.new]
    all_goals omega
  | autoscaling maxSize policy =>
    apply inv_build
    all_goals simp only [AutoscalePolicy.new]
    all_goals omega

theorem inv_run (setup : Setup) (steps : List Step) : (setup.pool.run steps).Inv :=
  foldlRecOn steps _ (inv_pool setup) fun _ hinv a _ => inv_step hinv a

/--
In any order of the steps: no sandbox is with two callers, or with one and idle, and each that was built is with
a caller, idle or evicted. No more than `maxSize` are with callers and no more than `maxWarm` idle.
-/
theorem run_spec (setup : Setup) (steps : List Step)
    : let s := setup.pool.run steps
      (s.idle ++ s.out).Nodup ∧ s.created = s.idle.length + s.out.length + s.evicted
        ∧ s.out.length + s.permits ≤ s.maxSize ∧ s.idle.length ≤ s.maxWarm ∧ s.maxWarm ≤ s.maxSize := by
  obtain ⟨-, hmax, hpermits, hwarm, hcount, hdistinct⟩ := inv_run setup steps
  exact ⟨hdistinct.1, hcount, by omega, hwarm, hmax⟩

def total (s : SandboxPool) : Nat :=
  s.idle.length + s.out.length

/--
The headroom that `autoscale` has taken is still there when it gets the lock, or it has no use for it.
-/
def Fits (s : SandboxPool) : Step → Prop
  | .resize i => ∀ headroom ∈ s.headrooms[i]?, s.target headroom + s.out.length ≤ s.maxSize
  | _ => True

theorem total_step (hinv : s.Inv) (htotal : s.total ≤ s.maxSize) (a : Step)
    : (s.step a).total ≤ (s.step a).maxSize ↔ s.Fits a := by
  have hpermits := hinv.permits
  cases a with
  | acquire | cancel | release =>
    refine iff_of_true ?_ trivial
    unfold step
    dsimp only
    split <;> exact htotal
  | checkout =>
    refine iff_of_true ?_ trivial
    unfold step checkout total at *
    dsimp only
    split
    . cases hidle : s.idle with
      | nil =>
        simp only [length_cons, length_nil]
        omega
      | cons sandbox idle =>
        simp only [hidle, length_cons] at htotal ⊢
        omega
    . exact htotal
  | drop i =>
    refine iff_of_true ?_ trivial
    unfold step
    dsimp only
    split
    . next sandbox hout =>
      have hlength := List.length_eraseIdx_of_lt (List.getElem?_eq_some_iff.mp hout).1
      have hpos := length_pos_of_mem (mem_of_getElem? hout)
      unfold giveBack total at *
      dsimp only
      split
      all_goals simp only [length_cons]
      all_goals omega
    . exact htotal
  | measure => exact iff_of_true htotal trivial
  | resize i =>
    cases hheadroom : s.headrooms[i]? with
    | none => simpa [step, Fits, hheadroom] using htotal
    | some headroom =>
      have hinv' : { s with headrooms := s.headrooms.eraseIdx i }.Inv :=
        ⟨hinv.minWarm, hinv.maxWarm, hinv.permits, hinv.warm, hinv.created, hinv.distinct⟩
      obtain ⟨-, hidle, hout, hsize⟩ := resize_spec hinv' headroom
      simp only [step, Fits, hheadroom, Option.mem_def, Option.some.injEq, forall_eq', total] at *
      rw [hidle, hout, hsize]
      show max s.idle.length (s.target headroom) + s.out.length ≤ s.maxSize ↔ _
      omega

/--
Never are there more than `maxSize` sandboxes exactly if no `autoscale` gets the lock after callers have taken
what it builds for.
-/
theorem total_le_iff (setup : Setup) (steps : List Step)
    : (∀ k, (setup.pool.run (steps.take k)).total ≤ (setup.pool.run (steps.take k)).maxSize)
      ↔ Run (Guarded Fits step) setup.pool steps (setup.pool.run steps) := by
  apply Run.forall_take_iff (I := Inv) (P := fun s => s.total ≤ s.maxSize)
  . exact fun s a hinv => inv_step hinv a
  . exact fun s a hinv htotal => total_step hinv htotal a
  . exact inv_pool setup
  . have hwarm := (inv_pool setup).warm
    have hmax := (inv_pool setup).maxWarm
    have hout : setup.pool.out = [] := by cases setup <;> rfl
    unfold total
    rw [hout]
    exact Nat.le_trans hwarm hmax

end Wovyr.Tools.SandboxPool
