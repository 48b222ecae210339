import Mathlib.Algebra.Order.Field.Basic
import Mathlib.Tactic.Linarith
import Mathlib.Tactic.Ring

/-!
This module contains buckets of tokens that refill at a rate up to a capacity: what they grant
between two instants is at most a full bucket and the refill in between.
-/

namespace TokenBucket

variable {K : Type u} [Field K] [LinearOrder K] [IsStrictOrderedRing K]

structure Bucket (K : Type u) where
  tokens : K
  last : Nat

variable (capacity rate : K)

def refilled (b : Bucket K) (now : Nat) : K :=
  min (b.tokens + (now - b.last : Nat) * rate) capacity

def take (b : Bucket K) (now : Nat) : Bucket K :=
  let tokens := refilled capacity rate b now
  { tokens := if 1 ≤ tokens then tokens - 1 else tokens, last := now }

def granted (b : Bucket K) : List Nat → List Nat
  | [] => []
  | now :: rest =>
    if 1 ≤ refilled capacity rate b now then
      now :: granted (take capacity rate b now) rest
    else
      granted (take capacity rate b now) rest

variable {capacity rate} {b : Bucket K} {now start finish : Nat} {instants : List Nat}

omit [IsStrictOrderedRing K] in
theorem refilled_le_capacity : refilled capacity rate b now ≤ capacity :=
  min_le_right _ _

theorem elapsed_nonneg (hrate : 0 ≤ rate) : 0 ≤ ((finish - start : Nat) : K) * rate :=
  mul_nonneg (Nat.cast_nonneg _) hrate

theorem refilled_nonneg (hcapacity : 0 ≤ capacity) (hrate : 0 ≤ rate) (hb : 0 ≤ b.tokens)
    : 0 ≤ refilled capacity rate b now :=
  le_min (add_nonneg hb (elapsed_nonneg hrate)) hcapacity

theorem refilled_full (hrate : 0 ≤ rate) (hb : b.tokens = capacity) : refilled capacity rate b now = capacity := by
  have helapsed : 0 ≤ ((now - b.last : Nat) : K) * rate := elapsed_nonneg hrate
  unfold refilled
  rw [hb]
  apply min_eq_right
  linarith

theorem take_tokens_nonneg (hcapacity : 0 ≤ capacity) (hrate : 0 ≤ rate) (hb : 0 ≤ b.tokens)
    : 0 ≤ (take capacity rate b now).tokens := by
  have hnonneg : 0 ≤ refilled capacity rate b now := refilled_nonneg hcapacity hrate hb
  unfold take
  dsimp only
  split
  next hgranted => linarith
  next => exact hnonneg

theorem take_tokens_lt (hcapacity : 1 ≤ capacity) : (take capacity rate b now).tokens < capacity := by
  have hle : refilled capacity rate b now ≤ capacity := refilled_le_capacity
  unfold take
  dsimp only
  split
  next => linarith
  next hrefused => linarith

omit [IsStrictOrderedRing K] in
theorem mem_granted {instant : Nat} (h : instant ∈ granted capacity rate b instants) : instant ∈ instants := by
  induction instants generalizing b with
  | nil => cases h
  | cons now rest ih =>
    unfold granted at h
    split at h
    . rcases List.mem_cons.mp h with heq | hrest
      . rw [heq]
        exact List.mem_cons_self
      . exact List.mem_cons_of_mem _ (ih hrest)
    . exact List.mem_cons_of_mem _ (ih h)

omit [IsStrictOrderedRing K] in
theorem granted_late (hsorted : (now :: instants).Pairwise (· ≤ ·)) (hlate : finish < now)
    : (granted capacity rate b (now :: instants)).filter (· ≤ finish) = [] := by
  rw [List.filter_eq_nil_iff]
  intro instant hinstant
  have hle : now ≤ instant := by
    rcases List.mem_cons.mp (mem_granted hinstant) with heq | hmem
    . omega
    . exact (List.pairwise_cons.mp hsorted).1 instant hmem
  simp only [decide_eq_true_eq]
  omega

theorem granted_cons_le {count : K} (hnow : now ≤ finish)
    (h : (((granted capacity rate (take capacity rate b now) instants).filter (· ≤ finish)).length : K)
      ≤ (take capacity rate b now).tokens + count)
    : (((granted capacity rate b (now :: instants)).filter (· ≤ finish)).length : K)
        ≤ refilled capacity rate b now + count := by
  unfold granted
  split
  next hgranted =>
    have htokens : (take capacity rate b now).tokens = refilled capacity rate b now - 1 := if_pos hgranted
    rw [htokens] at h
    rw [List.filter_cons_of_pos (by simpa using hnow), List.length_cons, Nat.cast_add, Nat.cast_one]
    linarith
  next hrefused =>
    have htokens : (take capacity rate b now).tokens = refilled capacity rate b now := if_neg hrefused
    rw [htokens] at h
    exact h

theorem granted_le (hcapacity : 0 ≤ capacity) (hrate : 0 ≤ rate) (hb : 0 ≤ b.tokens) (hlast : b.last ≤ finish)
    (hsorted : (b.last :: instants).Pairwise (· ≤ ·))
    : (((granted capacity rate b instants).filter (· ≤ finish)).length : K)
        ≤ b.tokens + (finish - b.last : Nat) * rate := by
  have hsome : 0 ≤ b.tokens + (finish - b.last : Nat) * rate := add_nonneg hb (elapsed_nonneg hrate)
  induction instants generalizing b with
  | nil => simpa [granted] using hsome
  | cons now rest ih =>
    obtain ⟨hfirst, hrest⟩ := List.pairwise_cons.mp hsorted
    have hnow : b.last ≤ now := hfirst now List.mem_cons_self
    by_cases hlate : finish < now
    . rw [granted_late hrest hlate]
      simpa using hsome
    . have hnext : 0 ≤ (take capacity rate b now).tokens := take_tokens_nonneg hcapacity hrate hb
      have hlater := granted_cons_le (by omega)
        (ih hnext (not_lt.mp hlate) hrest (add_nonneg hnext (elapsed_nonneg hrate)))
      have hrefilled : refilled capacity rate b now ≤ b.tokens + (now - b.last : Nat) * rate := min_le_left _ _
      have htime : ((finish - b.last : Nat) : K) = ((now - b.last : Nat) : K) + ((finish - now : Nat) : K) := by
        rw [← Nat.cast_add]
        congr 1
        omega
      rw [htime, add_mul]
      calc
        _ ≤ refilled capacity rate b now + (finish - now : Nat) * rate := hlater
        _ ≤ b.tokens + ((now - b.last : Nat) * rate + (finish - now : Nat) * rate) := by linarith

/-- What is granted between two instants. -/
theorem granted_between_le (hcapacity : 0 ≤ capacity) (hrate : 0 ≤ rate) (hb : 0 ≤ b.tokens)
    (hsorted : instants.Pairwise (· ≤ ·))
    : (((granted capacity rate b instants).filter fun now => start ≤ now && now ≤ finish).length : K)
        ≤ capacity + (finish - start : Nat) * rate := by
  have hsome : 0 ≤ capacity + (finish - start : Nat) * rate := add_nonneg hcapacity (elapsed_nonneg hrate)
  induction instants generalizing b with
  | nil => simpa [granted] using hsome
  | cons now rest ih =>
    have hrest := (List.pairwise_cons.mp hsorted).2
    have hnext : 0 ≤ (take capacity rate b now).tokens := take_tokens_nonneg hcapacity hrate hb
    by_cases hearly : now < start
    . have hskip : (granted capacity rate b (now :: rest)).filter (fun now => start ≤ now && now ≤ finish)
          = (granted capacity rate (take capacity rate b now) rest).filter fun now => start ≤ now && now ≤ finish := by
        rw [granted]
        split
        . rw [List.filter_cons_of_neg (by simp; omega)]
        . rfl
      rw [hskip]
      exact ih hnext hrest
    . have hfrom : (granted capacity rate b (now :: rest)).filter (fun now => start ≤ now && now ≤ finish)
          = (granted capacity rate b (now :: rest)).filter (· ≤ finish) := by
        apply List.filter_congr
        intro instant hinstant
        have hstart : start ≤ instant := by
          rcases List.mem_cons.mp (mem_granted hinstant) with heq | hmem
          . omega
          . have hle := (List.pairwise_cons.mp hsorted).1 instant hmem
            omega
        simp [hstart]
      rw [hfrom]
      by_cases hlate : finish < now
      . rw [granted_late hsorted hlate]
        simpa using hsome
      . have hlater := granted_cons_le (not_lt.mp hlate)
          (granted_le hcapacity hrate hnext (not_lt.mp hlate) hsorted)
        have hfull : refilled capacity rate b now ≤ capacity := refilled_le_capacity
        have htime : ((finish - now : Nat) : K) * rate ≤ ((finish - start : Nat) : K) * rate := by
          apply mul_le_mul_of_nonneg_right ?_ hrate
          rw [Nat.cast_le]
          omega
        exact le_trans hlater (add_le_add hfull htime)

end TokenBucket
