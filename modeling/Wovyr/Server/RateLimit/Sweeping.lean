import Mathlib.Data.List.Induction
import Wovyr.Server.RateLimit

/-!
This module contains proofs about what the sweeps of the limiter leave behind.
-/

namespace Wovyr.Server.RateLimit.LocalBuckets

open List

section

variable (capacity refillPerSec : Rat)

def after (checks : List Check) : LocalBuckets :=
  checks.foldl (fun s c => (s.check capacity refillPerSec c).2) new

def Tidy (s : LocalBuckets) (c : Check) : Prop :=
  SWEEP_INTERVAL ≤ s.checksSinceSweep →
    ∀ (other : String) (b : Bucket), (s.check capacity refillPerSec c).2.buckets[other]? = some b → other ≠ c.key →
      b.refilled capacity refillPerSec c.now < capacity

structure Bounded (checks : List Check) : Prop where
  tidy : ∀ (before rest : List Check) (c : Check), checks = before ++ c :: rest →
    (after capacity refillPerSec before).Tidy capacity refillPerSec c
  gone : ∀ (before idle rest : List Check) (key : String) (b : Bucket), checks = before ++ (idle ++ rest) →
    (after capacity refillPerSec before).buckets[key]? = some b → idle.length = SWEEP_INTERVAL + 1 →
      (∀ c ∈ idle, c.key ≠ key ∧ capacity < asSecs (c.now - b.lastRefill) * refillPerSec) →
        (after capacity refillPerSec (before ++ idle)).buckets[key]? = none

def leftBy (key : String) (checks : List Check) : TokenBucket.Bucket Rat :=
  ((checks.filter fun c => c.key == key).map Check.now).foldl
    (TokenBucket.take capacity (refillRate refillPerSec)) { tokens := capacity, last := 0 }

-- At every 257th check, no other key that was checked before has rested.
def Unrested (checks : List Check) : Prop :=
  ∀ (before rest : List Check) (c : Check), checks = before ++ c :: rest → before.length % 257 = 256 →
    ∀ d ∈ before, d.key ≠ c.key →
      TokenBucket.refilled capacity (refillRate refillPerSec) (leftBy capacity refillPerSec d.key before) c.now < capacity

def Checked (b : Bucket) : Prop :=
  1 ≤ capacity ∧ 0 ≤ b.tokens ∧ b.tokens < capacity ∨ capacity < 1 ∧ b.tokens = capacity

def Known (s : LocalBuckets) : Prop :=
  ∀ (key : String) (b : Bucket), s.buckets[key]? = some b → Checked capacity b

end

section

variable {capacity refillPerSec : Rat} {s : LocalBuckets} {c : Check} {checks before rest : List Check} {key : String}
  {b : Bucket}

theorem after_snoc
    : after capacity refillPerSec (checks ++ [c])
        = ((after capacity refillPerSec checks).check capacity refillPerSec c).2 := by
  unfold after
  rw [foldl_append, foldl_cons, foldl_nil]

theorem find_swept (h : (s.swept capacity).buckets[key]? = some b) : s.buckets[key]? = some b := by
  unfold swept at h
  split at h
  . rw [Std.ExtTreeMap.getElem?_filter] at h
    exact (Option.pfilter_eq_some_iff.mp h).1
  . exact h

theorem find_check (hrefill : 0 ≤ refillPerSec) (other : String)
    : (s.check capacity refillPerSec c).2.buckets[other]?
        =
      if c.key = other then
        some (((s.swept capacity).bucketOf capacity c.key).taken capacity refillPerSec c.now)
      else
        (s.swept capacity).buckets[other]? := by
  unfold check
  rw [take_eq hrefill, Map.getElem?_insert]

theorem counter_check
    : (s.check capacity refillPerSec c).2.checksSinceSweep
        = if SWEEP_INTERVAL ≤ s.checksSinceSweep then 0 else s.checksSinceSweep + 1 := by
  have htake : (s.check capacity refillPerSec c).2.checksSinceSweep = (s.swept capacity).checksSinceSweep := by
    unfold check take
    dsimp only
    split
    . rfl
    . rfl
  rw [htake]
  unfold swept
  split
  . rfl
  . rfl

theorem counter_after (checks : List Check)
    : (after capacity refillPerSec checks).checksSinceSweep = checks.length % 257 := by
  induction checks using reverseRecOn with
  | nil => rfl
  | append_singleton checks c ih =>
    rw [after_snoc, counter_check, ih, length_append, length_singleton]
    unfold SWEEP_INTERVAL
    split
    . omega
    . omega

theorem checked_taken (hrefill : 0 ≤ refillPerSec) (h : b.tokens = capacity ∨ Checked capacity b) (now : Nat)
    : Checked capacity (b.taken capacity refillPerSec now) := by
  have hrate : 0 ≤ refillRate refillPerSec := div_nonneg hrefill (by norm_num)
  by_cases hcapacity : 1 ≤ capacity
  . left
    refine ⟨hcapacity, ?_, TokenBucket.take_tokens_lt hcapacity⟩
    apply TokenBucket.take_tokens_nonneg (by linarith) hrate
    show 0 ≤ b.tokens
    rcases h with hfull | ⟨-, hnonneg, -⟩ | ⟨hless, -⟩
    . linarith
    . exact hnonneg
    . linarith
  . right
    have hless : capacity < 1 := not_le.mp hcapacity
    have hfull : b.level.tokens = capacity := by
      rcases h with hfull | ⟨hle, -⟩ | ⟨-, hfull⟩
      . exact hfull
      . linarith
      . exact hfull
    have hrefilled : TokenBucket.refilled capacity (refillRate refillPerSec) b.level now = capacity :=
      TokenBucket.refilled_full hrate hfull
    refine ⟨hless, ?_⟩
    unfold Bucket.taken TokenBucket.take
    dsimp only
    rw [hrefilled, if_neg hcapacity]

theorem Known.swept (h : s.Known capacity) : (s.swept capacity).Known capacity :=
  fun key b hb => h key b (find_swept hb)

theorem Known.bucketOf (h : s.Known capacity) (key : String)
    : (s.bucketOf capacity key).tokens = capacity ∨ Checked capacity (s.bucketOf capacity key) := by
  unfold LocalBuckets.bucketOf
  cases hb : s.buckets[key]? with
  | none => exact .inl rfl
  | some b => exact .inr (h key b hb)

theorem known_after (hrefill : 0 ≤ refillPerSec) (checks : List Check)
    : (after capacity refillPerSec checks).Known capacity := by
  induction checks using reverseRecOn with
  | nil =>
    intro key b hb
    simp [after, new] at hb
  | append_singleton checks c ih =>
    intro key b hb
    rw [after_snoc, find_check hrefill] at hb
    split at hb
    . cases hb
      exact checked_taken hrefill (ih.swept.bucketOf c.key) c.now
    . exact ih.swept key b hb

theorem swept_after (hcapacity : 1 ≤ capacity) (hrefill : 0 ≤ refillPerSec) (checks : List Check)
    : ((after capacity refillPerSec checks).swept capacity).buckets = (after capacity refillPerSec checks).buckets := by
  apply swept_buckets
  intro key b hb
  rcases known_after hrefill checks key b hb with ⟨-, -, hshort⟩ | ⟨hless, -⟩
  . exact hshort
  . linarith

theorem find_after_snoc (hcapacity : 1 ≤ capacity) (hrefill : 0 ≤ refillPerSec) (other : String)
    : (after capacity refillPerSec (checks ++ [c])).buckets[other]?
        =
      if c.key = other then
        some (((after capacity refillPerSec checks).bucketOf capacity c.key).taken capacity refillPerSec c.now)
      else
        (after capacity refillPerSec checks).buckets[other]? := by
  rw [after_snoc, find_check hrefill]
  unfold LocalBuckets.bucketOf
  rw [swept_after hcapacity hrefill]

theorem level_after (hcapacity : 1 ≤ capacity) (hrefill : 0 ≤ refillPerSec) (checks : List Check) (key : String)
    : ((after capacity refillPerSec checks).bucketOf capacity key).level = leftBy capacity refillPerSec key checks := by
  induction checks using reverseRecOn with
  | nil =>
    unfold after LocalBuckets.bucketOf new
    simp [leftBy, Bucket.level]
  | append_singleton checks c ih =>
    unfold leftBy at ih ⊢
    rw [LocalBuckets.bucketOf, find_after_snoc hcapacity hrefill, filter_append]
    by_cases hkey : c.key = key
    . subst hkey
      rw [if_pos rfl, Option.getD_some, filter_cons_of_pos (by simp), filter_nil, map_append,
        map_singleton, foldl_append, foldl_cons, foldl_nil, ← ih]
      rfl
    . rw [if_neg hkey, filter_cons_of_neg (by simpa using hkey), filter_nil, append_nil, ← ih]
      rfl

theorem find_after (hcapacity : 1 ≤ capacity) (hrefill : 0 ≤ refillPerSec) (checks : List Check) (key : String)
    : (∃ b, (after capacity refillPerSec checks).buckets[key]? = some b) ↔ ∃ c ∈ checks, c.key = key := by
  induction checks using reverseRecOn with
  | nil =>
    unfold after new
    simp
  | append_singleton checks c ih =>
    rw [find_after_snoc hcapacity hrefill]
    split
    next heq =>
      apply iff_of_true ⟨_, rfl⟩
      exact ⟨c, mem_append_right _ mem_cons_self, heq⟩
    next hne =>
      rw [ih]
      simp [hne]

theorem sweeps_iff (checks : List Check)
    : SWEEP_INTERVAL ≤ (after capacity refillPerSec checks).checksSinceSweep ↔ checks.length % 257 = 256 := by
  rw [counter_after]
  unfold SWEEP_INTERVAL
  omega

theorem tidy_of_lt (hcapacity : capacity < 1) (hrefill : 0 ≤ refillPerSec) (h : s.Known capacity)
    : s.Tidy capacity refillPerSec c := by
  intro hsweeps other b hb hne
  rw [find_check hrefill, if_neg (Ne.symm hne)] at hb
  have hfull : b.tokens = capacity := by
    rcases h.swept other b hb with ⟨hle, -⟩ | ⟨-, hfull⟩
    . linarith
    . exact hfull
  unfold LocalBuckets.swept at hb
  rw [if_pos hsweeps, Std.ExtTreeMap.getElem?_filter] at hb
  have hless := (Option.pfilter_eq_some_iff.mp hb).2
  simp [hfull] at hless

theorem tidy_iff (hcapacity : 1 ≤ capacity) (hrefill : 0 ≤ refillPerSec)
    : (after capacity refillPerSec before).Tidy capacity refillPerSec c
        ↔ (before.length % 257 = 256 → ∀ d ∈ before, d.key ≠ c.key →
          TokenBucket.refilled capacity (refillRate refillPerSec) (leftBy capacity refillPerSec d.key before) c.now
            < capacity) := by
  unfold Tidy
  rw [sweeps_iff, ← after_snoc]
  apply imp_congr_right
  intro _
  have hlevel := level_after hcapacity hrefill before
  constructor
  . intro h d hd hne
    obtain ⟨b, hb⟩ := (find_after hcapacity hrefill before d.key).mpr ⟨d, hd, rfl⟩
    have hkept := h d.key b (by rw [find_after_snoc hcapacity hrefill, if_neg (Ne.symm hne), hb]) hne
    rw [← hlevel, LocalBuckets.bucketOf, hb]
    exact hkept
  . intro h other b hb hne
    rw [find_after_snoc hcapacity hrefill, if_neg (Ne.symm hne)] at hb
    obtain ⟨d, hd, rfl⟩ := (find_after hcapacity hrefill before other).mp ⟨b, hb⟩
    have hkept := h d hd hne
    rw [← hlevel, LocalBuckets.bucketOf, hb] at hkept
    exact hkept

theorem find_idle (hrefill : 0 ≤ refillPerSec) {idle : List Check} (hidle : ∀ c ∈ idle, c.key ≠ key)
    (h : (after capacity refillPerSec (before ++ idle)).buckets[key]? = some b)
    : (after capacity refillPerSec before).buckets[key]? = some b := by
  induction idle using reverseRecOn with
  | nil => rwa [append_nil] at h
  | append_singleton idle c ih =>
    have hne := hidle c (mem_append_right _ mem_cons_self)
    rw [← append_assoc, after_snoc, find_check hrefill, if_neg hne] at h
    exact ih (fun d hd => hidle d (mem_append_left _ hd)) (find_swept h)

theorem refilled_of_idle (hrefill : 0 ≤ refillPerSec) (h : Checked capacity b) {now : Nat}
    (hlong : capacity < asSecs (now - b.lastRefill) * refillPerSec) : b.refilled capacity refillPerSec now = capacity := by
  rcases h with ⟨-, hnonneg, -⟩ | ⟨-, hfull⟩
  . rw [asSecs_mul] at hlong
    apply min_eq_right
    show capacity ≤ b.tokens + (now - b.lastRefill : Nat) * refillRate refillPerSec
    linarith
  . exact TokenBucket.refilled_full (div_nonneg hrefill (by norm_num)) hfull

theorem gone_of_tidy (hrefill : 0 ≤ refillPerSec) {idle : List Check}
    (htidy : ∀ (before' rest : List Check) (c : Check), before ++ idle = before' ++ c :: rest →
      (after capacity refillPerSec before').Tidy capacity refillPerSec c)
    (hb : (after capacity refillPerSec before).buckets[key]? = some b) (hlength : idle.length = SWEEP_INTERVAL + 1)
    (hidle : ∀ c ∈ idle, c.key ≠ key ∧ capacity < asSecs (c.now - b.lastRefill) * refillPerSec)
    : (after capacity refillPerSec (before ++ idle)).buckets[key]? = none := by
  have hlength' : idle.length = 257 := hlength
  -- One of the checks sweeps.
  obtain ⟨first, c, last, hsplit, hsweeps⟩ : ∃ first c last, idle = first ++ c :: last
      ∧ (before ++ first).length % 257 = 256 := by
    have hlt : 256 - before.length % 257 < idle.length := by omega
    refine ⟨idle.take (256 - before.length % 257), idle[256 - before.length % 257],
      idle.drop (256 - before.length % 257 + 1), ?_, ?_⟩
    . rw [← drop_eq_getElem_cons hlt, take_append_drop]
    . rw [length_append, length_take]
      omega
  subst hsplit
  by_contra hsome
  obtain ⟨b', hb'⟩ := Option.ne_none_iff_exists'.mp hsome
  have hkey : ∀ d ∈ first ++ c :: last, d.key ≠ key := fun d hd => (hidle d hd).1
  have hsame : b' = b := by
    have hold := find_idle hrefill hkey hb'
    rw [hb] at hold
    exact (Option.some.inj hold).symm
  subst hsame
  have hswept : (after capacity refillPerSec (before ++ first ++ [c])).buckets[key]? = some b' := by
    have hlast : ∀ d ∈ last, d.key ≠ key := fun d hd => hkey d (mem_append_right _ (mem_cons_of_mem _ hd))
    apply find_idle hrefill hlast
    simpa using hb'
  obtain ⟨hne, hlong⟩ := hidle c (mem_append_right _ mem_cons_self)
  have hrested := refilled_of_idle hrefill (known_after hrefill before key b' hb) hlong
  rw [after_snoc] at hswept
  have hunrested := htidy (before ++ first) last c (by rw [append_assoc]) ((sweeps_iff _).mpr hsweeps) key b' hswept
    (Ne.symm hne)
  rw [hrested] at hunrested
  exact lt_irrefl _ hunrested

/--
A limiter that can admit something at all removes no bucket, so it is within its bound as long as nothing
has rested when it sweeps.
-/
theorem bounded_iff_unrested (hrefill : 0 ≤ refillPerSec) (checks : List Check)
    : Bounded capacity refillPerSec checks ↔ capacity < 1 ∨ Unrested capacity refillPerSec checks := by
  constructor
  . intro h
    by_cases hcapacity : capacity < 1
    . exact .inl hcapacity
    . right
      intro before rest c hsplit
      exact (tidy_iff (not_lt.mp hcapacity) hrefill).mp (h.tidy before rest c hsplit)
  . intro h
    have htidy : ∀ (before rest : List Check) (c : Check), checks = before ++ c :: rest →
        (after capacity refillPerSec before).Tidy capacity refillPerSec c := by
      intro before rest c hsplit
      by_cases hcapacity : capacity < 1
      . exact tidy_of_lt hcapacity hrefill (known_after hrefill before)
      . apply (tidy_iff (not_lt.mp hcapacity) hrefill).mpr
        exact h.resolve_left hcapacity before rest c hsplit
    constructor
    . exact htidy
    . intro before idle rest key b hsplit hb hlength hidle
      apply gone_of_tidy hrefill ?_ hb hlength hidle
      intro before' rest' c hsplit'
      apply htidy before' (rest' ++ rest) c
      rw [hsplit, ← append_assoc, hsplit', append_assoc, cons_append]

def busy : List Check :=
  ⟨"alice", 0⟩ :: replicate 256 ⟨"bob", 500000000⟩

def forgotten : List Check :=
  ⟨"alice", 0⟩ :: replicate 257 ⟨"bob", 10000000000⟩

theorem forgotten_eq : forgotten = [⟨"alice", 0⟩] ++ (replicate 257 ⟨"bob", 10000000000⟩ ++ []) := by
  rw [append_nil]
  rfl

theorem forgotten_idle {capacity : Rat} {b : Bucket} (hlast : b.lastRefill = 0) (hcapacity : capacity < 10)
    : ∀ c ∈ replicate 257 (⟨"bob", 10000000000⟩ : Check),
      c.key ≠ "alice" ∧ capacity < asSecs (c.now - b.lastRefill) * 1 := by
  intro c hc
  rw [eq_of_mem_replicate hc, hlast]
  have hsecs : asSecs (10000000000 - 0) * 1 = 10 := by decide +kernel
  exact ⟨by decide, hsecs.symm ▸ hcapacity⟩

-- The last check of the first run sweeps. A limiter that admits nothing forgets who rests.
theorem bounded_busy
    : Bounded 2 1 busy
        ∧ Bounded (1 / 2) 1 forgotten
        ∧ (after (1 / 2) 1 forgotten).buckets["alice"]? = none := by
  have hnothing : Bounded (1 / 2) 1 forgotten :=
    (bounded_iff_unrested (by decide) forgotten).mpr (.inl (by decide +kernel))
  refine ⟨(bounded_iff_unrested (by decide) busy).mpr (.inr ?_), hnothing, ?_⟩
  . intro before rest c hsplit hsweeps d hd hother
    have hbusy : busy = (⟨"alice", 0⟩ :: replicate 255 ⟨"bob", 500000000⟩) ++ [⟨"bob", 500000000⟩] := by
      rw [cons_append, ← replicate_succ']
      rfl
    have hlength := congrArg length hsplit
    simp only [busy, length_append, length_cons, length_replicate] at hlength
    have hfirst : (⟨"alice", 0⟩ :: replicate 255 (⟨"bob", 500000000⟩ : Check)).length = 256 := by
      rw [length_cons, length_replicate]
    obtain ⟨rfl, hlast⟩ := append_inj (hsplit.symm.trans hbusy) (Eq.trans (by omega) hfirst.symm)
    cases hlast
    rcases mem_cons.mp hd with rfl | hbob
    . decide +kernel
    . exact absurd (congrArg Check.key (eq_of_mem_replicate hbob)) hother
  . have hfirst : (after (1 / 2) 1 [⟨"alice", 0⟩]).buckets["alice"]? = some { tokens := 1 / 2, lastRefill := 0 } := by
      decide +kernel
    have hnone := hnothing.gone _ _ _ "alice" _ forgotten_eq hfirst length_replicate
      (forgotten_idle rfl (by decide +kernel))
    exact hnone

theorem not_bounded_forgotten : ¬ Bounded 1 1 forgotten := by
  intro h
  have hfirst : (after 1 1 [⟨"alice", 0⟩]).buckets["alice"]? = some { tokens := 0, lastRefill := 0 } := by
    rw [← nil_append [_], find_after_snoc (by decide) (by decide), if_pos rfl]
    decide +kernel
  have hnone := h.gone _ _ _ "alice" _ forgotten_eq hfirst length_replicate (forgotten_idle rfl (by decide +kernel))
  have hkept := @find_after 1 1 (by decide) (by decide)
    ([⟨"alice", 0⟩] ++ replicate 257 ⟨"bob", 10000000000⟩) "alice"
  obtain ⟨b, hb⟩ := hkept.mpr ⟨⟨"alice", 0⟩, mem_append_left _ mem_cons_self, rfl⟩
  rw [hb] at hnone
  cases hnone

end

end Wovyr.Server.RateLimit.LocalBuckets
