import Wovyr.Lib.Map
import Wovyr.Lib.Run
import Wovyr.Lib.TokenBucket

/-!
This module contains the rate limiter of the server with its buckets of tokens in the process, and
proofs that its keys do not meddle and how much it can admit between two instants.
-/

namespace Wovyr.Server.RateLimit

structure Bucket where
  tokens : Rat
  lastRefill : Nat
deriving DecidableEq

structure LocalBuckets where
  buckets : Std.ExtTreeMap String Bucket := ∅
  checksSinceSweep : Nat := 0

def SWEEP_INTERVAL : Nat := 256

def asSecs (nanos : Nat) : Rat :=
  nanos / 1000000000

structure Check where
  key : String
  now : Nat

namespace LocalBuckets

variable (capacity refillPerSec : Rat) (s : LocalBuckets)

def new : LocalBuckets :=
  {}

def swept : LocalBuckets :=
  if SWEEP_INTERVAL ≤ s.checksSinceSweep then
    { buckets := s.buckets.filter fun _ b => b.tokens < capacity, checksSinceSweep := 0 }
  else
    { s with checksSinceSweep := s.checksSinceSweep + 1 }

def take (c : Check) : Except Rat Unit × LocalBuckets :=
  let bucket := s.buckets[c.key]?.getD { tokens := capacity, lastRefill := c.now }
  let elapsed := asSecs (c.now - bucket.lastRefill)
  let tokens := min (bucket.tokens + elapsed * refillPerSec) capacity
  if 1 ≤ tokens then
    (.ok (), { s with buckets := s.buckets.insert c.key { tokens := tokens - 1, lastRefill := c.now } })
  else
    let deficit := 1 - tokens
    (.error (deficit / refillPerSec),
      { s with buckets := s.buckets.insert c.key { tokens, lastRefill := c.now } })

def check (c : Check) : Except Rat Unit × LocalBuckets :=
  (s.swept capacity).take capacity refillPerSec c

end LocalBuckets

structure RateLimiter where
  capacity : Rat
  refillPerSec : Rat
  buckets : LocalBuckets

namespace RateLimiter

def new (capacity perMinute : Nat) : RateLimiter :=
  { capacity, refillPerSec := perMinute / 60, buckets := .new }

def check (l : RateLimiter) (c : Check) : Except Rat Unit × RateLimiter :=
  let (decision, buckets) := l.buckets.check l.capacity l.refillPerSec c
  (decision, { l with buckets })

end RateLimiter

def refillRate (refillPerSec : Rat) : Rat :=
  refillPerSec / 1000000000

theorem asSecs_mul (nanos : Nat) (refillPerSec : Rat) : asSecs nanos * refillPerSec = nanos * refillRate refillPerSec := by
  unfold asSecs refillRate
  ring

namespace Bucket

def level (b : Bucket) : TokenBucket.Bucket Rat :=
  { tokens := b.tokens, last := b.lastRefill }

def refilled (capacity refillPerSec : Rat) (b : Bucket) (now : Nat) : Rat :=
  TokenBucket.refilled capacity (refillRate refillPerSec) b.level now

def decision (capacity refillPerSec : Rat) (b : Bucket) (now : Nat) : Except Rat Unit :=
  if 1 ≤ b.refilled capacity refillPerSec now then
    .ok ()
  else
    .error ((1 - b.refilled capacity refillPerSec now) / refillPerSec)

theorem decision_isOk (capacity refillPerSec : Rat) (b : Bucket) (now : Nat)
    : (b.decision capacity refillPerSec now).isOk = true ↔ 1 ≤ b.refilled capacity refillPerSec now := by
  unfold decision
  split
  next h => exact iff_of_true rfl h
  next h => exact iff_of_false Bool.false_ne_true h

def taken (capacity refillPerSec : Rat) (b : Bucket) (now : Nat) : Bucket :=
  { tokens := (TokenBucket.take capacity (refillRate refillPerSec) b.level now).tokens, lastRefill := now }

end Bucket

namespace LocalBuckets

section

variable (capacity refillPerSec : Rat)

def bucketOf (s : LocalBuckets) (key : String) : Bucket :=
  s.buckets[key]?.getD { tokens := capacity, lastRefill := 0 }

def decisions (step : LocalBuckets → Check → Except Rat Unit × LocalBuckets) (s : LocalBuckets) (checks : List Check)
    : List (Check × Except Rat Unit) :=
  checks.zip (answers step s checks)

def ofKey (key : String) (decisions : List (Check × Except Rat Unit)) : List (Check × Except Rat Unit) :=
  decisions.filter fun d => d.1.key == key

def admitted (key : String) (start finish : Nat) (decisions : List (Check × Except Rat Unit)) : List Nat :=
  (((ofKey key decisions).filter fun d => d.2.isOk).map fun d => d.1.now).filter fun now => start ≤ now && now ≤ finish

def Short (s : LocalBuckets) : Prop :=
  ∀ (key : String) (b : Bucket), s.buckets[key]? = some b → b.tokens < capacity

end

section

variable {capacity refillPerSec : Rat} {s t : LocalBuckets} {c : Check} {key : String}

theorem refilled_getD (hrefill : 0 ≤ refillPerSec)
    : min ((s.buckets[c.key]?.getD { tokens := capacity, lastRefill := c.now }).tokens
          + asSecs (c.now - (s.buckets[c.key]?.getD { tokens := capacity, lastRefill := c.now }).lastRefill)
            * refillPerSec) capacity
        = (s.bucketOf capacity c.key).refilled capacity refillPerSec c.now := by
  rw [asSecs_mul]
  unfold bucketOf
  cases s.buckets[c.key]? with
  | some b => rfl
  | none =>
    have hrate : 0 ≤ refillRate refillPerSec := div_nonneg hrefill (by norm_num)
    have hfull : TokenBucket.refilled capacity (refillRate refillPerSec)
        (Bucket.level { tokens := capacity, lastRefill := 0 }) c.now = capacity :=
      TokenBucket.refilled_full hrate rfl
    unfold Bucket.refilled
    rw [Option.getD_none, Option.getD_none, hfull, Nat.sub_self, Nat.cast_zero, zero_mul, add_zero, min_self]

theorem take_eq (hrefill : 0 ≤ refillPerSec)
    : s.take capacity refillPerSec c
        =
      ((s.bucketOf capacity c.key).decision capacity refillPerSec c.now,
        { s with buckets := s.buckets.insert c.key ((s.bucketOf capacity c.key).taken capacity refillPerSec c.now) }) := by
  unfold take Bucket.decision Bucket.taken TokenBucket.take
  dsimp only
  rw [refilled_getD hrefill]
  unfold Bucket.refilled
  split
  . rfl
  . rfl

theorem bucketOf_insert (b : Bucket) (other : String)
    : bucketOf capacity { s with buckets := s.buckets.insert key b } other
        = if key = other then b else s.bucketOf capacity other := by
  unfold bucketOf
  rw [Map.getElem?_insert]
  split
  . rfl
  . rfl

theorem decisions_cons (step : LocalBuckets → Check → Except Rat Unit × LocalBuckets) (checks : List Check)
    : decisions step s (c :: checks) = (c, (step s c).1) :: decisions step (step s c).2 checks :=
  rfl

theorem ofKey_decisions (hrefill : 0 ≤ refillPerSec) (checks : List Check)
    (h : s.bucketOf capacity key = t.bucketOf capacity key)
    : ofKey key (decisions (take capacity refillPerSec) s checks)
        = decisions (take capacity refillPerSec) t (checks.filter fun c => c.key == key) := by
  induction checks generalizing s t with
  | nil => rfl
  | cons c checks ih =>
    rw [decisions_cons, take_eq hrefill]
    unfold ofKey at ih ⊢
    by_cases hkey : c.key = key
    . subst hkey
      rw [List.filter_cons_of_pos (by simp), List.filter_cons_of_pos (by simp), decisions_cons, take_eq hrefill, h]
      congr 1
      apply ih
      rw [bucketOf_insert, bucketOf_insert, if_pos rfl, if_pos rfl]
    . rw [List.filter_cons_of_neg (by simpa using hkey), List.filter_cons_of_neg (by simpa using hkey)]
      apply ih
      rw [bucketOf_insert, if_neg hkey]
      exact h

theorem map_granted (hrefill : 0 ≤ refillPerSec) (checks : List Check)
    : ((ofKey key (decisions (take capacity refillPerSec) s checks)).filter fun d => d.2.isOk).map (fun d => d.1.now)
        = TokenBucket.granted capacity (refillRate refillPerSec) (s.bucketOf capacity key).level
          ((checks.filter fun c => c.key == key).map Check.now) := by
  induction checks generalizing s with
  | nil => rfl
  | cons c checks ih =>
    rw [decisions_cons, take_eq hrefill]
    unfold ofKey at ih ⊢
    by_cases hkey : c.key = key
    . subst hkey
      rw [List.filter_cons_of_pos (by simp), List.filter_cons_of_pos (p := fun c' : Check => c'.key == c.key) (by simp),
        List.map_cons, TokenBucket.granted]
      have hnext := ih (s := { s with
        buckets := s.buckets.insert c.key ((s.bucketOf capacity c.key).taken capacity refillPerSec c.now) })
      rw [bucketOf_insert, if_pos rfl] at hnext
      have hisOk := (s.bucketOf capacity c.key).decision_isOk capacity refillPerSec c.now
      split
      next hgranted =>
        rw [List.filter_cons_of_pos (by exact hisOk.mpr hgranted), List.map_cons, hnext]
        rfl
      next hrefused =>
        rw [List.filter_cons_of_neg (by exact mt hisOk.mp hrefused), hnext]
        rfl
    . rw [List.filter_cons_of_neg (by simpa using hkey), List.filter_cons_of_neg (by simpa using hkey), ih,
        bucketOf_insert, if_neg hkey]

theorem swept_buckets (h : s.Short capacity) : (s.swept capacity).buckets = s.buckets := by
  unfold swept
  split
  . apply Std.ExtTreeMap.ext_getElem?
    intro key
    rw [Std.ExtTreeMap.getElem?_filter]
    cases hb : s.buckets[key]? with
    | none => rfl
    | some b =>
      rw [Option.pfilter_some]
      simp [h key b hb]
  . rfl

theorem short_take (hcapacity : 1 ≤ capacity) (hrefill : 0 ≤ refillPerSec) (h : s.Short capacity)
    : (s.take capacity refillPerSec c).2.Short capacity := by
  rw [take_eq hrefill]
  intro key b hb
  rcases Map.of_insert hb with ⟨-, rfl⟩ | hb
  . exact TokenBucket.take_tokens_lt hcapacity
  . exact h key b hb

theorem take_congr {capacity refillPerSec : Rat} {s t : LocalBuckets} {c : Check} (hrefill : 0 ≤ refillPerSec)
    (h : s.buckets = t.buckets)
    : (s.take capacity refillPerSec c).1 = (t.take capacity refillPerSec c).1
        ∧ (s.take capacity refillPerSec c).2.buckets = (t.take capacity refillPerSec c).2.buckets := by
  have hbucket : s.bucketOf capacity c.key = t.bucketOf capacity c.key := by
    unfold bucketOf
    rw [h]
  rw [take_eq hrefill, take_eq hrefill, hbucket, h]
  exact ⟨rfl, rfl⟩

theorem decisions_check (hcapacity : 1 ≤ capacity) (hrefill : 0 ≤ refillPerSec) (checks : List Check)
    : decisions (check capacity refillPerSec) new checks = decisions (take capacity refillPerSec) new checks := by
  unfold decisions
  congr 1
  apply answers_eq (R := fun s t => s.buckets = t.buckets ∧ s.Short capacity) (p := fun _ => True)
  . rintro s t c ⟨hbuckets, hshort⟩ -
    have hswept : (s.swept capacity).buckets = t.buckets := by rw [swept_buckets hshort, hbuckets]
    obtain ⟨hdecision, hnext⟩ := take_congr hrefill hswept
    refine ⟨hdecision, hnext, ?_⟩
    apply short_take hcapacity hrefill
    intro key b hb
    rw [swept_buckets hshort] at hb
    exact hshort key b hb
  . refine ⟨rfl, ?_⟩
    intro key b hb
    simp [new] at hb
  . exact fun _ _ => trivial

/-- How much is admitted of each key, whatever the other keys and the sweeps. -/
theorem limiter_bounded (hcapacity : 1 ≤ capacity) (hrefill : 0 < refillPerSec) {checks : List Check}
    (horder : checks.Pairwise fun a b => a.now ≤ b.now)
    : (∀ (key : String) (start finish : Nat), start ≤ finish →
        ((admitted key start finish (decisions (check capacity refillPerSec) new checks)).length : Rat)
          ≤ capacity + refillPerSec * asSecs (finish - start))
        ∧ (∀ key : String, ofKey key (decisions (check capacity refillPerSec) new checks)
          = decisions (check capacity refillPerSec) new (checks.filter fun c => c.key == key))
        ∧ decisions (check capacity refillPerSec) new checks = decisions (take capacity refillPerSec) new checks := by
  have hrefill' : 0 ≤ refillPerSec := le_of_lt hrefill
  refine ⟨?_, ?_, decisions_check hcapacity hrefill' checks⟩
  . intro key start finish _
    have hrate : 0 ≤ refillRate refillPerSec := div_nonneg hrefill' (by norm_num)
    have hfull : 0 ≤ (new.bucketOf capacity key).level.tokens := by
      have htokens : (new.bucketOf capacity key).level.tokens = capacity := by simp [bucketOf, new, Bucket.level]
      linarith
    have hsorted : ((checks.filter fun c => c.key == key).map Check.now).Pairwise (· ≤ ·) := by
      rw [List.pairwise_map]
      exact horder.filter _
    rw [decisions_check hcapacity hrefill', admitted, map_granted hrefill', mul_comm refillPerSec, asSecs_mul]
    exact TokenBucket.granted_between_le (by linarith) hrate hfull hsorted
  . intro key
    rw [decisions_check hcapacity hrefill', decisions_check hcapacity hrefill']
    exact ofKey_decisions hrefill' checks rfl

theorem limiter_bounded_burst
    : ((admitted "alice" 0 1000000000 (decisions (check 2 1) new
        [⟨"alice", 0⟩, ⟨"bob", 0⟩, ⟨"alice", 5⟩, ⟨"alice", 1000000000⟩])).length : Rat) ≤ 2 + 1 * asSecs 1000000000 :=
  (limiter_bounded (by decide) (by decide) (by decide)).1 "alice" 0 1000000000 (by decide)

end

end Wovyr.Server.RateLimit.LocalBuckets
