import Wovyr.Workflow.Cron

/-!
This module contains which values the mask of a cron field stands for, and for which steps the loop that
sets its bits stays in the range of its sums.
-/

namespace Wovyr

open Text

namespace Workflow.Cron

structure Grid where
  lo : Nat
  hi : Nat
  step : Nat
deriving Repr, DecidableEq, Inhabited

namespace Grid

def values (g : Grid) : Set Nat :=
  { v | v ≤ g.hi ∧ ∃ k, v = g.lo + k * g.step }

-- The loop over the values comes to its end within the rounds, and no sum is out of range.
def Ends (hi step : Nat) : Nat → Nat → Prop
  | 0, _ => False
  | rounds + 1, v => v ≤ hi → v + step < 2 ^ 32 ∧ Ends hi step rounds (v + step)

end Grid

section

variable (min max : Nat) (names : Option (List String))

inductive Spans : String → Nat → Nat → Prop where
  | all : Spans "*" min max
  | between {a b : String} {lo hi : Nat} (hfree : '-' ∉ a.toList)
    (hlo : parseValue (trim a) names min max = .ok lo)
    (hhi : parseValue (trim b) names min max = .ok hi) : Spans (a ++ "-" ++ b) lo hi
  | single {range : String} {v : Nat} (hall : range ≠ "*") (hfree : '-' ∉ range.toList)
    (hv : parseValue range names min max = .ok v) : Spans range v v

inductive Steps : String → String → Nat → Prop where
  | one {part : String} (hfree : '/' ∉ part.toList) : Steps part part 1
  | given {range digits : String} {step : Nat} (hfree : '/' ∉ range.toList)
    (hdigits : parseUnsigned (2 ^ 32) digits = some step) (hpos : 0 < step)
    : Steps (range ++ "/" ++ digits) (trim range) step

/--
A part of a field is well formed, with its ends in the order and in the bounds they have to be in.
-/
structure Reads (part : String) (g : Grid) : Prop where
  spelled : ∃ range, Steps (trim part) range g.step ∧ Spans min max names range g.lo g.hi
  lower : min ≤ g.lo
  upper : g.hi ≤ max
  ordered : g.lo ≤ g.hi

def parts (spec : String) : List String :=
  split ',' (trim spec)

def Reached (spec part : String) (g : Grid) : Prop :=
  ∃ before after, parts spec = before ++ part :: after ∧ (∀ b ∈ before, ∃ g, Reads min max names b g)
    ∧ Reads min max names part g

structure FieldExact (spec : String) : Prop where
  ends : ∀ part g, Reached min max names spec part g → ∃ rounds, Grid.Ends g.hi g.step rounds g.lo
  bits : ∀ mask, parseField spec min max names = .ok mask → ∀ bit,
    mask.testBit bit = true ↔ ∃ part ∈ parts spec, ∃ g, Reads min max names part g ∧ bit ∈ g.values
  within : ∀ mask, parseField spec min max names = .ok mask → ∀ bit, mask.testBit bit = true →
    min ≤ bit ∧ bit ≤ max
  refused : (∃ err, parseField spec min max names = .error err)
    ↔ trim spec = "" ∨ ∃ part ∈ parts spec, ∀ g, ¬Reads min max names part g

def readStep (part : String) : Except Error (String × Nat) :=
  match splitOnce '/' part with
  | some (r, s) =>
    match parseUnsigned (2 ^ 32) s with
    | none => .error (.invalid s!"invalid cron step `{s}`")
    | some 0 => .error (.invalid "cron step must be > 0")
    | some step => .ok (trim r, step)
  | none => .ok (part, 1)

def readRange (rangePart : String) : Except Error (Nat × Nat) :=
  if rangePart = "*" then
    .ok (min, max)
  else
    match splitOnce '-' rangePart with
    | some (a, b) => do
      let lo ← parseValue (trim a) names min max
      let hi ← parseValue (trim b) names min max
      .ok (lo, hi)
    | none => do
      let v ← parseValue rangePart names min max
      .ok (v, v)

end

section

variable {min max : Nat} {names : Option (List String)}

theorem readRange_bind (rangePart : String) (f : Nat × Nat → Except Error Nat)
    : (if rangePart = "*" then
        f (min, max)
      else
        match splitOnce '-' rangePart with
        | some (a, b) => do
          let lo ← parseValue (trim a) names min max
          let hi ← parseValue (trim b) names min max
          f (lo, hi)
        | none => do
          let v ← parseValue rangePart names min max
          f (v, v))
        =
      (readRange min max names rangePart >>= f) := by
  unfold readRange
  by_cases hall : rangePart = "*"
  . rw [if_pos hall, if_pos hall]
    rfl
  . rw [if_neg hall, if_neg hall]
    cases splitOnce '-' rangePart with
    | none => cases parseValue rangePart names min max <;> rfl
    | some sides =>
      dsimp only
      cases parseValue (trim sides.1) names min max with
      | error err => rfl
      | ok lo => cases parseValue (trim sides.2) names min max <;> rfl

def finishPart (part : String) (mask step : Nat) (ends : Nat × Nat) : Except Error Nat :=
  if ends.1 < min ∨ max < ends.2 ∨ ends.2 < ends.1 then
    .error (.invalid
      s!"cron value out of range or inverted in `{part}` (expected {min}..={max})")
  else
    .ok (stepMask ends.2 step (ends.2 + 2) ends.1 mask)

theorem parsePart_eq (mask : Nat) (part : String)
    : parsePart min max names mask part
        =
      (readStep (trim part) >>= fun (rangePart, step) =>
        readRange min max names rangePart >>= @finishPart min max (trim part) mask step) := by
  unfold parsePart readStep
  generalize trim part = part
  dsimp only
  cases splitOnce '/' part with
  | none => exact @readRange_bind min max names part (@finishPart min max part mask 1)
  | some sides =>
    dsimp only
    cases parseUnsigned (2 ^ 32) sides.2 with
    | none => rfl
    | some n =>
      cases n with
      | zero => rfl
      | succ n =>
        simp only
        generalize trim sides.1 = rangePart, n + 1 = step
        exact @readRange_bind min max names rangePart (@finishPart min max part mask step)

theorem readStep_eq_ok {part range : String} {step : Nat}
    : readStep part = .ok (range, step) ↔ Steps part range step := by
  constructor
  . intro h
    unfold readStep at h
    cases hsplit : splitOnce '/' part with
    | none =>
      rw [hsplit] at h
      cases h
      exact .one ((splitOnce_eq_none).mp hsplit)
    | some sides =>
      obtain ⟨r, s⟩ := sides
      obtain ⟨hfree, heq⟩ := (splitOnce_eq_some).mp hsplit
      rw [hsplit] at h
      dsimp only at h
      have hpart : part = r ++ "/" ++ s := by
        rw [← String.toList_inj, heq]
        simp
      cases hdigits : parseUnsigned (2 ^ 32) s with
      | none =>
        rw [hdigits] at h
        cases h
      | some n =>
        rw [hdigits] at h
        cases n with
        | zero => cases h
        | succ n =>
          cases h
          rw [hpart]
          exact .given hfree hdigits (Nat.succ_pos n)
  . intro h
    unfold readStep
    cases h with
    | one hfree => rw [splitOnce_of_not_mem hfree]
    | @given range digits _ hfree hdigits hpos =>
      have hsplit : splitOnce '/' (range ++ "/" ++ digits) = some (range, digits) :=
        (splitOnce_eq_some).mpr ⟨hfree, by simp⟩
      rw [hsplit]
      dsimp only
      rw [hdigits]
      obtain ⟨n, rfl⟩ := Nat.exists_eq_add_of_lt hpos
      simp

theorem readRange_eq_ok {range : String} {lo hi : Nat}
    : readRange min max names range = .ok (lo, hi) ↔ Spans min max names range lo hi := by
  constructor
  . intro h
    unfold readRange at h
    split at h
    next heq =>
      cases h
      rw [heq]
      exact .all
    next hall =>
      cases hsplit : splitOnce '-' range with
      | none =>
        rw [hsplit] at h
        dsimp only at h
        cases hv : parseValue range names min max with
        | error err =>
          rw [hv] at h
          cases h
        | ok v =>
          rw [hv] at h
          cases h
          exact .single hall ((splitOnce_eq_none).mp hsplit) hv
      | some sides =>
        obtain ⟨a, b⟩ := sides
        obtain ⟨hfree, heq⟩ := (splitOnce_eq_some).mp hsplit
        have hrange : range = a ++ "-" ++ b := by
          rw [← String.toList_inj, heq]
          simp
        rw [hsplit] at h
        dsimp only at h
        cases hlo : parseValue (trim a) names min max with
        | error err =>
          rw [hlo] at h
          cases h
        | ok lo' =>
          rw [hlo] at h
          cases hhi : parseValue (trim b) names min max with
          | error err =>
            rw [hhi] at h
            cases h
          | ok hi' =>
            rw [hhi] at h
            cases h
            rw [hrange]
            exact .between hfree hlo hhi
  . intro h
    unfold readRange
    cases h with
    | all => rfl
    | @between a b _ _ hfree hlo hhi =>
      have hsplit : splitOnce '-' (a ++ "-" ++ b) = some (a, b) :=
        (splitOnce_eq_some).mpr ⟨hfree, by simp⟩
      have hall : a ++ "-" ++ b ≠ "*" := by
        intro heq
        have hmem : '-' ∈ (a ++ "-" ++ b).toList := by simp
        rw [heq] at hmem
        revert hmem
        decide
      rw [if_neg hall, hsplit]
      dsimp only
      rw [hlo, hhi]
      rfl
    | single hall hfree hv =>
      rw [if_neg hall, splitOnce_of_not_mem hfree]
      dsimp only
      rw [hv]
      rfl

theorem parsePart_eq_ok {mask m : Nat} {part : String}
    : parsePart min max names mask part = .ok m
        ↔ ∃ g, Reads min max names part g ∧ m = stepMask g.hi g.step (g.hi + 2) g.lo mask := by
  rw [parsePart_eq]
  constructor
  . intro h
    cases hstep : readStep (trim part) with
    | error err =>
      rw [hstep] at h
      cases h
    | ok read =>
      obtain ⟨range, step⟩ := read
      rw [hstep] at h
      dsimp only [bind, Except.bind] at h
      cases hrange : readRange min max names range with
      | error err =>
        rw [hrange] at h
        cases h
      | ok ends =>
        obtain ⟨lo, hi⟩ := ends
        rw [hrange] at h
        dsimp only [finishPart] at h
        split at h
        . cases h
        . next hin =>
          cases h
          have hspelled : ∃ range, Steps (trim part) range step ∧ Spans min max names range lo hi :=
            ⟨range, (readStep_eq_ok).mp hstep, (readRange_eq_ok).mp hrange⟩
          exact ⟨⟨lo, hi, step⟩, ⟨hspelled, by simp; omega, by simp; omega, by simp; omega⟩, rfl⟩
  . rintro ⟨g, ⟨⟨range, hstep, hrange⟩, hlower, hupper, hordered⟩, rfl⟩
    rw [(readStep_eq_ok).mpr hstep]
    dsimp only [bind, Except.bind]
    rw [(readRange_eq_ok).mpr hrange]
    dsimp only [finishPart]
    rw [if_neg (by omega)]

theorem Reads.unique {part : String} {g g' : Grid} (h : Reads min max names part g)
    (h' : Reads min max names part g') : g = g' := by
  obtain ⟨range, hstep, hrange⟩ := h.spelled
  obtain ⟨range', hstep', hrange'⟩ := h'.spelled
  have hreadStep := ((readStep_eq_ok).mpr hstep).symm.trans ((readStep_eq_ok).mpr hstep')
  cases g
  cases g'
  simp only [Except.ok.injEq, Prod.mk.injEq] at hreadStep
  obtain ⟨rfl, rfl⟩ := hreadStep
  have hreadRange := ((readRange_eq_ok).mpr hrange).symm.trans ((readRange_eq_ok).mpr hrange')
  simp only [Except.ok.injEq, Prod.mk.injEq] at hreadRange
  obtain ⟨rfl, rfl⟩ := hreadRange
  rfl

theorem Reads.step_pos {part : String} {g : Grid} (h : Reads min max names part g) : 0 < g.step := by
  obtain ⟨range, hstep, -⟩ := h.spelled
  generalize trim part = trimmed at hstep
  generalize g.step = step at hstep ⊢
  cases hstep with
  | one => exact Nat.zero_lt_one
  | given _ _ hpos => exact hpos

theorem next_sum {hi step v : Nat} (hhi : hi ≤ 59) (hnext : v + step ≤ hi) : v + step + step < 2 ^ 32 := by
  omega

theorem not_value_of_lt {hi step v : Nat} (h : hi < v) (bit : Nat)
    : ¬(bit ≤ hi ∧ ∃ k, bit = v + k * step) := by
  rintro ⟨hbit, k, rfl⟩
  omega

theorem testBit_stepMask {hi step : Nat} (hhi : hi ≤ 59) (hpos : 0 < step) (bit : Nat) {rounds v mask : Nat}
    (hrounds : hi + 2 ≤ rounds + v) (hsum : v ≤ hi → v + step < 2 ^ 32)
    : (stepMask hi step rounds v mask).testBit bit = true
        ↔ mask.testBit bit = true ∨ bit ≤ hi ∧ ∃ k, bit = v + k * step := by
  induction rounds generalizing v mask with
  | zero =>
    unfold stepMask
    rw [or_iff_left (not_value_of_lt (by omega) bit)]
  | succ rounds ih =>
    unfold stepMask
    split
    . next hv =>
      have hlt := hsum hv
      rw [Nat.mod_eq_of_lt hlt, ih (by omega) (next_sum hhi), Nat.testBit_or, Nat.one_shiftLeft,
        Nat.testBit_two_pow, Bool.or_eq_true, decide_eq_true_iff, or_assoc]
      apply or_congr_right
      constructor
      . rintro (rfl | ⟨hbit, k, rfl⟩)
        . exact ⟨hv, 0, by simp⟩
        . exact ⟨hbit, k + 1, by rw [Nat.add_mul, Nat.one_mul]; omega⟩
      . rintro ⟨hbit, k, rfl⟩
        cases k with
        | zero => exact .inl (by simp)
        | succ k => exact .inr ⟨hbit, k, by rw [Nat.add_mul, Nat.one_mul]; omega⟩
    . next hv => rw [or_iff_left (not_value_of_lt (by omega) bit)]

theorem ends_of_sum {hi step : Nat} (hhi : hi ≤ 59) (hpos : 0 < step) {rounds v : Nat}
    (hrounds : hi + 2 ≤ rounds + v) (hsum : v ≤ hi → v + step < 2 ^ 32) (hlt : 0 < rounds)
    : Grid.Ends hi step rounds v := by
  induction rounds generalizing v with
  | zero => omega
  | succ rounds ih =>
    unfold Grid.Ends
    intro hv
    exact ⟨hsum hv, ih (by omega) (next_sum hhi) (by omega)⟩

theorem ends_iff {g : Grid} (hmax : max ≤ 59) {part : String} (h : Reads min max names part g)
    : (∃ rounds, Grid.Ends g.hi g.step rounds g.lo) ↔ g.lo + g.step < 2 ^ 32 := by
  constructor
  . rintro ⟨rounds, hends⟩
    cases rounds with
    | zero => exact hends.elim
    | succ rounds => exact (hends h.ordered).1
  . intro hsum
    exact ⟨g.hi + 2, ends_of_sum (h.upper.trans hmax) h.step_pos (by omega) (fun _ => hsum) (by omega)⟩

theorem foldlM_bits (hmax : max ≤ 59) {ps : List String}
    (hsums : ∀ part ∈ ps, ∀ g, Reads min max names part g → g.lo + g.step < 2 ^ 32) {mask m : Nat}
    (h : ps.foldlM (parsePart min max names) mask = .ok m) (bit : Nat)
    : m.testBit bit = true
        ↔ mask.testBit bit = true ∨ ∃ part ∈ ps, ∃ g, Reads min max names part g ∧ bit ∈ g.values := by
  induction ps generalizing mask with
  | nil =>
    cases h
    simp
  | cons part ps ih =>
    rw [List.foldlM_cons] at h
    cases hpart : parsePart min max names mask part with
    | error err =>
      rw [hpart] at h
      cases h
    | ok mask' =>
      rw [hpart] at h
      obtain ⟨g, hreads, rfl⟩ := (parsePart_eq_ok).mp hpart
      rw [ih (fun p hp => hsums p (List.mem_cons_of_mem _ hp)) h,
        testBit_stepMask (hreads.upper.trans hmax) hreads.step_pos bit (by omega)
          (fun _ => hsums part List.mem_cons_self g hreads),
        or_assoc, List.exists_mem_cons_iff]
      have hhead : (∃ g, Reads min max names part g ∧ bit ∈ g.values) ↔ bit ∈ g.values := by
        constructor
        . rintro ⟨g', hreads', hbit⟩
          rwa [hreads.unique hreads']
        . exact fun hbit => ⟨g, hreads, hbit⟩
      rw [hhead]
      rfl

theorem foldlM_eq_error {ps : List String} {mask : Nat}
    : (∃ err, ps.foldlM (parsePart min max names) mask = .error err)
        ↔ ∃ part ∈ ps, ∀ g, ¬Reads min max names part g := by
  induction ps generalizing mask with
  | nil => simp [pure, Except.pure]
  | cons part ps ih =>
    rw [List.foldlM_cons, List.exists_mem_cons_iff]
    cases hpart : parsePart min max names mask part with
    | error err =>
      refine iff_of_true ⟨err, rfl⟩ (.inl ?_)
      intro g hreads
      have hok := (@parsePart_eq_ok min max names mask _ part).mpr ⟨g, hreads, rfl⟩
      rw [hpart] at hok
      cases hok
    | ok mask' =>
      obtain ⟨g, hreads, -⟩ := (parsePart_eq_ok).mp hpart
      rw [or_iff_right (fun h => h g hreads)]
      exact ih

/--
A field is parsed exactly, to the union of what its parts stand for, if and only if in all parts up to the
first malformed one the sum of the first value and the step is in the range of 32 bits.
-/
theorem fieldExact_iff (min max : Nat) (names : Option (List String)) (hmax : max ≤ 59) (spec : String)
    : FieldExact min max names spec
        ↔ ∀ part g, Reached min max names spec part g → g.lo + g.step < 2 ^ 32 := by
  constructor
  . intro h part g hreached
    obtain ⟨before, after, heq, hbefore, hreads⟩ := id hreached
    exact (ends_iff hmax hreads).mp (h.ends part g hreached)
  . intro hsums
    have hfield : trim spec ≠ ""
        → parseField spec min max names = (parts spec).foldlM (parsePart min max names) 0 := by
      intro hne
      unfold parseField
      rw [if_neg hne]
      rfl
    have hempty (h : trim spec = "") : parseField spec min max names = .error (.invalid "empty cron field") := by
      unfold parseField
      rw [if_pos h]
    have hbits (mask : Nat) (hok : parseField spec min max names = .ok mask) (bit : Nat)
        : mask.testBit bit = true ↔ ∃ part ∈ parts spec, ∃ g, Reads min max names part g ∧ bit ∈ g.values := by
      have hne : trim spec ≠ "" := by
        intro h
        rw [hempty h] at hok
        cases hok
      rw [hfield hne] at hok
      have hreadable (part : String) (hpart : part ∈ parts spec) : ∃ g, Reads min max names part g := by
        by_contra hnone
        obtain ⟨err, herr⟩ := (foldlM_eq_error).mpr ⟨part, hpart, not_exists.mp hnone⟩
        rw [hok] at herr
        cases herr
      rw [foldlM_bits hmax ?_ hok]
      . simp
      . intro part hpart g hreads
        obtain ⟨before, after, heq⟩ := List.append_of_mem hpart
        refine hsums part g ⟨before, after, heq, ?_, hreads⟩
        intro b hb
        exact hreadable b (heq ▸ List.mem_append_left _ hb)
    refine ⟨?_, hbits, ?_, ?_⟩
    . intro part g hreached
      obtain ⟨before, after, heq, hbefore, hreads⟩ := id hreached
      exact (ends_iff hmax hreads).mpr (hsums part g hreached)
    . intro mask hok bit hbit
      obtain ⟨part, -, g, hreads, hle, k, rfl⟩ := (hbits mask hok bit).mp hbit
      exact ⟨hreads.lower.trans (Nat.le_add_right _ _), hle.trans hreads.upper⟩
    . by_cases h : trim spec = ""
      . rw [hempty h]
        simp [h]
      . rw [hfield h, foldlM_eq_error, or_iff_right h]

end

theorem reads_of_read {min max : Nat} {names : Option (List String)} {part range : String} {g : Grid}
    (hstep : readStep (trim part) = .ok (range, g.step)) (hrange : readRange min max names range = .ok (g.lo, g.hi))
    (hin : min ≤ g.lo ∧ g.hi ≤ max ∧ g.lo ≤ g.hi) : Reads min max names part g :=
  ⟨⟨range, (readStep_eq_ok).mp hstep, (readRange_eq_ok).mp hrange⟩, hin.1, hin.2.1, hin.2.2⟩

theorem fieldExact_iff_quarters : FieldExact 0 59 none "*/15" := by
  apply (fieldExact_iff 0 59 none (by decide) "*/15").mpr
  rintro part g ⟨before, after, heq, -, hreads⟩
  have hparts : parts "*/15" = ["*/15"] := by decide
  have hpart : part ∈ parts "*/15" := heq ▸ List.mem_append_right _ List.mem_cons_self
  rw [hparts, List.mem_singleton] at hpart
  subst hpart
  have hquarters : Reads 0 59 none "*/15" ⟨0, 59, 15⟩ :=
    reads_of_read (by decide) (by decide : readRange 0 59 none "*" = _) (by decide)
  cases hreads.unique hquarters
  decide

-- The sum wraps to zero, for which there is a bit in the mask although the field starts at the last minute.
theorem minute_zero
    : parseField "59/4294967237" 0 59 none = .ok (2 ^ 59 + 1)
        ∧ Reads 0 59 none "59/4294967237" ⟨59, 59, 4294967237⟩
        ∧ ¬FieldExact 0 59 none "59/4294967237" := by
  have hparts : parts "59/4294967237" = ["59/4294967237"] := by decide
  have hreads : Reads 0 59 none "59/4294967237" ⟨59, 59, 4294967237⟩ :=
    reads_of_read (by decide) (by decide : readRange 0 59 none "59" = _) (by decide)
  have hparse : parseField "59/4294967237" 0 59 none = .ok (2 ^ 59 + 1) := by decide
  refine ⟨hparse, hreads, ?_⟩
  intro h
  obtain ⟨part, hpart, g, hpartReads, -, k, hzero⟩ := (h.bits _ hparse 0).mp (by decide)
  rw [hparts, List.mem_singleton] at hpart
  subst hpart
  cases hpartReads.unique hreads
  dsimp only at hzero
  omega

end Wovyr.Workflow.Cron
