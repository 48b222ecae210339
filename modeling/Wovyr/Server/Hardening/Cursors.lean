import Wovyr.Server.Hardening.Paging

/-!
This module contains proofs about which cursors a list can be asked for with, and that following the
cursors of the pages leads through the whole list.
-/

namespace Wovyr

open Bytes List

namespace Server.Hardening

def hexDigit? (c : Char) : Option Nat :=
  if 0x30 ≤ c.toNat ∧ c.toNat ≤ 0x39 then some (c.toNat - 0x30)
  else if 0x61 ≤ c.toNat ∧ c.toNat ≤ 0x66 then some (c.toNat - 0x57)
  else if 0x41 ≤ c.toNat ∧ c.toNat ≤ 0x46 then some (c.toNat - 0x37)
  else none

def pairValue? (a b : Char) : Option Nat :=
  if a = '+' then
    hexDigit? b
  else
    (hexDigit? a).bind fun x => (hexDigit? b).map fun y => 16 * x + y

inductive Pairs : List Char → List Nat → Prop where
  | nil : Pairs [] []
  | cons {a b : Char} {v : Nat} {rest : List Char} {vs : List Nat} (hv : pairValue? a b = some v)
    (hrest : Pairs rest vs) : Pairs (a :: b :: rest) (v :: vs)

-- A character that goes on after the next two bytes.
def Across : List Char → Prop
  | a :: b :: _ => 3 ≤ a.utf8Size ∨ a.utf8Size = 1 ∧ 2 ≤ b.utf8Size
  | [a] => 3 ≤ a.utf8Size
  | [] => False

def Torn (cs : List Char) : Prop :=
  ∃ pairs values rest, cs = pairs ++ rest ∧ Pairs pairs values ∧ Across rest

section

variable {a b : UInt8} {c d : Char}

theorem hexVal_eq (h : a.toNat = c.toNat) : hexVal? a = hexDigit? c := by
  unfold hexVal? hexDigit?
  simp only [Bool.and_eq_true, decide_eq_true_eq, UInt8.le_iff_toNat_le, h]
  rfl

theorem hexVal_of_le (h : 0x80 ≤ a.toNat) : hexVal? a = none := by
  unfold hexVal?
  simp only [Bool.and_eq_true, decide_eq_true_eq, UInt8.le_iff_toNat_le]
  rw [if_neg, if_neg, if_neg]
  . intro hrange
    have hle : a.toNat ≤ 0x46 := hrange.2
    omega
  . intro hrange
    have hle : a.toNat ≤ 0x66 := hrange.2
    omega
  . intro hrange
    have hle : a.toNat ≤ 0x39 := hrange.2
    omega

theorem pairVal_eq (ha : a.toNat = c.toNat) (hb : b.toNat = d.toNat) : pairVal? a b = pairValue? c d := by
  have hsign : a = 0x2b ↔ c = '+' := by
    constructor
    . intro h
      apply Char.toNat_inj.mp
      rw [← ha, h]
      rfl
    . intro h
      apply UInt8.toNat.inj
      rw [ha, h]
      rfl
  unfold pairVal? pairValue?
  simp only [hsign, hexVal_eq ha, hexVal_eq hb]

theorem pairVal_of_le (ha : 0xc0 ≤ a.toNat) : pairVal? a b = none := by
  have hsign : a ≠ 0x2b := by
    rintro rfl
    exact absurd ha (by decide)
  unfold pairVal?
  rw [if_neg hsign, hexVal_of_le (by omega)]
  rfl

theorem isContinuation_iff : isContinuation a = true ↔ IsContinuation a := by
  unfold isContinuation IsContinuation
  simp only [Bool.and_eq_true, decide_eq_true_eq, UInt8.le_iff_toNat_le, UInt8.lt_iff_toNat_lt]
  rfl

end

theorem head_utf8 (cs : List Char) : (utf8 cs).head?.any isContinuation = false := by
  cases h : utf8 cs with
  | nil => rfl
  | cons b rest =>
    have hnot := not_isContinuation_head h
    rw [← isContinuation_iff, Bool.not_eq_true] at hnot
    exact hnot

theorem decodePairs_cons_cons {a b : Char} (ha : a.utf8Size = 1) (hb : b.utf8Size = 1) (cs : List Char)
    : decodePairs (utf8 (a :: b :: cs))
        =
      match pairValue? a b with
      | none => .err ()
      | some v =>
        match decodePairs (utf8 cs) with
        | .ok vs => .ok (v :: vs)
        | o => o := by
  obtain ⟨bytes, hbytes, heq⟩ := encodes_cases a (b :: cs)
  obtain ⟨bytes', hbytes', heq'⟩ := encodes_cases b cs
  rw [heq, heq']
  cases hbytes with
  | wide _ _ hsize hsome =>
    have hlength := length_pos_of_ne_nil hsome
    omega
  | ascii x _ hx _ =>
    cases hbytes' with
    | wide _ _ hsize hsome =>
      have hlength := length_pos_of_ne_nil hsome
      omega
    | ascii y _ hy _ =>
      rw [singleton_append, singleton_append, decodePairs, head_utf8, pairVal_eq hx hy]
      rfl

theorem hexDigit_size {c : Char} {v : Nat} (h : hexDigit? c = some v) : c.utf8Size = 1 := by
  rw [Char.utf8Size_eq_one_iff, UInt32.le_iff_toNat_le]
  have hval : c.val.toNat = c.toNat := rfl
  have hbound : (127 : UInt32).toNat = 127 := rfl
  unfold hexDigit? at h
  split at h
  . omega
  . split at h
    . omega
    . split at h
      . omega
      . cases h

theorem pairValue_size {a b : Char} {v : Nat} (h : pairValue? a b = some v) : a.utf8Size = 1 ∧ b.utf8Size = 1 := by
  unfold pairValue? at h
  split at h
  next hsign =>
    subst hsign
    exact ⟨rfl, hexDigit_size h⟩
  next =>
    obtain ⟨x, hx, hrest⟩ := Option.bind_eq_some_iff.mp h
    obtain ⟨y, hy, -⟩ := Option.map_eq_some_iff.mp hrest
    exact ⟨hexDigit_size hx, hexDigit_size hy⟩

theorem torn_cons_cons {a b : Char} {cs : List Char} (hnot : ¬ Across (a :: b :: cs))
    : Torn (a :: b :: cs) ↔ ∃ v, pairValue? a b = some v ∧ Torn cs := by
  constructor
  . rintro ⟨pairs, values, rest, hsplit, hpairs, hacross⟩
    cases hpairs with
    | nil =>
      rw [hsplit] at hnot
      exact absurd hacross hnot
    | cons hv hrest =>
      cases hsplit
      exact ⟨_, hv, _, _, _, rfl, hrest, hacross⟩
  . rintro ⟨v, hv, pairs, values, rest, rfl, hpairs, hacross⟩
    exact ⟨a :: b :: pairs, v :: values, rest, rfl, .cons hv hpairs, hacross⟩

theorem torn_of_across {cs : List Char} (h : Across cs) : Torn cs :=
  ⟨[], [], cs, rfl, .nil, h⟩

theorem not_torn_nil : ¬ Torn [] := by
  rintro ⟨pairs, values, rest, hsplit, -, hacross⟩
  rw [(append_eq_nil_iff.mp hsplit.symm).2] at hacross
  exact hacross

theorem not_torn_singleton {a : Char} (h : ¬ 3 ≤ a.utf8Size) : ¬ Torn [a] := by
  rintro ⟨pairs, values, rest, hsplit, hpairs, hacross⟩
  cases hpairs with
  | nil =>
    rw [← show [a] = rest from hsplit] at hacross
    exact h hacross
  | cons _ _ => cases hsplit

theorem decodePairs_wide {a : Char} (cs : List Char) (h : a.utf8Size ≠ 1)
    : decodePairs (utf8 (a :: cs)) = if 3 ≤ a.utf8Size then .halted else .err () := by
  obtain ⟨bytes, hbytes, heq⟩ := encodes_cases a cs
  rw [heq]
  cases hbytes with
  | ascii _ hsize => exact absurd hsize h
  | wide x bs hsize hsome hx hbs =>
    match bs, hsome with
    | [y], _ =>
      have htwo : ¬ 3 ≤ a.utf8Size := by
        rw [← hsize, length_singleton]
        omega
      rw [if_neg htwo, cons_append, cons_append, nil_append, decodePairs, head_utf8, pairVal_of_le hx]
      rfl
    | y :: z :: bs, _ =>
      have hthree : 3 ≤ a.utf8Size := by
        rw [length_cons, length_cons] at hsize
        omega
      have hz : isContinuation z = true := (isContinuation_iff).mpr (hbs z (by simp))
      rw [if_pos hthree]
      simp [decodePairs, hz]

theorem decodePairs_narrow {a b : Char} (cs : List Char) (ha : a.utf8Size = 1) (hb : b.utf8Size ≠ 1)
    : decodePairs (utf8 (a :: b :: cs)) = .halted := by
  obtain ⟨bytes, hbytes, heq⟩ := encodes_cases a (b :: cs)
  obtain ⟨bytes', hbytes', heq'⟩ := encodes_cases b cs
  rw [heq, heq']
  cases hbytes with
  | wide _ _ hsize hsome =>
    have hlength := length_pos_of_ne_nil hsome
    omega
  | ascii x _ _ _ =>
    cases hbytes' with
    | ascii _ hsize => exact absurd hsize hb
    | wide y bs _ hsome _ hbs =>
      match bs, hsome with
      | z :: bs, _ =>
        have hz : isContinuation z = true := (isContinuation_iff).mpr (hbs z (by simp))
        simp [decodePairs, hz]

theorem decodePairs_last {a : Char} (ha : a.utf8Size = 1) : decodePairs (utf8 [a]) = .ok [] := by
  obtain ⟨bytes, hbytes, heq⟩ := encodes_cases a []
  rw [heq]
  cases hbytes with
  | wide _ _ hsize hsome =>
    have hlength := length_pos_of_ne_nil hsome
    omega
  | ascii x _ _ _ => rfl

theorem decodePairs_halted : ∀ cs : List Char, decodePairs (utf8 cs) = .halted ↔ Torn cs
  | [] => iff_of_false (by simp [utf8, decodePairs]) not_torn_nil
  | [a] => by
    by_cases ha : a.utf8Size = 1
    . rw [decodePairs_last ha]
      exact iff_of_false (by simp) (not_torn_singleton (by omega))
    . rw [decodePairs_wide [] ha]
      split
      next hwide => exact iff_of_true rfl (torn_of_across hwide)
      next hwide => exact iff_of_false (by simp) (not_torn_singleton hwide)
  | a :: b :: cs => by
    by_cases ha : a.utf8Size = 1
    . by_cases hb : b.utf8Size = 1
      . rw [decodePairs_cons_cons ha hb, torn_cons_cons (by unfold Across; omega)]
        cases pairValue? a b with
        | none => simp
        | some v =>
          have hrest := decodePairs_halted cs
          cases hcs : decodePairs (utf8 cs) with
          | ok vs => simp_all
          | err e => simp_all
          | halted => simp_all
      . rw [decodePairs_narrow cs ha hb]
        have hpos := b.utf8Size_pos
        exact iff_of_true rfl (torn_of_across (.inr ⟨ha, by omega⟩))
    . rw [decodePairs_wide _ ha]
      split
      next hwide => exact iff_of_true rfl (torn_of_across (.inl hwide))
      next hwide =>
        rw [torn_cons_cons (by unfold Across; omega)]
        apply iff_of_false (by simp)
        rintro ⟨v, hv, -⟩
        exact ha (pairValue_size hv).1

theorem length_utf8_cons (a : Char) (cs : List Char)
    : (utf8 (a :: cs)).length = a.utf8Size + (utf8 cs).length := by
  simp [utf8]

theorem decodePairs_ok : ∀ (cs : List Char) (vs : List Nat), (utf8 cs).length % 2 = 0 →
    (decodePairs (utf8 cs) = .ok vs ↔ Pairs cs vs)
  | [], vs, _ => by
    constructor
    . intro h
      cases h
      exact .nil
    . intro h
      cases h
      rfl
  | [a], vs, heven => by
    have hnot : ¬ Pairs [a] vs := nofun
    by_cases ha : a.utf8Size = 1
    . rw [length_utf8_cons, ha] at heven
      cases heven
    . rw [decodePairs_wide [] ha]
      split
      . exact iff_of_false nofun hnot
      . exact iff_of_false nofun hnot
  | a :: b :: cs, vs, heven => by
    have hsize : Pairs (a :: b :: cs) vs → a.utf8Size = 1 ∧ b.utf8Size = 1 := by
      intro h
      cases h with
      | cons hv => exact pairValue_size hv
    by_cases ha : a.utf8Size = 1
    . by_cases hb : b.utf8Size = 1
      . rw [length_utf8_cons, length_utf8_cons, ha, hb] at heven
        have hrest := fun vs => decodePairs_ok cs vs (by omega)
        rw [decodePairs_cons_cons ha hb]
        constructor
        . intro h
          split at h
          . cases h
          next v hv =>
            split at h
            next vs' hvs' =>
              cases h
              exact .cons hv ((hrest vs').mp hvs')
            next hnot => exact absurd h (hnot _)
        . intro h
          cases h with
          | cons hv hpairs => rw [hv, (hrest _).mpr hpairs]
      . rw [decodePairs_narrow cs ha hb]
        exact iff_of_false nofun fun h => hb (hsize h).2
    . rw [decodePairs_wide _ ha]
      split
      . exact iff_of_false nofun fun h => ha (hsize h).1
      . exact iff_of_false nofun fun h => ha (hsize h).1

def Spells (cursor : String) (offset : Nat) : Prop :=
  ∃ vs, Pairs cursor.toList vs ∧ (∀ v ∈ vs, v < 0x80)
    ∧ Text.parseUnsigned (2 ^ 64) (String.ofList (vs.map Char.ofNat)) = some offset

theorem pairs_even {cs : List Char} {vs : List Nat} (h : Pairs cs vs) : (utf8 cs).length % 2 = 0 := by
  induction h with
  | nil => rfl
  | cons hv _ ih =>
    obtain ⟨ha, hb⟩ := pairValue_size hv
    rw [length_utf8_cons, length_utf8_cons, ha, hb]
    omega

theorem decodeCursor_ok (cursor : String) (offset : Nat) : decodeCursor cursor = .ok offset ↔ Spells cursor offset := by
  unfold decodeCursor Spells
  dsimp only
  by_cases heven : (utf8 cursor.toList).length % 2 = 0
  . rw [if_neg (by simpa using heven)]
    constructor
    . intro h
      split at h
      next vs hvs =>
        have hpairs := (decodePairs_ok _ vs heven).mp hvs
        by_cases hascii : vs.all (· < 0x80) = true
        . rw [if_pos hascii, Option.bind_some] at h
          split at h
          next n hn =>
            cases h
            exact ⟨vs, hpairs, by simpa using hascii, hn⟩
          next => cases h
        . rw [if_neg hascii] at h
          cases h
      next => cases h
      next => cases h
    . rintro ⟨vs, hpairs, hascii, hparse⟩
      have hall : vs.all (· < 0x80) = true := by simpa using hascii
      rw [(decodePairs_ok _ vs heven).mpr hpairs]
      simp only [hall, if_true, Option.bind_some, hparse]
  . rw [if_pos (by simpa using heven)]
    apply iff_of_false nofun
    rintro ⟨vs, hpairs, -⟩
    exact heven (pairs_even hpairs)

theorem decodeCursor_halted (cursor : String)
    : decodeCursor cursor = .halted ↔ (utf8 cursor.toList).length % 2 = 0 ∧ Torn cursor.toList := by
  unfold decodeCursor
  dsimp only
  by_cases heven : (utf8 cursor.toList).length % 2 = 0
  . rw [if_neg (by simpa using heven), ← decodePairs_halted]
    cases decodePairs (utf8 cursor.toList) with
    | ok vs =>
      dsimp only
      split
      . simp
      . simp
    | err e => simp
    | halted => simp [heven]
  . rw [if_pos (by simpa using heven)]
    exact iff_of_false nofun fun h => heven h.1

theorem hexDigit_hexDigit {n : Nat} (h : n < 16)
    : hexDigit? (hexDigit n) = some n ∧ hexDigit n ≠ '+' := by
  interval_cases n <;> decide

theorem pairs_hexLower (bytes : List UInt8) : Pairs (hexLower bytes).toList (bytes.map UInt8.toNat) := by
  unfold hexLower
  rw [String.toList_ofList]
  induction bytes with
  | nil => exact .nil
  | cons b bytes ih =>
    rw [flatMap_cons, map_cons]
    refine Pairs.cons ?_ ih
    have hlt := b.toNat_lt
    obtain ⟨hhigh, hsign⟩ := hexDigit_hexDigit (n := b.toNat / 16) (by omega)
    obtain ⟨hlow, -⟩ := hexDigit_hexDigit (n := b.toNat % 16) (by omega)
    unfold pairValue?
    rw [if_neg hsign, hhigh, hlow, Option.bind_some, Option.map_some]
    congr 1
    omega

theorem utf8_ascii {cs : List Char} (h : ∀ c ∈ cs, c.toNat < 0x80)
    : (utf8 cs).map UInt8.toNat = cs.map Char.toNat := by
  induction cs with
  | nil => rfl
  | cons c cs ih =>
    obtain ⟨bytes, hbytes, heq⟩ := encodes_cases c cs
    rw [heq, map_append, map_cons, ih fun d hd => h d (mem_cons_of_mem _ hd)]
    cases hbytes with
    | ascii b _ hb _ => rw [map_singleton, hb, singleton_append]
    | wide b bs hsize hsome =>
      have hone : c.utf8Size = 1 := by
        rw [Char.utf8Size_eq_one_iff, UInt32.le_iff_toNat_le]
        exact Nat.le_of_lt_succ (h c mem_cons_self)
      have hlength := length_pos_of_ne_nil hsome
      omega

theorem isDigit_toNat {c : Char} (h : c.isDigit = true) : 0x30 ≤ c.toNat ∧ c.toNat ≤ 0x39 := by
  unfold Char.isDigit at h
  simp only [Bool.and_eq_true, decide_eq_true_eq, ge_iff_le, UInt32.le_iff_toNat_le] at h
  exact h

theorem parseDigits_eq {cs : List Char} (hne : cs ≠ []) (h : ∀ c ∈ cs, c.isDigit = true)
    : Text.parseDigits cs = some (Nat.ofDigitChars 10 cs 0) := by
  have hfold : ∀ acc, cs.foldlM (fun acc c => (Text.digitVal? c).map fun d => acc * 10 + d) acc
      = some (Nat.ofDigitChars 10 cs acc) := by
    clear hne
    induction cs with
    | nil => exact fun acc => rfl
    | cons c cs ih =>
      intro acc
      have hdigit : Text.digitVal? c = some (c.toNat - '0'.toNat) := if_pos (h c mem_cons_self)
      rw [foldlM_cons, hdigit, Nat.ofDigitChars_cons, Nat.mul_comm 10 acc]
      exact ih (fun d hd => h d (mem_cons_of_mem _ hd)) _
  unfold Text.parseDigits
  rw [if_neg hne, hfold]

theorem parseUnsigned_toString {bound n : Nat} (h : n < bound) : Text.parseUnsigned bound (toString n) = some n := by
  have hdigits : ∀ c ∈ Nat.toDigits 10 n, c.isDigit = true := fun c hc =>
    Nat.isDigit_of_mem_toDigits (by decide) (by decide) hc
  have htext : (toString n).toList = Nat.toDigits 10 n := Nat.toList_repr
  unfold Text.parseUnsigned
  rw [htext]
  dsimp only
  split
  next rest hsign =>
    have hplus := hdigits '+' (by rw [hsign]; exact mem_cons_self)
    cases hplus
  next =>
    rw [parseDigits_eq Nat.toDigits_ne_nil hdigits, Nat.ofDigitChars_ten_toDigits, Option.filter_some]
    simp [h]

theorem spells_encodeCursor {n : Nat} (h : n < 2 ^ 64) : Spells (encodeCursor n) n := by
  have hascii : ∀ c ∈ (toString n).toList, c.toNat < 0x80 := by
    intro c hc
    rw [show (toString n).toList = Nat.toDigits 10 n from Nat.toList_repr] at hc
    have hdigit := isDigit_toNat (Nat.isDigit_of_mem_toDigits (by decide) (by decide) hc)
    omega
  have hvalues := utf8_ascii hascii
  refine ⟨(toString n).toList.map Char.toNat, ?_, ?_, ?_⟩
  . rw [← hvalues]
    exact pairs_hexLower _
  . intro v hv
    obtain ⟨c, hc, rfl⟩ := mem_map.mp hv
    exact hascii c hc
  . have hback : ((toString n).toList.map Char.toNat).map Char.ofNat = (toString n).toList := by
      rw [map_map]
      conv_rhs => rw [← map_id (toString n).toList]
      apply map_congr_left
      intro c _
      exact Char.ofNat_toNat c
    rw [hback, String.ofList_toList]
    exact parseUnsigned_toString h

theorem decodeCursor_encodeCursor {n : Nat} (h : n < 2 ^ 64) : decodeCursor (encodeCursor n) = .ok n :=
  (decodeCursor_ok _ _).mpr (spells_encodeCursor h)

namespace PageQuery

variable (q : PageQuery)

def clamped : Nat :=
  min (max (q.limit.getD 25) 1) 100

def overflows : Bool :=
  q.offset.any fun offset => 2 ^ 64 ≤ offset + q.clamped

-- The cursor cuts no character in two and does not lead beyond 64 bits.
def Readable : Prop :=
  ∀ cursor, q.cursor = some cursor →
    ((utf8 cursor.toList).length % 2 = 0 → ¬ Torn cursor.toList)
      ∧ ∀ offset, Spells cursor offset → offset + q.clamped < 2 ^ 64

end PageQuery

-- What a request gets, nothing if it panics or something overflows.
def serve {α : Type} (items : List α) (q : PageQuery) : Option (Page α) :=
  if q.overflows then none else paginate items q

def Served {α : Type} (items : List α) (q : PageQuery) : Prop :=
  ∃ page, serve items q = some page ∧ page.data.length ≤ 100 ∧ page.data <:+: items

-- The pages from a cursor on, one after the other, until there is no next one.
def follow {α : Type} (items : List α) (limit : Option Nat) : Nat → Option String → Option (List α)
  | 0, _ => none
  | fuel + 1, cursor => do
    let page ← serve items { limit, cursor }
    match page.nextCursor with
    | none => return page.data
    | some next => (follow items limit fuel (some next)).map (page.data ++ ·)

namespace PageQuery

variable {q : PageQuery} {offset : Nat}

theorem clamped_pos : 0 < q.clamped := by
  unfold clamped
  omega

theorem clamped_le : q.clamped ≤ 100 :=
  Nat.min_le_right _ _

theorem offset_of_spells {cursor : String} (hcursor : q.cursor = some cursor) (h : Spells cursor offset)
    : q.offset = some offset := by
  unfold PageQuery.offset
  rw [hcursor]
  dsimp only
  rw [(decodeCursor_ok _ _).mpr h]

theorem offset_none {cursor : String} (hcursor : q.cursor = some cursor)
    (heven : (utf8 cursor.toList).length % 2 = 0) (h : Torn cursor.toList) : q.offset = none := by
  unfold PageQuery.offset
  rw [hcursor]
  dsimp only
  rw [(decodeCursor_halted _).mpr ⟨heven, h⟩]

theorem offset_of_readable (h : q.Readable) : ∃ offset, q.offset = some offset ∧ offset + q.clamped < 2 ^ 64 := by
  have hclamped := q.clamped_le
  cases hcursor : q.cursor with
  | none =>
    refine ⟨0, ?_, by omega⟩
    unfold PageQuery.offset
    rw [hcursor]
  | some cursor =>
    obtain ⟨htorn, hspells⟩ := h cursor hcursor
    cases hdecode : decodeCursor cursor with
    | ok offset =>
      have hspelled := (decodeCursor_ok _ _).mp hdecode
      exact ⟨offset, offset_of_spells hcursor hspelled, hspells offset hspelled⟩
    | err e =>
      refine ⟨0, ?_, by omega⟩
      unfold PageQuery.offset
      rw [hcursor]
      dsimp only
      rw [hdecode]
    | halted =>
      obtain ⟨heven, hcut⟩ := (decodeCursor_halted _).mp hdecode
      exact absurd hcut (htorn heven)

end PageQuery

section

variable {α : Type} {items : List α} {q : PageQuery} {offset : Nat}

theorem window_eq (items : List α) (offset length : Nat)
    : (items.take (min (offset + length) items.length)).drop (min offset items.length)
        = (items.drop offset).take length := by
  rw [← take_eq_take_min, drop_take]
  by_cases h : offset ≤ items.length
  . rw [Nat.min_eq_left h, Nat.add_sub_cancel_left]
  . rw [Nat.min_eq_right (by omega), drop_length, drop_eq_nil_of_le (by omega), take_nil, take_nil]

theorem serve_eq (hoffset : q.offset = some offset) (hfits : offset + q.clamped < 2 ^ 64)
    : serve items q
        =
      some {
        data := (items.drop offset).take q.clamped
        hasMore := decide (offset + q.clamped < items.length)
        nextCursor := if offset + q.clamped < items.length then some (encodeCursor (offset + q.clamped)) else none
        totalEstimate := items.length } := by
  have hoverflows : q.overflows = false := by
    unfold PageQuery.overflows
    rw [hoffset, Option.any_some, decide_eq_false_iff_not]
    omega
  have hmod : (offset + q.clamped) % 2 ^ 64 = offset + q.clamped := Nat.mod_eq_of_lt hfits
  have hpaginate : paginate items q
      =
    if min ((offset + q.clamped) % 2 ^ 64) items.length < min offset items.length then
      none
    else
      some {
        data := (items.take (min ((offset + q.clamped) % 2 ^ 64) items.length)).drop (min offset items.length)
        hasMore := decide (min ((offset + q.clamped) % 2 ^ 64) items.length < items.length)
        nextCursor :=
          if min ((offset + q.clamped) % 2 ^ 64) items.length < items.length then
            some (encodeCursor (min ((offset + q.clamped) % 2 ^ 64) items.length))
          else
            none
        totalEstimate := items.length } := by
    unfold paginate
    rw [hoffset]
    rfl
  have hless : min (offset + q.clamped) items.length < items.length ↔ offset + q.clamped < items.length := by omega
  unfold serve
  rw [hoverflows, if_neg Bool.false_ne_true, hpaginate, hmod, if_neg (by omega), window_eq]
  simp only [hless]
  by_cases hmore : offset + q.clamped < items.length
  . rw [if_pos hmore, if_pos hmore, Nat.min_eq_left (le_of_lt hmore)]
  . rw [if_neg hmore, if_neg hmore]

theorem serve_none (h : q.offset = none) : serve items q = none := by
  unfold serve paginate
  rw [h]
  split
  . rfl
  . rfl

theorem served_iff : Served items q ↔ q.Readable := by
  constructor
  . rintro ⟨page, hpage, -⟩ cursor hcursor
    constructor
    . intro heven htorn
      rw [serve_none (PageQuery.offset_none hcursor heven htorn)] at hpage
      cases hpage
    . intro offset hspells
      by_contra hbeyond
      have hoverflows : q.overflows = true := by
        unfold PageQuery.overflows
        rw [PageQuery.offset_of_spells hcursor hspells, Option.any_some, decide_eq_true_eq]
        omega
      unfold serve at hpage
      rw [if_pos hoverflows] at hpage
      cases hpage
  . intro h
    obtain ⟨offset, hoffset, hfits⟩ := PageQuery.offset_of_readable h
    refine ⟨_, serve_eq hoffset hfits, ?_, ?_⟩
    . exact Nat.le_trans (length_take_le _ _) q.clamped_le
    . exact (List.take_prefix _ _).isInfix.trans (drop_suffix _ _).isInfix

theorem follow_eq (hitems : items.length < 2 ^ 63) (limit : Option Nat) (fuel : Nat) {cursor : Option String}
    (hoffset : PageQuery.offset { limit, cursor } = some offset) (hle : offset ≤ items.length)
    (hfuel : items.length - offset < fuel) : follow items limit fuel cursor = some (items.drop offset) := by
  induction fuel generalizing offset cursor with
  | zero => omega
  | succ fuel ih =>
    have hpos := PageQuery.clamped_pos (q := { limit, cursor })
    have hclamped := PageQuery.clamped_le (q := { limit, cursor })
    unfold follow
    rw [serve_eq hoffset (by omega), Option.bind_eq_bind, Option.bind_some]
    dsimp only
    by_cases hmore : offset + PageQuery.clamped { limit, cursor } < items.length
    . rw [if_pos hmore]
      have hnext : PageQuery.offset
          { limit, cursor := some (encodeCursor (offset + PageQuery.clamped { limit, cursor })) }
            = some (offset + PageQuery.clamped { limit, cursor }) :=
        PageQuery.offset_of_spells rfl (spells_encodeCursor (by omega))
      dsimp only
      rw [ih hnext (by omega) (by omega), Option.map_some, ← drop_drop, take_append_drop]
    . rw [if_neg hmore]
      have hall : (items.drop offset).length ≤ PageQuery.clamped { limit, cursor } := by
        rw [length_drop]
        omega
      rw [take_of_length_le hall]
      rfl

/-- Which requests are served, and where the cursors of the pages lead. -/
theorem cursors_served (items : List α)
    : (∀ q : PageQuery, Served items q ↔ q.Readable)
        ∧ (∀ n < 2 ^ 64, decodeCursor (encodeCursor n) = .ok n)
        ∧ (items.length < 2 ^ 63 → ∀ (limit : Option Nat) (fuel : Nat), items.length < fuel →
            follow items limit fuel none = some items) := by
  refine ⟨fun q => served_iff, fun n hn => decodeCursor_encodeCursor hn, ?_⟩
  intro hitems limit fuel hfuel
  exact follow_eq hitems limit fuel rfl (Nat.zero_le _) (by omega)

theorem cursors_served_three : follow [1, 2, 3] (some 2) 4 none = some [1, 2, 3] :=
  (cursors_served [1, 2, 3]).2.2 (by decide) (some 2) 4 (by decide)

theorem not_served_torn
    : ¬ Served [1, 2, 3] { cursor := some "aéb" }
        ∧ ¬ Served [1, 2, 3] { cursor := some (encodeCursor (2 ^ 64 - 1)) } := by
  constructor
  . rintro ⟨page, hpage, -⟩
    cases hpage
  . rintro ⟨page, hpage, -⟩
    cases hpage

end

end Wovyr.Server.Hardening
