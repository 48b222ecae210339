import Wovyr.Marketplace.Registry

/-!
This module contains the envelope that packages are distributed in, with the hexadecimal decoder that walks over it by
byte offsets, and proves when it comes back without a panic.
-/

namespace Wovyr

open Bytes Plugin.Hex List

namespace Marketplace

open Plugin (Package bytesOf)

inductive Call (α : Type) where
  | returned (result : Except Error α)
  | panicked

namespace Call

def bind (x : Call α) (f : α → Call β) : Call β :=
  match x with
  | .returned (.ok a) => f a
  | .returned (.error e) => .returned (.error e)
  | .panicked => .panicked

end Call

namespace Hex

-- `str::is_char_boundary`.
def isCharBoundary (bytes : List UInt8) (i : Nat) : Bool :=
  match bytes[i]? with
  | none => i == bytes.length
  | some b => i == 0 || !(0x80 ≤ b.toNat && b.toNat < 0xc0)

-- The slice `&s[i..i + 2]`, which panics off the borders of the characters.
def slice (bytes : List UInt8) (i : Nat) : Option (List UInt8) :=
  if i + 2 ≤ bytes.length ∧ isCharBoundary bytes i ∧ isCharBoundary bytes (i + 2) then
    some ((bytes.drop i).take 2)
  else
    none

-- `u8::from_str_radix` in base 16 of a text of two bytes.
def fromStrRadix : List UInt8 → Option UInt8
  | [a, b] => byte (Char.ofNat a.toNat) (Char.ofNat b.toNat)
  | _ => none

def decodeAt (bytes : List UInt8) : List Nat → Call (List UInt8)
  | [] => .returned (.ok [])
  | i :: is =>
    match slice bytes i with
    | none => .panicked
    | some pair =>
      match fromStrRadix pair with
      | none => .returned (.error (.invalid "invalid hex: invalid digit found in string"))
      | some b => (decodeAt bytes is).bind fun rest => .returned (.ok (b :: rest))

def decode (s : String) : Call (List UInt8) :=
  let bytes := bytesOf s
  if bytes.length % 2 ≠ 0 then
    .returned (.error (.invalid "hex string has odd length"))
  else
    decodeAt bytes (range' 0 (bytes.length / 2) 2)

def IsHexDigit (c : Char) : Prop :=
  (digit c).isSome

instance (c : Char) : Decidable (IsHexDigit c) :=
  inferInstanceAs (Decidable (_ = true))

def IsPair (a b : Char) : Prop :=
  (a = '+' ∨ IsHexDigit a) ∧ IsHexDigit b

instance (a b : Char) : Decidable (IsPair a b) :=
  inferInstanceAs (Decidable (_ ∧ _))

def Paired : List Char → Prop
  | [] => True
  | [_] => False
  | a :: b :: rest => IsPair a b ∧ Paired rest

inductive Splits : List Char → Prop where
  | wide {c : Char} {rest : List Char} (h : 3 ≤ c.utf8Size) : Splits (c :: rest)
  | second {c d : Char} {rest : List Char} (hc : c.utf8Size = 1) (hd : 2 ≤ d.utf8Size) : Splits (c :: d :: rest)
  | later {c d : Char} {rest : List Char} (h : IsPair c d) (hrest : Splits rest) : Splits (c :: d :: rest)

section Pairs

variable {a b c : Char} {n : Nat} {cs : List Char}

theorem utf8Size_of_lt (h : c.toNat < 0x80) : c.utf8Size = 1 := by
  rw [Char.utf8Size_eq_one_iff, UInt32.le_iff_toNat_le]
  exact Nat.le_of_lt_succ h

theorem digit_eq_some (h : digit c = some n)
    : n < 16 ∧ c.toNat < 0x80 ∧ c ≠ '+' ∧ hexDigit n = c.toLower := by
  have hbound : c.toNat < 103 := by
    unfold digit at h
    simp only [Char.le_def, UInt32.le_iff_toNat_le] at h
    have hval : c.val.toNat = c.toNat := rfl
    have hnine : '9'.val.toNat = 57 := rfl
    have hlower : 'f'.val.toNat = 102 := rfl
    have hupper : 'F'.val.toNat = 70 := rfl
    split at h
    next hc => omega
    next =>
      split at h
      next hc => omega
      next =>
        split at h
        next hc => omega
        next => cases h
  have hall : ∀ k < 103, ∀ n ∈ digit (Char.ofNat k),
      n < 16 ∧ Char.ofNat k ≠ '+' ∧ hexDigit n = (Char.ofNat k).toLower := by
    decide
  have hchar := hall c.toNat hbound n
  rw [Char.ofNat_toNat] at hchar
  obtain ⟨hn, hplus, hlower⟩ := hchar h
  exact ⟨hn, by omega, hplus, hlower⟩

theorem byte_isSome_iff : (byte a b).isSome ↔ IsPair a b := by
  unfold byte IsPair IsHexDigit
  split
  next hplus => simp [hplus]
  next hplus =>
    rw [or_iff_right hplus]
    cases digit a with
    | none => simp
    | some high =>
      cases digit b with
      | none => simp
      | some low => simp

theorem IsPair.lt (h : IsPair a b) : a.toNat < 0x80 ∧ b.toNat < 0x80 := by
  obtain ⟨ha, hb⟩ := h
  constructor
  . cases ha with
    | inl ha =>
      rw [ha]
      decide
    | inr ha =>
      obtain ⟨n, hn⟩ := Option.isSome_iff_exists.mp ha
      exact (digit_eq_some hn).2.1
  . obtain ⟨n, hn⟩ := Option.isSome_iff_exists.mp hb
    exact (digit_eq_some hn).2.1

theorem IsPair.utf8Size (h : IsPair a b) : a.utf8Size = 1 ∧ b.utf8Size = 1 :=
  ⟨utf8Size_of_lt h.lt.1, utf8Size_of_lt h.lt.2⟩

theorem byte_eq_none (h : ¬IsPair a b) : byte a b = none := by
  rw [← Option.not_isSome_iff_eq_none, byte_isSome_iff]
  exact h

theorem fromStrRadix_wide {x y : UInt8} (h : 0xc0 ≤ x.toNat) : fromStrRadix [x, y] = none := by
  have hchar : (Char.ofNat x.toNat).toNat = x.toNat := by
    have hvalid : x.toNat.isValidChar := .inl (Nat.lt_trans x.toNat_lt (by decide))
    rw [Char.ofNat, dif_pos hvalid]
    rfl
  rw [fromStrRadix, ← Option.not_isSome_iff_eq_none, byte_isSome_iff]
  intro hpair
  have := hpair.lt.1
  omega

theorem ofNat_toUInt8 (h : c.utf8Size = 1) : Char.ofNat c.val.toUInt8.toNat = c := by
  rw [Char.utf8Size_eq_one_iff, UInt32.le_iff_toNat_le] at h
  have hlt : c.toNat < 256 := Nat.lt_of_le_of_lt h (by decide)
  have hbyte : c.val.toUInt8.toNat = c.toNat := by
    rw [UInt32.toNat_toUInt8]
    exact Nat.mod_eq_of_lt hlt
  rw [hbyte, Char.ofNat_toNat]

end Pairs

section Walk

variable {front : List UInt8} {cs : List Char}

theorem isCharBoundary_append (front : List UInt8) (cs : List Char)
    : isCharBoundary (front ++ utf8 cs) front.length = true := by
  rw [isCharBoundary, getElem?_append_right (Nat.le_refl _), Nat.sub_self]
  cases h : utf8 cs with
  | nil => simp
  | cons b bs =>
    have hnot := not_isContinuation_head h
    rw [IsContinuation] at hnot
    simp only [getElem?_cons_zero, Bool.or_eq_true, Bool.not_eq_true', Bool.and_eq_false_iff]
    grind

theorem not_isCharBoundary {bytes : List UInt8} {i : Nat} {b : UInt8} (hi : i ≠ 0) (h : bytes[i]? = some b)
    (hb : IsContinuation b) : isCharBoundary bytes i = false := by
  rw [IsContinuation] at hb
  simp [isCharBoundary, h, hi, hb.1, hb.2]

theorem slice_ascii {b b' : UInt8} (front : List UInt8) (rest : List Char)
    (hfirst : isCharBoundary (front ++ b :: b' :: utf8 rest) front.length = true)
    : slice (front ++ b :: b' :: utf8 rest) front.length = some [b, b'] := by
  have hnext := isCharBoundary_append (front ++ [b, b']) rest
  rw [append_assoc, length_append] at hnext
  rw [slice, if_pos ⟨by simp, hfirst, hnext⟩, drop_left]
  rfl

theorem slice_cut {b x : UInt8} {bs : List UInt8} (hx : bs[1]? = some x) (hcont : IsContinuation x)
    : slice (front ++ b :: bs) front.length = none := by
  have hcut : isCharBoundary (front ++ b :: bs) (front.length + 2) = false := by
    apply not_isCharBoundary (by omega) _ hcont
    rw [getElem?_append_right (by omega), Nat.add_sub_cancel_left]
    exact hx
  rw [slice, if_neg]
  rw [hcut]
  exact fun h => Bool.false_ne_true h.2.2

theorem decodeAt_wide {c : Char} (hc : 2 ≤ c.utf8Size) (rest : List Char) (is : List Nat)
    : decodeAt (front ++ utf8 (c :: rest)) (front.length :: is)
        = if c.utf8Size = 2 then .returned (.error (.invalid "invalid hex: invalid digit found in string"))
          else .panicked := by
  have hfirst := isCharBoundary_append front (c :: rest)
  obtain ⟨bytes, hbytes, hutf8⟩ := encodes_cases c rest
  rw [hutf8] at hfirst ⊢
  cases hbytes with
  | ascii b hsize _ _ => omega
  | wide b bs hsize hsome hb hbs =>
    match bs with
    | [] => exact absurd rfl hsome
    | [b'] =>
      have htwo : c.utf8Size = 2 := hsize.symm
      rw [if_pos htwo, decodeAt, cons_append, cons_append, nil_append, slice_ascii front rest hfirst]
      dsimp only
      rw [fromStrRadix_wide hb]
    | b' :: x :: bs =>
      have hthree : ¬c.utf8Size = 2 := by
        rw [← hsize]
        simp
      have hcut : slice (front ++ b :: (b' :: x :: bs ++ utf8 rest)) front.length = none :=
        slice_cut rfl (hbs x (by simp))
      rw [if_neg hthree, decodeAt, cons_append, hcut]

theorem decodeAt_second {c d : Char} (hc : c.utf8Size = 1) (hd : 2 ≤ d.utf8Size) (rest : List Char) (is : List Nat)
    : decodeAt (front ++ utf8 (c :: d :: rest)) (front.length :: is) = .panicked := by
  rw [utf8_cons_ascii hc]
  obtain ⟨bytes, hbytes, hutf8⟩ := encodes_cases d rest
  rw [hutf8]
  cases hbytes with
  | ascii b hsize _ _ => omega
  | wide b bs _ hsome _ hbs =>
    cases bs with
    | nil => exact absurd rfl hsome
    | cons x bs =>
      rw [decodeAt, cons_append, cons_append, slice_cut rfl (hbs x mem_cons_self)]

theorem decodeAt_pair {c d : Char} (hc : c.utf8Size = 1) (hd : d.utf8Size = 1) (rest : List Char) (is : List Nat)
    : decodeAt (front ++ utf8 (c :: d :: rest)) (front.length :: is)
        = match byte c d with
          | none => .returned (.error (.invalid "invalid hex: invalid digit found in string"))
          | some b => (decodeAt (front ++ utf8 (c :: d :: rest)) is).bind fun bs => .returned (.ok (b :: bs)) := by
  have hfirst := isCharBoundary_append front (c :: d :: rest)
  have hpair : fromStrRadix [c.val.toUInt8, d.val.toUInt8] = byte c d := by
    rw [fromStrRadix, ofNat_toUInt8 hc, ofNat_toUInt8 hd]
  rw [utf8_cons_ascii hc, utf8_cons_ascii hd] at hfirst ⊢
  rw [decodeAt, slice_ascii front rest hfirst]
  dsimp only
  rw [hpair]

theorem range'_utf8 (front : List UInt8) {cs : List Char} (hne : cs ≠ []) (heven : (utf8 cs).length % 2 = 0)
    : range' front.length ((utf8 cs).length / 2) 2
        = front.length :: range' (front.length + 2) ((utf8 cs).length / 2 - 1) 2 := by
  have hpos : (utf8 cs).length / 2 = (utf8 cs).length / 2 - 1 + 1 := by
    have hsome : 0 < (utf8 cs).length := by
      cases cs with
      | nil => exact absurd rfl hne
      | cons c cs =>
        have := c.utf8Size_pos
        rw [utf8, flatMap_cons, length_append, String.length_utf8EncodeChar]
        omega
    omega
  conv_lhs => rw [hpos]
  rw [range'_succ]

/--
What the decoder comes to on the characters of a text.
-/
inductive Comes (cs : List Char) : Call (List UInt8) → Prop where
  | decoded {bytes : List UInt8} (h : Paired cs) (hgo : decode.go cs = some bytes)
    : Comes cs (.returned (.ok bytes))
  | cut (h : Splits cs) : Comes cs .panicked
  | refused (h : ¬Paired cs) (hsplits : ¬Splits cs) (hgo : decode.go cs = none)
    : Comes cs (.returned (.error (.invalid "invalid hex: invalid digit found in string")))

theorem decodeAt_comes (front : List UInt8) (cs : List Char) (heven : (utf8 cs).length % 2 = 0)
    : Comes cs (decodeAt (front ++ utf8 cs) (range' front.length ((utf8 cs).length / 2) 2)) := by
  induction cs using decode.go.induct generalizing front with
  | case1 => exact .decoded trivial rfl
  | case2 c =>
    have hrange := range'_utf8 front (cons_ne_nil c []) heven
    have hwide : 2 ≤ c.utf8Size := by
      by_contra hone
      have hpos := c.utf8Size_pos
      rw [utf8_cons_ascii (by omega)] at heven
      cases heven
    rw [hrange, decodeAt_wide hwide]
    split
    next htwo =>
      refine .refused id ?_ rfl
      rintro (⟨h⟩ | _ | _)
      omega
    next hthree => exact .cut (.wide (by omega))
  | case3 c d rest ih =>
    rw [range'_utf8 front (cons_ne_nil c _) heven]
    by_cases hc : c.utf8Size = 1
    . by_cases hd : d.utf8Size = 1
      . have hutf8 : front ++ utf8 (c :: d :: rest)
            = (front ++ [c.val.toUInt8, d.val.toUInt8]) ++ utf8 rest := by
          rw [utf8_cons_ascii hc, utf8_cons_ascii hd, append_assoc]
          rfl
        have hlength : (utf8 (c :: d :: rest)).length = (utf8 rest).length + 2 := by
          rw [utf8_cons_ascii hc, utf8_cons_ascii hd]
          rfl
        have hrest := ih (front ++ [c.val.toUInt8, d.val.toUInt8]) (by omega)
        have hfront : (front ++ [c.val.toUInt8, d.val.toUInt8]).length = front.length + 2 := length_append
        rw [← hutf8, hfront] at hrest
        rw [decodeAt_pair hc hd, hlength]
        by_cases hpair : IsPair c d
        . obtain ⟨b, hb⟩ := Option.isSome_iff_exists.mp ((byte_isSome_iff).mpr hpair)
          rw [hb]
          have hhalf : ((utf8 rest).length + 2) / 2 - 1 = (utf8 rest).length / 2 := by omega
          rw [hhalf]
          dsimp only
          generalize decodeAt _ _ = result at hrest ⊢
          cases hrest with
          | @decoded bytes hpaired hgo =>
            have hall : Paired (c :: d :: rest) := ⟨hpair, hpaired⟩
            refine .decoded hall ?_
            rw [decode.go, hb, hgo]
            rfl
          | cut hsplits => exact .cut (.later hpair hsplits)
          | refused hpaired hsplits hgo =>
            refine .refused (fun h => hpaired h.2) ?_ ?_
            . rintro (⟨h⟩ | ⟨-, h⟩ | ⟨-, h⟩)
              . omega
              . omega
              . exact hsplits h
            . rw [decode.go, hb, hgo]
              rfl
        . rw [byte_eq_none hpair]
          refine .refused (fun h => hpair h.1) ?_ ?_
          . rintro (⟨h⟩ | ⟨-, h⟩ | ⟨h, -⟩)
            . omega
            . omega
            . exact hpair h
          . rw [decode.go, byte_eq_none hpair]
            rfl
      . have hpos := d.utf8Size_pos
        rw [decodeAt_second hc (by omega)]
        exact .cut (.second hc (by omega))
    . have hpos := c.utf8Size_pos
      rw [decodeAt_wide (by omega)]
      have hpair : ¬IsPair c d := fun h => hc (IsPair.utf8Size h).1
      split
      next htwo =>
        refine .refused (fun h => hpair h.1) ?_ ?_
        . rintro (⟨h⟩ | ⟨h, -⟩ | ⟨h, -⟩)
          . omega
          . exact hc h
          . exact hpair h
        . rw [decode.go, byte_eq_none hpair]
          rfl
      next hthree => exact .cut (.wide (by omega))

end Walk

section Decode

variable {s : String} {cs : List Char} {bytes : List UInt8}

def Cut (s : String) : Prop :=
  (bytesOf s).length % 2 = 0 ∧ Splits s.toList

theorem paired_iff : Paired cs ↔ (decode.go cs).isSome := by
  induction cs using decode.go.induct with
  | case1 => exact iff_of_true trivial rfl
  | case2 c => exact iff_of_false id Bool.false_ne_true
  | case3 a b rest ih =>
    rw [Paired, ← byte_isSome_iff, ih, decode.go]
    cases byte a b with
    | none => simp
    | some x => cases decode.go rest <;> simp

theorem Paired.even (h : Paired cs) : (utf8 cs).length = cs.length ∧ cs.length % 2 = 0 := by
  induction cs using decode.go.induct with
  | case1 => exact ⟨rfl, rfl⟩
  | case2 c => cases h
  | case3 a b rest ih =>
    obtain ⟨ha, hb⟩ := h.1.utf8Size
    obtain ⟨hlength, heven⟩ := ih h.2
    rw [utf8_cons_ascii ha, utf8_cons_ascii hb]
    simp only [length_cons]
    omega

theorem Splits.not_paired (h : Splits cs) : ¬Paired cs := by
  induction h with
  | @wide c rest h =>
    intro hpaired
    cases rest with
    | nil => cases hpaired
    | cons d rest =>
      have := hpaired.1.utf8Size.1
      omega
  | second _ hd =>
    intro hpaired
    have := hpaired.1.utf8Size.2
    omega
  | later _ _ ih => exact fun hpaired => ih hpaired.2

theorem decode_comes (heven : (bytesOf s).length % 2 = 0) : Comes s.toList (decode s) := by
  rw [decode, if_neg (by omega)]
  exact decodeAt_comes [] s.toList heven

theorem decode_odd (hodd : (bytesOf s).length % 2 ≠ 0)
    : decode s = .returned (.error (.invalid "hex string has odd length")) := by
  rw [decode, if_pos hodd]

theorem decode_eq_panicked : decode s = .panicked ↔ Cut s := by
  by_cases heven : (bytesOf s).length % 2 = 0
  . have hcomes := decode_comes heven
    unfold Cut
    rw [and_iff_right heven]
    generalize decode s = result at hcomes
    cases hcomes with
    | decoded h _ => exact iff_of_false nofun fun hsplits => hsplits.not_paired h
    | cut h => exact iff_of_true rfl h
    | refused _ h _ => exact iff_of_false nofun h
  . rw [decode_odd heven]
    exact iff_of_false nofun fun h => heven h.1

theorem decode_eq_decodeHex (h : ¬Cut s) : decode s = .returned (decodeHex s) := by
  rw [← decode_eq_panicked] at h
  by_cases heven : (bytesOf s).length % 2 = 0
  . have hcomes := decode_comes heven
    rw [decodeHex, if_neg (by omega), Plugin.Hex.decode]
    generalize decode s = result at hcomes h
    cases hcomes with
    | decoded _ hgo => rw [hgo]
    | cut _ => exact absurd rfl h
    | refused _ _ hgo => rw [hgo]
  . rw [decode_odd heven, decodeHex, if_pos heven]

theorem Paired.not_cut (h : Paired s.toList) : ¬Cut s :=
  fun hcut => hcut.2.not_paired h

theorem decode_ok_iff : decode s = .returned (.ok bytes) ↔ Plugin.Hex.decode s = some bytes := by
  have hpaired : Paired s.toList ↔ (Plugin.Hex.decode s).isSome := paired_iff
  by_cases h : Paired s.toList
  . have heven := h.even
    rw [decode_eq_decodeHex h.not_cut, decodeHex, if_neg]
    . obtain ⟨bytes', hbytes'⟩ := Option.isSome_iff_exists.mp (hpaired.mp h)
      simp [hbytes']
    . unfold bytesOf
      omega
  . rw [hpaired, Option.not_isSome_iff_eq_none] at h
    rw [h]
    constructor
    . intro hdecode
      have hcut : ¬Cut s := by
        rw [← decode_eq_panicked, hdecode]
        nofun
      rw [decode_eq_decodeHex hcut, decodeHex, h] at hdecode
      split at hdecode
      next => cases hdecode
      next => cases hdecode
    . nofun

theorem decode_hexLower (bytes : List UInt8) : decode (hexLower bytes) = .returned (.ok bytes) :=
  (decode_ok_iff).mpr (Plugin.Hex.decode_hexLower bytes)

/--
The decoder takes the texts of an even number of digits and no others, and undoes the encoder up to the case.
-/
structure Exact (s : String) : Prop where
  returns : ∃ result, decode s = .returned result
  sound : ∀ bytes, decode s = .returned (.ok bytes) → s.toList.length % 2 = 0 ∧ (∀ c ∈ s.toList, IsHexDigit c)
    ∧ hexLower bytes = String.ofList (s.toList.map Char.toLower)
  complete : s.toList.length % 2 = 0 → (∀ c ∈ s.toList, IsHexDigit c) → ∃ bytes, decode s = .returned (.ok bytes)

theorem byte_digits {a b : Char} {x : UInt8} (h : byte a b = some x) (hplus : a ≠ '+')
    : IsHexDigit a ∧ IsHexDigit b
        ∧ [hexDigit (x.toNat / 16), hexDigit (x.toNat % 16)] = [a.toLower, b.toLower] := by
  unfold byte at h
  rw [if_neg hplus] at h
  simp only [Option.bind_eq_bind, Option.bind_eq_some_iff] at h
  obtain ⟨high, hhigh, low, hlow, hx⟩ := h
  obtain ⟨hhigh16, -, -, hhighLower⟩ := digit_eq_some hhigh
  obtain ⟨hlow16, -, -, hlowLower⟩ := digit_eq_some hlow
  have hvalue : x.toNat = high * 16 + low := by
    cases hx
    exact Nat.mod_eq_of_lt (by omega)
  have hdiv : x.toNat / 16 = high := by omega
  have hmod : x.toNat % 16 = low := by omega
  refine ⟨Option.isSome_iff_exists.mpr ⟨high, hhigh⟩, Option.isSome_iff_exists.mpr ⟨low, hlow⟩, ?_⟩
  rw [hdiv, hmod, hhighLower, hlowLower]

theorem go_digits (h : decode.go cs = some bytes) (hplus : '+' ∉ cs)
    : (∀ c ∈ cs, IsHexDigit c)
        ∧ bytes.flatMap (fun b => [hexDigit (b.toNat / 16), hexDigit (b.toNat % 16)])
          = cs.map Char.toLower := by
  induction cs using decode.go.induct generalizing bytes with
  | case1 =>
    cases h
    exact ⟨forall_mem_nil _, rfl⟩
  | case2 c => cases h
  | case3 a b rest ih =>
    simp only [decode.go, Option.bind_eq_bind, Option.bind_eq_some_iff] at h
    obtain ⟨first, hfirst, tail, htail, hbytes⟩ := h
    cases hbytes
    simp only [mem_cons, not_or] at hplus
    obtain ⟨ha, hb, hpair⟩ := byte_digits hfirst (Ne.symm hplus.1)
    obtain ⟨hdigits, hrest⟩ := ih htail hplus.2.2
    constructor
    . intro c hc
      simp only [mem_cons] at hc
      rcases hc with rfl | rfl | hc
      . exact ha
      . exact hb
      . exact hdigits c hc
    . rw [flatMap_cons, hpair, hrest]
      rfl

theorem paired_of_digits (heven : cs.length % 2 = 0) (h : ∀ c ∈ cs, IsHexDigit c) : Paired cs := by
  induction cs using decode.go.induct with
  | case1 => trivial
  | case2 c => cases heven
  | case3 a b rest ih =>
    refine ⟨⟨.inr (h a (by simp)), h b (by simp)⟩, ih ?_ fun c hc => h c (by simp [hc])⟩
    simp only [length_cons] at heven
    omega

theorem exact_iff : Exact s ↔ ¬Cut s ∧ ¬(Paired s.toList ∧ '+' ∈ s.toList) := by
  have hpaired : Paired s.toList ↔ (Plugin.Hex.decode s).isSome := paired_iff
  constructor
  . intro h
    constructor
    . intro hcut
      obtain ⟨result, hresult⟩ := h.returns
      rw [(decode_eq_panicked).mpr hcut] at hresult
      cases hresult
    . rintro ⟨hpairs, hplus⟩
      obtain ⟨bytes, hbytes⟩ := Option.isSome_iff_exists.mp (hpaired.mp hpairs)
      have hdigit := (h.sound bytes ((decode_ok_iff).mpr hbytes)).2.1 '+' hplus
      revert hdigit
      decide
  . rintro ⟨hcut, hplus⟩
    refine ⟨⟨_, decode_eq_decodeHex hcut⟩, ?_, ?_⟩
    . intro bytes hbytes
      rw [decode_ok_iff] at hbytes
      have hpairs : Paired s.toList := hpaired.mpr (Option.isSome_iff_exists.mpr ⟨bytes, hbytes⟩)
      obtain ⟨hdigits, hlower⟩ := go_digits hbytes fun h => hplus ⟨hpairs, h⟩
      refine ⟨hpairs.even.2, hdigits, ?_⟩
      rw [hexLower, hlower]
    . intro heven hdigits
      obtain ⟨bytes, hbytes⟩ := Option.isSome_iff_exists.mp (hpaired.mp (paired_of_digits heven hdigits))
      exact ⟨bytes, (decode_ok_iff).mpr hbytes⟩

theorem bind_eq_panicked {f : List UInt8 → Call α}
    : (decode s).bind f = .panicked ↔ Cut s ∨ ∃ bytes, Plugin.Hex.decode s = some bytes ∧ f bytes = .panicked := by
  cases hdecode : decode s with
  | panicked => exact iff_of_true rfl (.inl ((decode_eq_panicked).mp hdecode))
  | returned result =>
    have hcut : ¬Cut s := by
      rw [← decode_eq_panicked, hdecode]
      nofun
    rw [or_iff_right hcut]
    cases result with
    | ok bytes =>
      rw [(decode_ok_iff).mp hdecode]
      simp [Call.bind]
    | error e =>
      apply iff_of_false nofun
      rintro ⟨bytes, hbytes, -⟩
      rw [(decode_ok_iff).mpr hbytes] at hdecode
      cases hdecode

theorem paired_toList_iff : Paired s.toList ↔ ∃ bytes, Plugin.Hex.decode s = some bytes := by
  rw [← Option.isSome_iff_exists]
  exact paired_iff

end Hex.Decode

def toEnvelope (p : Package) : WovyrPkg where
  manifest := p.manifestYaml
  signature := hexLower p.signature
  artifacts := p.artifacts.toList.map fun (path, bytes) => (path, hexLower bytes)
  keyless := p.keyless

def toWovyrpkg (renderPkg : WovyrPkg → List UInt8) (p : Package) : List UInt8 :=
  renderPkg (toEnvelope p)

def decodeAll : List (String × String) → Std.ExtTreeMap String (List UInt8)
    → Call (Std.ExtTreeMap String (List UInt8))
  | [], artifacts => .returned (.ok artifacts)
  | (path, hex) :: rest, artifacts => (Hex.decode hex).bind fun bytes => decodeAll rest (artifacts.insert path bytes)

def fromWovyrpkg (parsePkg : List UInt8 → Except String WovyrPkg) (bytes : List UInt8) : Call Package :=
  match parsePkg bytes with
  | .error e => .returned (.error (.invalid s!"invalid .wovyrpkg: {e}"))
  | .ok envelope =>
    (Hex.decode envelope.signature).bind fun signature =>
      (decodeAll envelope.artifacts ∅).bind fun artifacts =>
        .returned (.ok { manifestYaml := envelope.manifest, signature, artifacts, keyless := envelope.keyless })

-- The first of the texts that is not made of pairs is cut.
def FirstCut : List String → Prop
  | [] => False
  | s :: rest => Hex.Cut s ∨ (Hex.Paired s.toList ∧ FirstCut rest)

theorem firstCut_cons {s : String} {rest : List String}
    : FirstCut (s :: rest) ↔ Hex.Cut s ∨ (Hex.Paired s.toList ∧ FirstCut rest) := Iff.rfl

section Envelope

variable {parsePkg : List UInt8 → Except String WovyrPkg} {renderPkg : WovyrPkg → List UInt8}
  {artifacts : Std.ExtTreeMap String (List UInt8)} {list : List (String × String)}

theorem decodeAll_hexLower (blobs : List (String × List UInt8)) (artifacts : Std.ExtTreeMap String (List UInt8))
    : decodeAll (blobs.map fun (path, bytes) => (path, hexLower bytes)) artifacts
        = .returned (.ok (blobs.foldl (fun m blob => m.insert blob.1 blob.2) artifacts)) := by
  induction blobs generalizing artifacts with
  | nil => rfl
  | cons blob blobs ih =>
    rw [map_cons, decodeAll, Hex.decode_hexLower]
    exact ih _

theorem foldl_insert_toList (m : Std.ExtTreeMap String (List UInt8))
    : m.toList.foldl (fun m blob => m.insert blob.1 blob.2) ∅ = m := by
  rw [← Std.ExtTreeMap.ofList_eq_foldl]
  apply Std.ExtTreeMap.ext_getElem?
  intro k
  cases h : m[k]? with
  | some v =>
    exact Std.ExtTreeMap.getElem?_ofList_of_mem Std.ReflCmp.compare_self Std.ExtTreeMap.distinct_keys_toList
      (Std.ExtTreeMap.mem_toList_iff_getElem?_eq_some.mpr h)
  | none =>
    apply Std.ExtTreeMap.getElem?_ofList_of_contains_eq_false
    rw [Std.ExtTreeMap.map_fst_toList_eq_keys, ← Bool.not_eq_true, contains_iff_mem, Std.ExtTreeMap.mem_keys,
      ← Std.ExtTreeMap.isSome_getElem?_iff_mem, h]
    nofun

theorem fromWovyrpkg_toWovyrpkg (p : Package) (hcodec : parsePkg (renderPkg (toEnvelope p)) = .ok (toEnvelope p))
    : fromWovyrpkg parsePkg (toWovyrpkg renderPkg p) = .returned (.ok p) := by
  rw [fromWovyrpkg, toWovyrpkg, hcodec]
  dsimp only [toEnvelope]
  rw [Hex.decode_hexLower, decodeAll_hexLower, foldl_insert_toList]
  rfl

theorem decodeAll_eq_panicked : decodeAll list artifacts = .panicked ↔ FirstCut (list.map (·.2)) := by
  induction list generalizing artifacts with
  | nil => exact iff_of_false nofun id
  | cons entry list ih =>
    rw [decodeAll, Hex.bind_eq_panicked, map_cons, firstCut_cons, Hex.paired_toList_iff]
    simp only [ih, exists_and_right]

theorem fromWovyrpkg_eq_panicked {bytes : List UInt8}
    : fromWovyrpkg parsePkg bytes = .panicked
        ↔ ∃ envelope, parsePkg bytes = .ok envelope
          ∧ FirstCut (envelope.signature :: envelope.artifacts.map (·.2)) := by
  have hbind (artifacts : Call (Std.ExtTreeMap String (List UInt8))) (f : Std.ExtTreeMap String (List UInt8) → Package)
      : (artifacts.bind fun m => .returned (.ok (f m))) = .panicked ↔ artifacts = .panicked := by
    match artifacts with
    | .returned (.ok m) => exact iff_of_false nofun nofun
    | .returned (.error e) => exact iff_of_false nofun nofun
    | .panicked => exact iff_of_true rfl rfl
  rw [fromWovyrpkg]
  cases parsePkg bytes with
  | error e => exact iff_of_false nofun nofun
  | ok envelope =>
    simp only [Except.ok.injEq, exists_eq_left', firstCut_cons, Hex.bind_eq_panicked, hbind, decodeAll_eq_panicked,
      exists_and_right, Hex.paired_toList_iff]

theorem decodeAll_eq_decodeArtifacts (h : ¬FirstCut (list.map (·.2)))
    : decodeAll list artifacts = .returned (decodeArtifacts list artifacts) := by
  induction list generalizing artifacts with
  | nil => rfl
  | cons entry list ih =>
    rw [map_cons, firstCut_cons, not_or, not_and] at h
    rw [decodeAll, decodeArtifacts, Hex.decode_eq_decodeHex h.1]
    cases hdecode : decodeHex entry.2 with
    | error e => rfl
    | ok bytes =>
      have hpaired : Hex.Paired entry.2.toList := by
        rw [Hex.paired_toList_iff]
        exact ⟨bytes, (Hex.decode_ok_iff).mp (by rw [Hex.decode_eq_decodeHex h.1, hdecode])⟩
      exact ih (h.2 hpaired)

theorem fromWovyrpkg_eq_returned {r : Registry} {bytes : List UInt8} (h : fromWovyrpkg r.parsePkg bytes ≠ .panicked)
    : fromWovyrpkg r.parsePkg bytes = .returned (r.fromWovyrpkg bytes) := by
  rw [ne_eq, fromWovyrpkg_eq_panicked] at h
  rw [fromWovyrpkg, Registry.fromWovyrpkg]
  cases hparse : r.parsePkg bytes with
  | error e => rfl
  | ok envelope =>
    have hcut : ¬FirstCut (envelope.signature :: envelope.artifacts.map (·.2)) :=
      fun hcut => h ⟨envelope, hparse, hcut⟩
    rw [firstCut_cons, not_or, not_and] at hcut
    dsimp only
    rw [Hex.decode_eq_decodeHex hcut.1]
    cases hdecode : decodeHex envelope.signature with
    | error e => rfl
    | ok signature =>
      have hpaired : Hex.Paired envelope.signature.toList := by
        rw [Hex.paired_toList_iff]
        exact ⟨signature, (Hex.decode_ok_iff).mp (by rw [Hex.decode_eq_decodeHex hcut.1, hdecode])⟩
      dsimp only [Call.bind]
      rw [decodeAll_eq_decodeArtifacts (hcut.2 hpaired)]
      cases decodeArtifacts envelope.artifacts ∅ <;> rfl

/--
A package comes back from its envelope, what is uploaded is taken or refused, and the decoder is exact.
-/
structure EnvelopeSafe (parsePkg : List UInt8 → Except String WovyrPkg) (renderPkg : WovyrPkg → List UInt8)
    (p : Package) (bytes : List UInt8) (s : String) : Prop where
  roundTrip : fromWovyrpkg parsePkg (toWovyrpkg renderPkg p) = .returned (.ok p)
  total : ∃ result, fromWovyrpkg parsePkg bytes = .returned result
  exact : Hex.Exact s

theorem envelopeSafe_iff (p : Package) (bytes : List UInt8) (s : String)
    (hcodec : parsePkg (renderPkg (toEnvelope p)) = .ok (toEnvelope p))
    : EnvelopeSafe parsePkg renderPkg p bytes s
        ↔ (∀ envelope, parsePkg bytes = .ok envelope
            → ¬FirstCut (envelope.signature :: envelope.artifacts.map (·.2)))
          ∧ ¬Hex.Cut s ∧ ¬(Hex.Paired s.toList ∧ '+' ∈ s.toList) := by
  have htotal : (∃ result, fromWovyrpkg parsePkg bytes = .returned result)
      ↔ fromWovyrpkg parsePkg bytes ≠ .panicked := by
    cases fromWovyrpkg parsePkg bytes with
    | returned result => exact iff_of_true ⟨result, rfl⟩ nofun
    | panicked => exact iff_of_false nofun fun h => h rfl
  rw [ne_eq, fromWovyrpkg_eq_panicked] at htotal
  push Not at htotal
  rw [← htotal, ← Hex.exact_iff]
  exact ⟨fun h => ⟨h.total, h.exact⟩, fun h => ⟨fromWovyrpkg_toWovyrpkg p hcodec, h.1, h.2⟩⟩

def hello : Package where
  manifestYaml := "metadata:"
  signature := [0x1f]
  artifacts := (∅ : Std.ExtTreeMap String (List UInt8)).insert "a.wasm" [0x00]

def helloEnvelope : WovyrPkg where
  manifest := "metadata:"
  signature := "1f"
  artifacts := [("a.wasm", "00")]

def helloText : String :=
  "\x7b\n  \"manifest\": \"metadata:\",\n  \"signature\": \"1f\",\n  \"artifacts\": \x7b\n    \"a.wasm\": \"00\"\n  \x7d\n\x7d"

def cutText : String :=
  "\x7b\"manifest\":\"\",\"signature\":\"a€\"\x7d"

def parseTwo (bytes : List UInt8) : Except String WovyrPkg :=
  if bytes = bytesOf helloText then
    .ok helloEnvelope
  else if bytes = bytesOf cutText then
    .ok { manifest := "", signature := "a€" }
  else
    .error "expected value at line 1 column 1"

theorem envelopeSafe_hello : EnvelopeSafe parseTwo (fun _ => bytesOf helloText) hello (bytesOf helloText) "1f" := by
  have hparse : parseTwo (bytesOf helloText) = .ok helloEnvelope := by
    rw [parseTwo, if_pos rfl]
  have hpaired : Hex.Paired "1f".toList := ⟨⟨.inr rfl, rfl⟩, trivial⟩
  have hartifact : Hex.Paired "00".toList := ⟨⟨.inr rfl, rfl⟩, trivial⟩
  refine (envelopeSafe_iff hello (bytesOf helloText) "1f" ?_).mpr ⟨?_, hpaired.not_cut, ?_⟩
  . exact hparse
  . intro envelope henvelope
    rw [hparse] at henvelope
    cases henvelope
    rintro (hcut | ⟨-, hcut | ⟨-, hnone⟩⟩)
    . exact hpaired.not_cut hcut
    . exact hartifact.not_cut hcut
    . exact hnone
  . rintro ⟨-, hplus⟩
    revert hplus
    decide

-- A signature in which a character of three bytes comes second, and one that begins with a sign.
theorem decode_cut
    : fromWovyrpkg parseTwo (bytesOf cutText) = .panicked ∧ Hex.decode "+f" = .returned (.ok [0x0f]) := by
  constructor
  . rw [fromWovyrpkg_eq_panicked]
    refine ⟨{ manifest := "", signature := "a€" }, ?_, .inl ⟨by decide, ?_⟩⟩
    . rw [parseTwo, if_neg (by decide), if_pos rfl]
    . exact .second (by decide) (by decide)
  . rw [Hex.decode_ok_iff]
    decide

end Wovyr.Marketplace.Envelope
