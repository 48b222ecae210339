import Mathlib.Data.List.Basic
import Mathlib.Tactic.IntervalCases

/-!
This module contains byte strings: the UTF-8 encoding of a text with how the bytes of a character begin and go
on, lowercase hexadecimal and the little-endian bytes of an integer of fixed width.
-/

namespace Bytes

open List

def utf8 (cs : List Char) : List UInt8 :=
  cs.flatMap String.utf8EncodeChar

theorem utf8_append (cs ds : List Char) : utf8 (cs ++ ds) = utf8 cs ++ utf8 ds := by
  simp [utf8]

theorem utf8_cons_ascii {c : Char} (h : c.utf8Size = 1) (cs : List Char)
    : utf8 (c :: cs) = c.val.toUInt8 :: utf8 cs := by
  simp [utf8, String.utf8EncodeChar_eq_singleton h]

theorem utf8_injective : Function.Injective utf8 := by
  intro cs ds h
  have hbytes : (String.ofList cs).toByteArray = (String.ofList ds).toByteArray := by
    rw [String.toByteArray_ofList, String.toByteArray_ofList]
    unfold utf8Encode
    unfold utf8 at h
    rw [h]
  exact String.ofList_injective (String.toByteArray_inj.mp hbytes)

theorem mem_utf8EncodeChar {c : Char} {b : UInt8} (h : b ∈ String.utf8EncodeChar c)
    : c.toNat = b.toNat ∨ 0x80 ≤ b.toNat := by
  unfold String.utf8EncodeChar at h
  dsimp only at h
  split at h
  . next hascii =>
    left
    rw [mem_singleton] at h
    rw [h, UInt8.toNat_ofNat']
    show c.val.toNat = _
    omega
  . right
    split at h
    . simp only [mem_cons, not_mem_nil, or_false] at h
      rcases h with rfl | rfl <;> rw [UInt8.toNat_ofNat'] <;> omega
    . split at h
      . simp only [mem_cons, not_mem_nil, or_false] at h
        rcases h with rfl | rfl | rfl <;> rw [UInt8.toNat_ofNat'] <;> omega
      . simp only [mem_cons, not_mem_nil, or_false] at h
        rcases h with rfl | rfl | rfl | rfl <;> rw [UInt8.toNat_ofNat'] <;> omega

theorem mem_utf8_ascii {cs : List Char} {b : UInt8} (hb : b.toNat < 0x80) (h : b ∈ utf8 cs)
    : ∃ c ∈ cs, c.toNat = b.toNat := by
  simp only [utf8, mem_flatMap] at h
  obtain ⟨c, hc, hmem⟩ := h
  rcases mem_utf8EncodeChar hmem with heq | hge
  . exact ⟨c, hc, heq⟩
  . omega

theorem toNat_eq_of_utf8_eq_cons {c : Char} {cs : List Char} {b : UInt8} {rest : List UInt8}
    (hb : b.toNat < 0x80) (h : utf8 (c :: cs) = b :: rest) : c.toNat = b.toNat := by
  cases hc : String.utf8EncodeChar c with
  | nil =>
    have hlength := String.length_utf8EncodeChar c
    have hpos := c.utf8Size_pos
    rw [hc, length_nil] at hlength
    omega
  | cons b' bs =>
    have hhead : b' = b := by
      simp only [utf8, flatMap_cons, hc, cons_append, cons.injEq] at h
      exact h.1
    subst hhead
    have hmem : b' ∈ String.utf8EncodeChar c := by simp [hc]
    rcases mem_utf8EncodeChar hmem with heq | hge
    . exact heq
    . omega

def hexDigit (n : Nat) : Char :=
  Nat.digitChar n

def hexLower (bytes : List UInt8) : String :=
  String.ofList (bytes.flatMap fun b => [hexDigit (b.toNat / 16), hexDigit (b.toNat % 16)])

-- `to_le_bytes` of an integer of `w` bytes.
def leBytes : (w n : Nat) → List UInt8
  | 0, _ => []
  | w + 1, n => UInt8.ofNat (n % 256) :: leBytes w (n / 256)

theorem length_leBytes (w n : Nat) : (leBytes w n).length = w := by
  induction w generalizing n with
  | zero => rfl
  | succ w ih => simp [leBytes, ih]

theorem leBytes_inj {w m n : Nat} (hm : m < 256 ^ w) (hn : n < 256 ^ w)
    (h : leBytes w m = leBytes w n) : m = n := by
  induction w generalizing m n with
  | zero =>
    rw [pow_zero] at hm hn
    omega
  | succ w ih =>
    simp only [leBytes, cons.injEq] at h
    have hlow := congrArg UInt8.toNat h.1
    simp only [UInt8.toNat_ofNat'] at hlow
    have hhigh : m / 256 = n / 256 := by
      apply ih _ _ h.2
      . rw [pow_succ] at hm
        omega
      . rw [pow_succ] at hn
        omega
    omega

def isLowerHex (c : Char) : Bool :=
  c.isDigit || ('a' ≤ c && c ≤ 'f')

theorem isLowerHex_hexDigit {n : Nat} (h : n < 16) : isLowerHex (hexDigit n) = true := by
  interval_cases n <;> rfl

theorem isLowerHex_of_mem_hexLower {bytes : List UInt8} {c : Char}
    (h : c ∈ (hexLower bytes).toList) : isLowerHex c = true := by
  simp only [hexLower, String.toList_ofList, mem_flatMap, mem_cons, not_mem_nil,
    or_false] at h
  obtain ⟨b, -, rfl | rfl⟩ := h
  . apply isLowerHex_hexDigit
    have := b.toNat_lt
    omega
  . apply isLowerHex_hexDigit
    omega

theorem hexDigit_inj {m n : Nat} (hm : m < 16) (hn : n < 16) (h : hexDigit m = hexDigit n)
    : m = n := by
  revert h
  interval_cases m <;> interval_cases n <;> decide

theorem hexLower_injective : Function.Injective hexLower := by
  intro bs cs h
  replace h := String.ofList_injective h
  induction bs generalizing cs with
  | nil =>
    cases cs with
    | nil => rfl
    | cons c cs => simp at h
  | cons b bs ih =>
    cases cs with
    | nil => simp at h
    | cons c cs =>
      simp only [flatMap_cons, cons_append, nil_append, cons.injEq] at h
      have hb := b.toNat_lt
      have hc := c.toNat_lt
      have hhigh := hexDigit_inj (by omega) (by omega) h.1
      have hlow := hexDigit_inj (by omega) (by omega) h.2.1
      have hbc : b = c := by
        apply UInt8.toNat.inj
        omega
      rw [hbc, ih h.2.2]

def IsContinuation (b : UInt8) : Prop :=
  0x80 ≤ b.toNat ∧ b.toNat < 0xc0

inductive Encodes (c : Char) : List UInt8 → Prop where
  | ascii (b : UInt8) (hsize : c.utf8Size = 1) (heq : b.toNat = c.toNat) (hb : b.toNat < 0x80) : Encodes c [b]
  | wide (b : UInt8) (bs : List UInt8) (hsize : bs.length + 1 = c.utf8Size) (hsome : bs ≠ []) (hb : 0xc0 ≤ b.toNat)
    (hbs : ∀ x ∈ bs, IsContinuation x) : Encodes c (b :: bs)

theorem encodes_utf8EncodeChar (c : Char) : Encodes c (String.utf8EncodeChar c) := by
  have hlength := String.length_utf8EncodeChar c
  revert hlength
  unfold String.utf8EncodeChar
  dsimp only
  have hval : c.val.toNat = c.toNat := rfl
  split
  . next hascii =>
    intro hlength
    apply Encodes.ascii
    . exact hlength.symm
    . rw [UInt8.toNat_ofNat', hval]
      omega
    . rw [UInt8.toNat_ofNat']
      omega
  . split
    . intro hlength
      apply Encodes.wide
      . exact hlength
      . simp
      . rw [UInt8.toNat_ofNat']
        omega
      . simp only [mem_cons, not_mem_nil, or_false, forall_eq, IsContinuation, UInt8.toNat_ofNat']
        omega
    . split
      . intro hlength
        apply Encodes.wide
        . exact hlength
        . simp
        . rw [UInt8.toNat_ofNat']
          omega
        . simp only [mem_cons, not_mem_nil, or_false, forall_eq_or_imp, forall_eq, IsContinuation,
            UInt8.toNat_ofNat']
          omega
      . intro hlength
        apply Encodes.wide
        . exact hlength
        . simp
        . rw [UInt8.toNat_ofNat']
          omega
        . simp only [mem_cons, not_mem_nil, or_false, forall_eq_or_imp, forall_eq, IsContinuation,
            UInt8.toNat_ofNat']
          omega

theorem encodes_cases (c : Char) (cs : List Char)
    : ∃ bytes, Encodes c bytes ∧ utf8 (c :: cs) = bytes ++ utf8 cs :=
  ⟨_, encodes_utf8EncodeChar c, by simp [utf8]⟩

theorem not_isContinuation_head {cs : List Char} {b : UInt8} {rest : List UInt8} (h : utf8 cs = b :: rest)
    : ¬ IsContinuation b := by
  rintro ⟨hlow, hhigh⟩
  cases cs with
  | nil => cases h
  | cons c cs =>
    obtain ⟨bytes, hbytes, heq⟩ := encodes_cases c cs
    rw [heq] at h
    cases hbytes with
    | ascii b' _ _ hb =>
      cases h
      omega
    | wide b' bs _ _ hb =>
      cases h
      omega

end Bytes
