import Mathlib.Data.List.TakeWhile
import Wovyr.Json.Value
import Wovyr.Lib.Bytes

/-!
This module contains the compact JSON text that `serde_json` writes for a value. How a float is
written is a parameter. The main result is that the text of a value is a prefix code where it has no floats, or
where floats are written as numbers of their own.
-/

namespace Wovyr.Json

open List

def escapeChar (c : Char) : List Char :=
  if c = '"' then ['\\', '"']
  else if c = '\\' then ['\\', '\\']
  else if c.toNat = 0x08 then ['\\', 'b']
  else if c.toNat = 0x09 then ['\\', 't']
  else if c.toNat = 0x0a then ['\\', 'n']
  else if c.toNat = 0x0c then ['\\', 'f']
  else if c.toNat = 0x0d then ['\\', 'r']
  else if c.toNat < 0x20 then
    ['\\', 'u', '0', '0', Bytes.hexDigit (c.toNat / 16), Bytes.hexDigit (c.toNat % 16)]
  else [c]

def quote (s : String) : List Char :=
  '"' :: (s.toList.flatMap escapeChar ++ ['"'])

def renderInt (n : Int) : List Char :=
  match n with
  | .ofNat n => Nat.toDigits 10 n
  | .negSucc n => '-' :: Nat.toDigits 10 (n + 1)

mutual

def render (fmt : Rat → List Char) : Value → List Char
  | .null => ['n', 'u', 'l', 'l']
  | .bool true => ['t', 'r', 'u', 'e']
  | .bool false => ['f', 'a', 'l', 's', 'e']
  | .int n => renderInt n
  | .float q => fmt q
  | .string s => quote s
  | .array [] => ['[', ']']
  | .array (v :: vs) => '[' :: (render fmt v ++ renderTail fmt vs)
  | .object [] => ['{', '}']
  | .object ((k, v) :: fields) => '{' :: (quote k ++ ':' :: (render fmt v ++ renderFields fmt fields))

def renderTail (fmt : Rat → List Char) : List Value → List Char
  | [] => [']']
  | v :: vs => ',' :: (render fmt v ++ renderTail fmt vs)

def renderFields (fmt : Rat → List Char) : List (String × Value) → List Char
  | [] => ['}']
  | (k, v) :: fields => ',' :: (quote k ++ ':' :: (render fmt v ++ renderFields fmt fields))

end

def hexVal (c : Char) : Nat :=
  if c.isDigit then c.toNat - 48 else c.toNat - 87

def unescape : List Char → Option (Char × List Char)
  | '\\' :: '"' :: s => some ('"', s)
  | '\\' :: '\\' :: s => some ('\\', s)
  | '\\' :: 'b' :: s => some (Char.ofNat 0x08, s)
  | '\\' :: 't' :: s => some (Char.ofNat 0x09, s)
  | '\\' :: 'n' :: s => some (Char.ofNat 0x0a, s)
  | '\\' :: 'f' :: s => some (Char.ofNat 0x0c, s)
  | '\\' :: 'r' :: s => some (Char.ofNat 0x0d, s)
  | '\\' :: 'u' :: '0' :: '0' :: a :: b :: s => some (Char.ofNat (16 * hexVal a + hexVal b), s)
  | '\\' :: _ => none
  | '"' :: _ => none
  | c :: s => some (c, s)
  | [] => none

theorem unescape_control (n : Nat) (h : n < 0x20) (s : List Char)
    : unescape (escapeChar (Char.ofNat n) ++ s) = some (Char.ofNat n, s) := by
  interval_cases n <;> rfl

theorem escapeChar_raw {c : Char} (hcontrol : ¬c.toNat < 0x20) (hquote : c ≠ '"') (hslash : c ≠ '\\')
    : escapeChar c = [c] := by
  unfold escapeChar
  simp only [if_neg hquote, if_neg hslash, if_neg hcontrol]
  repeat rw [if_neg (by omega)]

theorem unescape_escapeChar (c : Char) (s : List Char)
    : unescape (escapeChar c ++ s) = some (c, s) := by
  by_cases hcontrol : c.toNat < 0x20
  . have h := unescape_control c.toNat hcontrol s
    rwa [Char.ofNat_toNat] at h
  . by_cases hquote : c = '"'
    . subst hquote
      rfl
    . by_cases hslash : c = '\\'
      . subst hslash
        rfl
      . rw [escapeChar_raw hcontrol hquote hslash]
        unfold unescape
        split <;> simp_all

theorem escapeChar_append_inj {c d : Char} {s t : List Char}
    (h : escapeChar c ++ s = escapeChar d ++ t) : c = d ∧ s = t := by
  have := congrArg unescape h
  simpa only [unescape_escapeChar, Option.some.injEq, Prod.mk.injEq] using this

theorem escapeChar_append_ne_quote (c : Char) (s t : List Char) : escapeChar c ++ s ≠ '"' :: t := by
  intro h
  have := congrArg unescape h
  rw [unescape_escapeChar] at this
  cases this

theorem escape_append_inj {cs ds s t : List Char}
    (h : cs.flatMap escapeChar ++ '"' :: s = ds.flatMap escapeChar ++ '"' :: t)
    : cs = ds ∧ s = t := by
  induction cs generalizing ds with
  | nil =>
    cases ds with
    | nil => simpa using h
    | cons d ds =>
      rw [flatMap_cons, append_assoc] at h
      exact absurd h.symm (escapeChar_append_ne_quote d _ _)
  | cons c cs ih =>
    cases ds with
    | nil =>
      rw [flatMap_cons, append_assoc] at h
      exact absurd h (escapeChar_append_ne_quote c _ _)
    | cons d ds =>
      rw [flatMap_cons, flatMap_cons, append_assoc, append_assoc] at h
      obtain ⟨rfl, hrest⟩ := escapeChar_append_inj h
      obtain ⟨rfl, hst⟩ := ih hrest
      exact ⟨rfl, hst⟩

theorem quote_append_inj {a b : String} {s t : List Char} (h : quote a ++ s = quote b ++ t)
    : a = b ∧ s = t := by
  simp only [quote, cons_append, append_assoc, nil_append, cons.injEq,
    true_and] at h
  obtain ⟨hab, hst⟩ := escape_append_inj h
  exact ⟨String.toList_injective hab, hst⟩

def Delimited (s : List Char) : Prop :=
  ∀ c ∈ s.head?, c = ',' ∨ c = ']' ∨ c = '}'

theorem delimited_nil : Delimited [] := by
  simp [Delimited]

theorem delimited_renderTail (fmt : Rat → List Char) (vs : List Value) (s : List Char)
    : Delimited (renderTail fmt vs ++ s) := by
  cases vs <;> simp [renderTail, Delimited]

theorem delimited_renderFields (fmt : Rat → List Char) (fields : List (String × Value))
    (s : List Char) : Delimited (renderFields fmt fields ++ s) := by
  cases fields <;> simp [renderFields, Delimited]

def isIntChar (c : Char) : Bool :=
  c.isDigit || c == '-'

theorem isIntChar_of_mem_renderInt {n : Int} {c : Char} (h : c ∈ renderInt n)
    : isIntChar c = true := by
  unfold renderInt at h
  split at h
  . simp [isIntChar, Nat.isDigit_of_mem_toDigits (by omega) (by omega) h]
  . rw [mem_cons] at h
    rcases h with rfl | h
    . rfl
    . simp [isIntChar, Nat.isDigit_of_mem_toDigits (by omega) (by omega) h]

theorem renderInt_ne_nil {n : Int} : renderInt n ≠ [] := by
  unfold renderInt
  split
  . exact Nat.toDigits_ne_nil
  . exact cons_ne_nil _ _

theorem renderInt_injective : Function.Injective renderInt := by
  have hdigits : ∀ m n, Nat.toDigits 10 m = Nat.toDigits 10 n → m = n := by
    intro m n h
    rw [← @Nat.ofDigitChars_ten_toDigits m, h, Nat.ofDigitChars_ten_toDigits]
  -- The digits of a natural number do not start with a sign.
  have hsign : ∀ m n, Nat.toDigits 10 m ≠ '-' :: Nat.toDigits 10 n := by
    intro m n h
    have hmem : '-' ∈ Nat.toDigits 10 m := by simp [h]
    have := Nat.isDigit_of_mem_toDigits (by omega) (by omega) hmem
    cases this
  intro m n h
  cases m with
  | ofNat m =>
    cases n with
    | ofNat n => rw [hdigits m n h]
    | negSucc n => exact absurd h (hsign m (n + 1))
  | negSucc m =>
    cases n with
    | ofNat n => exact absurd h.symm (hsign n (m + 1))
    | negSucc n =>
      have := hdigits (m + 1) (n + 1) (cons.inj h).2
      rw [Nat.succ.inj this]

def isNumberChar (c : Char) : Bool :=
  isIntChar c || c == '.' || c == 'e'

/-- Floats are written as numbers that are told apart from integers and from each other. -/
structure WritesFloats (fmt : Rat → List Char) : Prop where
  injective : Function.Injective fmt
  chars : ∀ q, ∀ c ∈ fmt q, isNumberChar c = true
  -- There is a point or an exponent, but the number starts with a digit or a sign.
  marked : ∀ q, ∃ c ∈ fmt q, isIntChar c = false
  head : ∀ q, ∃ c, (fmt q).head? = some c ∧ isIntChar c = true

theorem isNumberChar_of_mem_renderInt {n : Int} {c : Char} (h : c ∈ renderInt n) : isNumberChar c = true := by
  simp [isNumberChar, isIntChar_of_mem_renderInt h]

theorem takeWhile_number {cs s : List Char} (hcs : ∀ c ∈ cs, isNumberChar c = true) (hs : Delimited s)
    : (cs ++ s).takeWhile isNumberChar = cs := by
  rw [takeWhile_append_of_pos hcs]
  cases s with
  | nil => simp
  | cons c s =>
    have hc : isNumberChar c = false := by
      rcases hs c rfl with rfl | rfl | rfl <;> rfl
    simp [hc]

theorem number_append_inj {cs ds s t : List Char} (hcs : ∀ c ∈ cs, isNumberChar c = true)
    (hds : ∀ c ∈ ds, isNumberChar c = true) (hs : Delimited s) (ht : Delimited t) (h : cs ++ s = ds ++ t)
    : cs = ds ∧ s = t := by
  have heq : cs = ds := by
    rw [← takeWhile_number hcs hs, h, takeWhile_number hds ht]
  rw [heq] at h
  exact ⟨heq, append_cancel_left h⟩

theorem renderInt_append_inj {m n : Int} {s t : List Char} (hs : Delimited s) (ht : Delimited t)
    (h : renderInt m ++ s = renderInt n ++ t) : m = n ∧ s = t := by
  obtain ⟨hmn, hst⟩ := number_append_inj (fun _ => isNumberChar_of_mem_renderInt)
    (fun _ => isNumberChar_of_mem_renderInt) hs ht h
  exact ⟨renderInt_injective hmn, hst⟩

theorem WritesFloats.ne_renderInt {fmt : Rat → List Char} (h : WritesFloats fmt) (q : Rat) (n : Int)
    : fmt q ≠ renderInt n := by
  intro heq
  obtain ⟨c, hc, hnot⟩ := h.marked q
  rw [heq] at hc
  rw [isIntChar_of_mem_renderInt hc] at hnot
  cases hnot

mutual

def integral : Value → Bool
  | .float _ => false
  | .array vs => integralList vs
  | .object fields => integralFields fields
  | _ => true

def integralList : List Value → Bool
  | [] => true
  | v :: vs => integral v && integralList vs

def integralFields : List (String × Value) → Bool
  | [] => true
  | (_, v) :: fields => integral v && integralFields fields

end

def kind : Value → Nat
  | .null => 0
  | .bool _ => 1
  | .int _ => 2
  | .float _ => 3
  | .string _ => 4
  | .array _ => 5
  | .object _ => 6

def kindOfChar (c : Char) : Nat :=
  if c = 'n' then 0
  else if c = 't' ∨ c = 'f' then 1
  else if isIntChar c then 2
  else if c = '"' then 4
  else if c = '[' then 5
  else if c = '{' then 6
  else 7

def Readable (fmt : Rat → List Char) (v : Value) : Prop :=
  WritesFloats fmt ∨ integral v = true

def ReadableList (fmt : Rat → List Char) (vs : List Value) : Prop :=
  WritesFloats fmt ∨ integralList vs = true

def ReadableFields (fmt : Rat → List Char) (fields : List (String × Value)) : Prop :=
  WritesFloats fmt ∨ integralFields fields = true

def shape : Value → Nat
  | .float _ => 2
  | v => kind v

section

variable {fmt : Rat → List Char} {v w : Value} {vs ws : List Value} {fields : List (String × Value)} {k : String}

theorem ReadableList.cons (h : ReadableList fmt (v :: vs)) : Readable fmt v ∧ ReadableList fmt vs := by
  simpa [ReadableList, Readable, integralList, ← or_and_left] using h

theorem ReadableFields.cons (h : ReadableFields fmt ((k, v) :: fields)) : Readable fmt v ∧ ReadableFields fmt fields := by
  simpa [ReadableFields, Readable, integralFields, ← or_and_left] using h

theorem Readable.float {q : Rat} (h : Readable fmt (.float q)) : WritesFloats fmt := by
  cases h with
  | inl h => exact h
  | inr h => cases h

theorem kindOfChar_intChar {c : Char} (hc : isIntChar c = true) : kindOfChar c = 2 := by
  have hne : c ≠ 'n' ∧ c ≠ 't' ∧ c ≠ 'f' := by
    refine ⟨?_, ?_, ?_⟩ <;> rintro rfl <;> cases hc
  simp [kindOfChar, hc, hne]

theorem kindOfChar_head (hv : Readable fmt v) (s : List Char)
    : ∃ c, (render fmt v ++ s).head? = some c ∧ kindOfChar c = shape v := by
  cases v with
  | null => exact ⟨'n', rfl, rfl⟩
  | bool b =>
    cases b
    . exact ⟨'f', rfl, rfl⟩
    . exact ⟨'t', rfl, rfl⟩
  | int n =>
    cases hn : renderInt n with
    | nil => exact absurd hn renderInt_ne_nil
    | cons c cs =>
      refine ⟨c, by simp [render, hn], ?_⟩
      exact kindOfChar_intChar (isIntChar_of_mem_renderInt (n := n) (by simp [hn]))
  | float q =>
    obtain ⟨c, hc, hint⟩ := hv.float.head q
    refine ⟨c, ?_, kindOfChar_intChar hint⟩
    simp [render, List.head?_append, hc]
  | string a => exact ⟨'"', rfl, rfl⟩
  | array vs =>
    cases vs
    . exact ⟨'[', rfl, rfl⟩
    . exact ⟨'[', rfl, rfl⟩
  | object fields =>
    cases fields
    . exact ⟨'{', rfl, rfl⟩
    . exact ⟨'{', rfl, rfl⟩

theorem shape_eq_of_append_eq {s t : List Char} (hv : Readable fmt v) (hw : Readable fmt w)
    (h : render fmt v ++ s = render fmt w ++ t) : shape v = shape w := by
  obtain ⟨c, hc, hcv⟩ := kindOfChar_head hv s
  obtain ⟨d, hd, hdw⟩ := kindOfChar_head hw t
  rw [h, hd, Option.some.injEq] at hc
  rw [← hcv, ← hdw, hc]

theorem render_append_ne_bracket (hv : Readable fmt v) (s t : List Char) : render fmt v ++ s ≠ ']' :: t := by
  intro h
  obtain ⟨c, hc, hkind⟩ := kindOfChar_head hv s
  rw [h, head?_cons, Option.some.injEq] at hc
  subst hc
  cases v <;> cases hkind

end

mutual

theorem readable_append_inj {fmt : Rat → List Char} {v w : Value} {s t : List Char} (hv : Readable fmt v)
    (hw : Readable fmt w) (hs : Delimited s) (ht : Delimited t) (h : render fmt v ++ s = render fmt w ++ t)
    : v = w ∧ s = t := by
  have hshape := shape_eq_of_append_eq hv hw h
  match v, w, hshape with
  | .null, .null, _ => exact ⟨rfl, append_cancel_left h⟩
  | .bool true, .bool true, _ => exact ⟨rfl, append_cancel_left h⟩
  | .bool false, .bool false, _ => exact ⟨rfl, append_cancel_left h⟩
  | .bool true, .bool false, _ => simp [render] at h
  | .bool false, .bool true, _ => simp [render] at h
  | .int m, .int n, _ =>
    obtain ⟨rfl, hst⟩ := renderInt_append_inj hs ht h
    exact ⟨rfl, hst⟩
  | .int n, .float q, _ =>
    have heq := (number_append_inj (fun _ => isNumberChar_of_mem_renderInt) (hw.float.chars q) hs ht h).1
    exact absurd heq.symm (hw.float.ne_renderInt q n)
  | .float q, .int n, _ =>
    have heq := (number_append_inj (hv.float.chars q) (fun _ => isNumberChar_of_mem_renderInt) hs ht h).1
    exact absurd heq (hv.float.ne_renderInt q n)
  | .float p, .float q, _ =>
    obtain ⟨heq, hst⟩ := number_append_inj (hv.float.chars p) (hv.float.chars q) hs ht h
    rw [hv.float.injective heq]
    exact ⟨rfl, hst⟩
  | .string a, .string b, _ =>
    obtain ⟨rfl, hst⟩ := quote_append_inj h
    exact ⟨rfl, hst⟩
  | .array [], .array [], _ => exact ⟨rfl, append_cancel_left h⟩
  | .array [], .array (w :: ws), _ =>
    simp only [render, cons_append, append_assoc, cons.injEq, true_and] at h
    have hws : ReadableList fmt (w :: ws) := hw
    exact absurd h.symm (render_append_ne_bracket hws.cons.1 _ _)
  | .array (v :: vs), .array [], _ =>
    simp only [render, cons_append, append_assoc, cons.injEq, true_and] at h
    have hvs : ReadableList fmt (v :: vs) := hv
    exact absurd h (render_append_ne_bracket hvs.cons.1 _ _)
  | .array (v :: vs), .array (w :: ws), _ =>
    have hvs : ReadableList fmt (v :: vs) := hv
    have hws : ReadableList fmt (w :: ws) := hw
    simp only [render, cons_append, append_assoc, cons.injEq, true_and] at h
    obtain ⟨rfl, htail⟩ := readable_append_inj hvs.cons.1 hws.cons.1 (delimited_renderTail fmt vs s)
      (delimited_renderTail fmt ws t) h
    obtain ⟨rfl, hst⟩ := renderTail_append_inj hvs.cons.2 hws.cons.2 hs ht htail
    exact ⟨rfl, hst⟩
  | .object [], .object [], _ => exact ⟨rfl, append_cancel_left h⟩
  | .object [], .object ((l, w) :: ws), _ => simp [render, quote] at h
  | .object ((k, v) :: vs), .object [], _ => simp [render, quote] at h
  | .object ((k, v) :: vs), .object ((l, w) :: ws), _ =>
    have hvs : ReadableFields fmt ((k, v) :: vs) := hv
    have hws : ReadableFields fmt ((l, w) :: ws) := hw
    simp only [render, cons_append, append_assoc, cons.injEq, true_and] at h
    obtain ⟨rfl, hfield⟩ := quote_append_inj h
    obtain ⟨rfl, htail⟩ := readable_append_inj hvs.cons.1 hws.cons.1 (delimited_renderFields fmt vs s)
      (delimited_renderFields fmt ws t) (cons.inj hfield).2
    obtain ⟨rfl, hst⟩ := renderFields_append_inj hvs.cons.2 hws.cons.2 hs ht htail
    exact ⟨rfl, hst⟩

theorem renderTail_append_inj {fmt : Rat → List Char} {vs ws : List Value} {s t : List Char}
    (hv : ReadableList fmt vs) (hw : ReadableList fmt ws) (hs : Delimited s) (ht : Delimited t)
    (h : renderTail fmt vs ++ s = renderTail fmt ws ++ t) : vs = ws ∧ s = t := by
  match vs, ws with
  | [], [] => exact ⟨rfl, append_cancel_left h⟩
  | [], w :: ws => simp [renderTail] at h
  | v :: vs, [] => simp [renderTail] at h
  | v :: vs, w :: ws =>
    simp only [renderTail, cons_append, append_assoc, cons.injEq, true_and] at h
    obtain ⟨rfl, htail⟩ := readable_append_inj hv.cons.1 hw.cons.1 (delimited_renderTail fmt vs s)
      (delimited_renderTail fmt ws t) h
    obtain ⟨rfl, hst⟩ := renderTail_append_inj hv.cons.2 hw.cons.2 hs ht htail
    exact ⟨rfl, hst⟩

theorem renderFields_append_inj {fmt : Rat → List Char} {vs ws : List (String × Value)} {s t : List Char}
    (hv : ReadableFields fmt vs) (hw : ReadableFields fmt ws) (hs : Delimited s) (ht : Delimited t)
    (h : renderFields fmt vs ++ s = renderFields fmt ws ++ t) : vs = ws ∧ s = t := by
  match vs, ws with
  | [], [] => exact ⟨rfl, append_cancel_left h⟩
  | [], w :: ws => simp [renderFields] at h
  | v :: vs, [] => simp [renderFields] at h
  | (k, v) :: vs, (l, w) :: ws =>
    simp only [renderFields, cons_append, append_assoc, cons.injEq, true_and] at h
    obtain ⟨rfl, hfield⟩ := quote_append_inj h
    obtain ⟨rfl, htail⟩ := readable_append_inj hv.cons.1 hw.cons.1 (delimited_renderFields fmt vs s)
      (delimited_renderFields fmt ws t) (cons.inj hfield).2
    obtain ⟨rfl, hst⟩ := renderFields_append_inj hv.cons.2 hw.cons.2 hs ht htail
    exact ⟨rfl, hst⟩

end

theorem render_append_inj (fmt : Rat → List Char) {v w : Value} {s t : List Char} (hv : integral v = true)
    (hw : integral w = true) (hs : Delimited s) (ht : Delimited t) (h : render fmt v ++ s = render fmt w ++ t)
    : v = w ∧ s = t :=
  readable_append_inj (.inr hv) (.inr hw) hs ht h

theorem WritesFloats.render_injective {fmt : Rat → List Char} (h : WritesFloats fmt) : Function.Injective (render fmt) := by
  intro v w heq
  have happend : render fmt v ++ [] = render fmt w ++ [] := by rw [heq]
  exact (readable_append_inj (.inl h) (.inl h) delimited_nil delimited_nil happend).1

def Printable (cs : List Char) : Prop :=
  ∀ c ∈ cs, 0x20 ≤ c.toNat

instance (cs : List Char) : Decidable (Printable cs) :=
  decidableBAll (fun c : Char => 0x20 ≤ c.toNat) cs

theorem Printable.append {cs ds : List Char} (hc : Printable cs) (hd : Printable ds)
    : Printable (cs ++ ds) := by
  intro c h
  rcases mem_append.mp h with h | h
  . exact hc c h
  . exact hd c h

theorem Printable.cons {c : Char} {cs : List Char} (hc : 0x20 ≤ c.toNat) (hcs : Printable cs)
    : Printable (c :: cs) := by
  intro d h
  rcases mem_cons.mp h with rfl | h
  . exact hc
  . exact hcs d h

theorem printable_escapeChar (c : Char) : Printable (escapeChar c) := by
  by_cases hcontrol : c.toNat < 0x20
  . have hall : ∀ n < 0x20, Printable (escapeChar (Char.ofNat n)) := by decide
    have := hall c.toNat hcontrol
    rwa [Char.ofNat_toNat] at this
  . unfold escapeChar
    simp only [if_neg hcontrol]
    repeat' split
    all_goals first
      | decide
      | exact Printable.cons (by omega) (by decide)

theorem printable_quote (s : String) : Printable (quote s) := by
  apply Printable.cons (by decide)
  apply Printable.append _ (by decide)
  intro d h
  obtain ⟨c, -, hd⟩ := mem_flatMap.mp h
  exact printable_escapeChar c d hd

theorem printable_renderInt (n : Int) : Printable (renderInt n) := by
  intro d h
  have hd := isIntChar_of_mem_renderInt h
  simp only [isIntChar, Char.isDigit, Bool.or_eq_true, Bool.and_eq_true, decide_eq_true_eq,
    beq_iff_eq] at hd
  rcases hd with ⟨hge, -⟩ | rfl
  . have : (48 : UInt32).toNat ≤ d.val.toNat := hge
    exact le_trans (by decide) this
  . decide

mutual

theorem printable_render (fmt : Rat → List Char) {v : Value} (hv : integral v = true)
    : Printable (render fmt v) := by
  match v with
  | .null | .bool true | .bool false | .array [] | .object [] =>
    simp only [render]
    decide
  | .int n => exact printable_renderInt n
  | .float _ => cases hv
  | .string s => exact printable_quote s
  | .array (v :: vs) =>
    simp only [integral, integralList, Bool.and_eq_true] at hv
    apply Printable.cons (by decide)
    exact (printable_render fmt hv.1).append (printable_renderTail fmt hv.2)
  | .object ((k, v) :: fields) =>
    simp only [integral, integralFields, Bool.and_eq_true] at hv
    apply Printable.cons (by decide)
    apply (printable_quote k).append
    apply Printable.cons (by decide)
    exact (printable_render fmt hv.1).append (printable_renderFields fmt hv.2)

theorem printable_renderTail (fmt : Rat → List Char) {vs : List Value}
    (hv : integralList vs = true) : Printable (renderTail fmt vs) := by
  match vs with
  | [] =>
    simp only [renderTail]
    decide
  | v :: vs =>
    simp only [integralList, Bool.and_eq_true] at hv
    apply Printable.cons (by decide)
    exact (printable_render fmt hv.1).append (printable_renderTail fmt hv.2)

theorem printable_renderFields (fmt : Rat → List Char) {fields : List (String × Value)}
    (hv : integralFields fields = true) : Printable (renderFields fmt fields) := by
  match fields with
  | [] =>
    simp only [renderFields]
    decide
  | (k, v) :: fields =>
    simp only [integralFields, Bool.and_eq_true] at hv
    apply Printable.cons (by decide)
    apply (printable_quote k).append
    apply Printable.cons (by decide)
    exact (printable_render fmt hv.1).append (printable_renderFields fmt hv.2)

end

end Wovyr.Json
