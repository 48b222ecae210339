import Mathlib.Data.List.Basic

/-!
This module contains paths of names, each written after a separator, and when it can be told from what
is written which path it was.
-/

namespace Spelling

variable (sep : String)

def spell : List String → String
  | [] => ""
  | name :: names => sep ++ name ++ spell names

variable {sep}

theorem spell_append (names names' : List String)
    : spell sep (names ++ names') = spell sep names ++ spell sep names' := by
  induction names with
  | nil => simp [spell]
  | cons name names ih => simp [spell, ih, String.append_assoc]

theorem spell_eq_empty (hsep : sep ≠ "") {names : List String} (h : spell sep names = "") : names = [] := by
  cases names with
  | nil => rfl
  | cons name names => simp [spell, hsep] at h

theorem append_eq_append {a b s t : String} (h : a ++ s = b ++ t)
    : ∃ rest, (b = a ++ rest ∧ s = rest ++ t) ∨ (a = b ++ rest ∧ t = rest ++ s) := by
  have hlist := congrArg String.toList h
  rw [String.toList_append, String.toList_append, List.append_eq_append_iff] at hlist
  rcases hlist with ⟨rest, hb, hs⟩ | ⟨rest, ha, ht⟩
  . refine ⟨String.ofList rest, .inl ⟨?_, ?_⟩⟩
    . rw [← String.toList_inj, hb]
      simp
    . rw [← String.toList_inj, hs]
      simp
  . refine ⟨String.ofList rest, .inr ⟨?_, ?_⟩⟩
    . rw [← String.toList_inj, ha]
      simp
    . rw [← String.toList_inj, ht]
      simp

def Legible (sep : String) (path : List String → Prop) : Prop :=
  ∀ before name rest after after', rest ≠ "" → path (before ++ name :: after) →
    path (before ++ (name ++ rest) :: after') → spell sep after ≠ rest ++ spell sep after'

theorem spell_inj_iff (hsep : sep ≠ "") {path : List String → Prop}
    : (∀ names names', path names → path names' → spell sep names = spell sep names' → names = names')
        ↔ Legible sep path := by
  constructor
  . intro hinj before name rest after after' hrest hpath hpath' heq
    have hsame := hinj _ _ hpath hpath' (by
      simp only [spell_append, spell, heq, String.append_assoc])
    rw [List.append_cancel_left_eq, List.cons.injEq] at hsame
    apply hrest
    have hname := hsame.1.symm
    rwa [String.append_eq_left_iff] at hname
  . intro hlegible names names'
    have hgo (before : List String) : path (before ++ names) → path (before ++ names') →
        spell sep names = spell sep names' → names = names' := by
      induction names generalizing before names' with
      | nil =>
        intro _ _ heq
        exact (spell_eq_empty hsep heq.symm).symm
      | cons name names ih =>
        intro hpath hpath' heq
        cases names' with
        | nil => exact spell_eq_empty hsep heq
        | cons name' names' =>
          rw [spell, spell, String.append_assoc, String.append_assoc, String.append_right_inj] at heq
          obtain ⟨rest, ⟨rfl, hafter⟩ | ⟨rfl, hafter⟩⟩ := append_eq_append heq
          . by_cases hrest : rest = ""
            . subst hrest
              rw [String.append_empty] at hpath' ⊢
              rw [String.empty_append] at hafter
              rw [ih names' (before ++ [name]) (by simpa using hpath) (by simpa using hpath') hafter]
            . exact absurd hafter (hlegible before name rest names names' hrest hpath hpath')
          . by_cases hrest : rest = ""
            . subst hrest
              rw [String.append_empty] at hpath ⊢
              rw [String.empty_append] at hafter
              rw [ih names' (before ++ [name']) (by simpa using hpath) (by simpa using hpath') hafter.symm]
            . exact absurd hafter (hlegible before name' rest names' names hrest hpath' hpath)
    exact hgo []

end Spelling

namespace Quoted

inductive Scan where
  | out
  | inside
  | escape
deriving DecidableEq

variable (bar : Char)

def scan : Scan → List Char → Option Scan
  | state, [] => some state
  | .out, c :: cs =>
    if c = '"' then scan .inside cs
    else if c = bar ∨ c = '\\' then none
    else scan .out cs
  | .inside, c :: cs =>
    if c = '"' then scan .out cs
    else if c = '\\' then scan .escape cs
    else scan .inside cs
  | .escape, _ :: cs => scan .inside cs

/-- All quotes are closed, and the separator is within quotes only. -/
def Sealed (cs : List Char) : Prop :=
  scan bar .out cs = some .out

variable {bar}

theorem scan_out (c : Char) (cs : List Char)
    : scan bar .out (c :: cs)
      = if c = '"' then scan bar .inside cs else if c = bar ∨ c = '\\' then none else scan bar .out cs := rfl

theorem scan_inside (c : Char) (cs : List Char)
    : scan bar .inside (c :: cs)
      = if c = '"' then scan bar .out cs else if c = '\\' then scan bar .escape cs else scan bar .inside cs := rfl

theorem scan_append (state : Scan) (cs ds : List Char)
    : scan bar state (cs ++ ds) = (scan bar state cs).bind fun state => scan bar state ds := by
  induction cs generalizing state with
  | nil => cases state <;> rfl
  | cons c cs ih =>
    cases state with
    | out =>
      rw [List.cons_append, scan_out, scan_out]
      split
      . exact ih _
      . split
        . rfl
        . exact ih _
    | inside =>
      rw [List.cons_append, scan_inside, scan_inside]
      split
      . exact ih _
      . split
        . exact ih _
        . exact ih _
    | escape => exact ih _

namespace Sealed

theorem nil : Sealed bar [] := rfl

theorem append {cs ds : List Char} (hc : Sealed bar cs) (hd : Sealed bar ds) : Sealed bar (cs ++ ds) := by
  unfold Sealed at hc hd ⊢
  rw [scan_append, hc, Option.bind_some, hd]

theorem cons {c : Char} {cs : List Char} (hquote : c ≠ '"') (hbar : c ≠ bar) (hslash : c ≠ '\\') (h : Sealed bar cs)
    : Sealed bar (c :: cs) := by
  unfold Sealed at h ⊢
  rw [scan_out, if_neg hquote, if_neg (by simp [hbar, hslash]), h]

theorem of_plain {cs : List Char} (h : ∀ c ∈ cs, c ≠ '"' ∧ c ≠ bar ∧ c ≠ '\\') : Sealed bar cs := by
  induction cs with
  | nil => exact nil
  | cons c cs ih =>
    obtain ⟨hquote, hbar, hslash⟩ := h c List.mem_cons_self
    exact cons hquote hbar hslash (ih fun d hd => h d (List.mem_cons_of_mem _ hd))

end Sealed

theorem scan_apart {cs : List Char} {a b : Scan}
    : (scan bar .out cs = some a → scan bar .inside cs = some b → a ≠ b)
        ∧ (scan bar .inside cs = some a → scan bar .out cs = some b → a ≠ b) := by
  induction cs with
  | nil =>
    constructor
    . rintro ⟨⟩ ⟨⟩
      nofun
    . rintro ⟨⟩ ⟨⟩
      nofun
  | cons c cs ih =>
    rw [scan_out, scan_inside]
    split
    . exact ⟨ih.2, ih.1⟩
    . split
      . exact ⟨nofun, nofun⟩
      next hplain =>
        rw [if_neg fun hslash => hplain (.inr hslash)]
        exact ih

/-- No sealed text ends in a separator and another sealed text. -/
theorem Sealed.ne_append {cs ds : List Char} (hc : Sealed bar cs) (hd : Sealed bar ds) (hbar : bar ≠ '"')
    (hslash : bar ≠ '\\') (before : List Char) : cs ≠ before ++ bar :: ds := by
  intro heq
  unfold Sealed at hc hd
  rw [heq, scan_append, Option.bind_eq_some_iff] at hc
  obtain ⟨state, -, hafter⟩ := hc
  cases state with
  | out =>
    rw [scan_out, if_neg hbar, if_pos (.inl rfl)] at hafter
    cases hafter
  | inside =>
    rw [scan_inside, if_neg hbar, if_neg hslash] at hafter
    exact scan_apart.1 hd hafter rfl
  | escape => exact scan_apart.1 hd hafter rfl

theorem append_bar_inj {as bs cs ds : List Char} (hbar : bar ≠ '"') (hslash : bar ≠ '\\') (hc : Sealed bar cs)
    (hd : Sealed bar ds) (h : as ++ bar :: cs = bs ++ bar :: ds) : as = bs ∧ cs = ds := by
  rcases List.append_eq_append_iff.mp h with ⟨rest, rfl, hrest⟩ | ⟨rest, rfl, hrest⟩
  . cases rest with
    | nil => simpa using hrest
    | cons c rest =>
      rw [List.cons_append, List.cons.injEq] at hrest
      exact absurd hrest.2 (hc.ne_append hd hbar hslash rest)
  . cases rest with
    | nil => simpa using hrest.symm
    | cons c rest =>
      rw [List.cons_append, List.cons.injEq] at hrest
      exact absurd hrest.2 (hd.ne_append hc hbar hslash rest)

theorem front_inj {p : List Char → Prop} {as bs cs ds : List Char}
    (hp : ∀ as rest, p as → ¬p (as ++ bar :: rest)) (ha : p as) (hb : p bs)
    (h : as ++ bar :: cs = bs ++ bar :: ds) : as = bs ∧ cs = ds := by
  rcases List.append_eq_append_iff.mp h with ⟨rest, rfl, hrest⟩ | ⟨rest, rfl, hrest⟩
  . cases rest with
    | nil => simpa using hrest
    | cons c rest =>
      rw [List.cons_append, List.cons.injEq] at hrest
      rw [← hrest.1] at hb
      exact absurd hb (hp as rest ha)
  . cases rest with
    | nil => simpa using hrest.symm
    | cons c rest =>
      rw [List.cons_append, List.cons.injEq] at hrest
      rw [← hrest.1] at ha
      exact absurd ha (hp bs rest hb)

theorem free_append_inj {as bs cs ds : List Char} (ha : bar ∉ as) (hb : bar ∉ bs)
    (h : as ++ bar :: cs = bs ++ bar :: ds) : as = bs ∧ cs = ds :=
  front_inj (p := (bar ∉ ·)) (fun _ _ _ hfree => hfree (List.mem_append_right _ List.mem_cons_self)) ha hb h

theorem Sealed.append_inj {as bs cs ds : List Char} (hbar : bar ≠ '"') (ha : Sealed bar as) (hb : Sealed bar bs)
    (h : as ++ bar :: cs = bs ++ bar :: ds) : as = bs ∧ cs = ds := by
  refine front_inj ?_ ha hb h
  intro as rest has hsealed
  unfold Sealed at has hsealed
  rw [scan_append, has, Option.bind_some, scan_out, if_neg hbar, if_pos (.inl rfl)] at hsealed
  cases hsealed

end Quoted
