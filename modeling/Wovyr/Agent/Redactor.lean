import Wovyr.Lib.Groups
import Wovyr.Lib.Text

/-!
This module contains the guardrail that redacts email addresses and long numbers, and proves what is left of them
in the texts that it lets through.
-/

namespace Wovyr.Agent.PiiRedactor

open List Text

def minDigitRun : Nat := 8

def splitKeepingWhitespace (s : List Char) : List (List Char) :=
  Groups.groups isWhitespace s

def looksLikeEmail (s : List Char) : Bool :=
  match s.dropWhile (· != '@') with
  | [] => false
  | _ :: domain =>
    !(s.takeWhile (· != '@')).isEmpty && !domain.isEmpty && !domain.contains '@' && domain.contains '.'
      && domain.head? != some '.' && domain.getLast? != some '.'

structure Runs where
  out : List Char := []
  run : List Char := []
  changed : Bool := false

namespace Runs

def flushRun (r : Runs) : Runs :=
  if r.run = [] then
    r
  else if minDigitRun ≤ r.run.countP Char.isDigit then
    let trailingSep := if r.run.getLast? = some '-' then ['-'] else []
    { out := r.out ++ "[redacted-number]".toList ++ trailingSep, changed := true }
  else
    { out := r.out ++ r.run, changed := r.changed }

def push (r : Runs) (c : Char) : Runs :=
  if c.isDigit || (c == '-' && !r.run.isEmpty) then
    { r with run := r.run ++ [c] }
  else
    { r.flushRun with out := r.flushRun.out ++ [c] }

end Runs

def redactDigitRuns (token : List Char) : List Char × Bool :=
  let r := (token.foldl Runs.push {}).flushRun
  (r.out, r.changed)

def isTrailing (c : Char) : Bool :=
  ['.', ',', ';', ':', '!', '?', ')'].contains c

def redactToken (token : List Char) : List Char × Bool :=
  if token.all isWhitespace then
    (token, false)
  else
    let trimmed := token.rdropWhile isTrailing
    if looksLikeEmail trimmed then
      ("[redacted-email]".toList ++ token.drop trimmed.length, true)
    else
      redactDigitRuns token

def redact (content : String) : Option String :=
  let tokens := (splitKeepingWhitespace content.toList).map redactToken
  if tokens.any fun token => token.2 then
    some (String.ofList (tokens.flatMap fun token => token.1))
  else
    none

def passed (content : String) : String :=
  (redact content).getD content

def isRunChar (c : Char) : Bool :=
  c.isDigit || c == '-'

def LongRun (cs : List Char) : Prop :=
  ∃ run, run <:+: cs ∧ (∀ c ∈ run, isRunChar c) ∧ minDigitRun ≤ run.countP Char.isDigit

def Recognised (token : List Char) : Prop :=
  looksLikeEmail (token.rdropWhile isTrailing)

section Level

variable {cs ds run : List Char} {n : Nat}

def level (start : Option Nat) (cs : List Char) : Option Nat :=
  cs.foldl (fun n c =>
    n.bind fun n =>
      if c.isDigit then
        if n + 1 < minDigitRun then some (n + 1) else none
      else if c = '-' then
        some n
      else
        some 0) start

theorem level_none (cs : List Char) : level none cs = none := by
  induction cs with
  | nil => rfl
  | cons c cs ih => exact ih

theorem level_append (start : Option Nat) (cs ds : List Char) : level start (cs ++ ds) = level (level start cs) ds :=
  foldl_append

theorem level_cons (n : Nat) (c : Char) (cs : List Char)
    : level (some n) (c :: cs)
        = level (if c.isDigit then if n + 1 < minDigitRun then some (n + 1) else none
            else if c = '-' then some n else some 0) cs :=
  rfl

theorem level_run (hrun : ∀ c ∈ run, isRunChar c) (hn : n < minDigitRun)
    : level (some n) run
        = if n + run.countP Char.isDigit < minDigitRun then some (n + run.countP Char.isDigit) else none := by
  induction run generalizing n with
  | nil =>
    rw [countP_nil, Nat.add_zero, if_pos hn]
    rfl
  | cons c cs ih =>
    have hcs : ∀ d ∈ cs, isRunChar d := fun d hd => hrun d (mem_cons_of_mem c hd)
    rw [level_cons]
    split
    next hdigit =>
      rw [countP_cons_of_pos hdigit]
      split
      next hlt =>
        rw [ih hcs hlt]
        grind
      next hge =>
        rw [level_none, if_neg]
        omega
    next hdigit =>
      have hhyphen : c = '-' := by
        have := hrun c mem_cons_self
        rw [isRunChar, Bool.or_eq_true, beq_iff_eq] at this
        exact this.resolve_left hdigit
      rw [if_pos hhyphen, countP_cons_of_neg hdigit, ih hcs hn]

theorem level_lt {start : Option Nat} {m : Nat} (h : level start cs = some m)
    (hstart : ∀ n, start = some n → n < minDigitRun) : m < minDigitRun := by
  induction cs generalizing start with
  | nil => exact hstart m h
  | cons c cs ih =>
    cases start with
    | none =>
      rw [level_none] at h
      cases h
    | some n =>
      rw [level_cons] at h
      apply ih h
      have := hstart n rfl
      grind

theorem not_longRun_of_level (h : level (some 0) cs ≠ none) : ¬LongRun cs := by
  rintro ⟨run, ⟨before, after, rfl⟩, hrun, hlong⟩
  apply h
  rw [level_append, level_append]
  cases hbefore : level (some 0) before with
  | none => rw [level_none, level_none]
  | some n =>
    have hlt : n < minDigitRun := by
      apply level_lt hbefore
      intro n hn
      cases hn
      decide
    rw [level_run hrun hlt, if_neg (by omega), level_none]

end Level

inductive Redacts : List Char → List Char → Prop where
  | nil : Redacts [] []
  | keep (c : Char) {cs out : List Char} (h : Redacts cs out) : Redacts (c :: cs) (c :: out)
  | number {run sep cs out : List Char} (hne : run ≠ []) (hrun : ∀ c ∈ run, isRunChar c) (hsep : sep = [] ∨ sep = ['-'])
    (h : Redacts cs out) : Redacts (run ++ cs) ("[redacted-number]".toList ++ sep ++ out)

namespace Redacts

variable {cs ds out out' run front back : List Char} {c : Char}

theorem refl (cs : List Char) : Redacts cs cs := by
  induction cs with
  | nil => exact nil
  | cons c cs ih => exact ih.keep c

theorem append (h : Redacts cs out) (h' : Redacts ds out') : Redacts (cs ++ ds) (out ++ out') := by
  induction h with
  | nil => exact h'
  | keep c _ ih => exact ih.keep c
  | number hne hrun hsep _ ih =>
    rw [append_assoc, append_assoc]
    exact number hne hrun hsep ih

theorem eq_nil_iff (h : Redacts cs out) : cs = [] ↔ out = [] := by
  cases h with
  | nil => exact Iff.rfl
  | keep c _ => exact ⟨nofun, nofun⟩
  | number hne _ _ _ =>
    constructor
    . intro h
      exact absurd (append_eq_nil_iff.mp h).1 hne
    . intro h
      cases h

def Apart (c : Char) : Prop :=
  ¬isRunChar c ∧ c ∉ "[redacted-number]".toList

theorem Apart.not_mem_number {sep : List Char} (hc : Apart c) (hsep : sep = [] ∨ sep = ['-'])
    : c ∉ "[redacted-number]".toList ++ sep := by
  intro hmem
  cases mem_append.mp hmem with
  | inl h => exact hc.2 h
  | inr h =>
    cases hsep with
    | inl hsep =>
      rw [hsep] at h
      cases h
    | inr hsep =>
      rw [hsep, mem_singleton] at h
      apply hc.1
      rw [h]
      rfl

theorem mem_iff (h : Redacts cs out) (hc : Apart c) : c ∈ cs ↔ c ∈ out := by
  induction h with
  | nil => exact Iff.rfl
  | keep d _ ih => rw [mem_cons, mem_cons, ih]
  | number _ hrun hsep _ ih =>
    have hnot : c ∉ _ := fun hmem => hc.1 (hrun c hmem)
    rw [mem_append, mem_append, ih, or_iff_right hnot, or_iff_right (hc.not_mem_number hsep)]

theorem split (h : Redacts (front ++ c :: back) out) (hc : ¬isRunChar c)
    : ∃ front' back', out = front' ++ c :: back' ∧ Redacts front front' ∧ Redacts back back' := by
  generalize hcs : front ++ c :: back = cs at h
  induction h generalizing front with
  | nil => exact absurd hcs (by simp)
  | keep d h ih =>
    cases front with
    | nil =>
      rw [nil_append, cons.injEq] at hcs
      obtain ⟨rfl, rfl⟩ := hcs
      exact ⟨[], _, rfl, nil, h⟩
    | cons e front =>
      rw [cons_append, cons.injEq] at hcs
      obtain ⟨rfl, hcs⟩ := hcs
      obtain ⟨front', back', rfl, hfront, hback⟩ := ih hcs
      exact ⟨e :: front', back', rfl, hfront.keep e, hback⟩
  | @number run sep _ _ hne hrun hsep h ih =>
    obtain ⟨front₂, rfl, hrest⟩ | ⟨run₂, hrun₂, hrest⟩ := append_eq_append_iff.mp hcs.symm
    . obtain ⟨front', back', rfl, hfront, hback⟩ := ih hrest.symm
      refine ⟨"[redacted-number]".toList ++ sep ++ front', back', ?_, number hne hrun hsep hfront, hback⟩
      rw [append_assoc (_ ++ _)]
    . cases run₂ with
      | nil =>
        rw [append_nil] at hrun₂
        obtain ⟨front', back', hout, hfront, hback⟩ := @ih [] hrest
        have hnumber := number hne hrun hsep hfront
        rw [append_nil, hrun₂] at hnumber
        refine ⟨"[redacted-number]".toList ++ sep ++ front', back', ?_, hnumber, hback⟩
        rw [hout, append_assoc (_ ++ _)]
      | cons d run₂ =>
        rw [cons_append, cons.injEq] at hrest
        have hmem : c ∈ front ++ d :: run₂ := by
          rw [hrest.1]
          simp
        rw [← hrun₂] at hmem
        exact absurd (hrun c hmem) hc

theorem head?_eq_iff (h : Redacts cs out) (hc : Apart c) : cs.head? = some c ↔ out.head? = some c := by
  cases h with
  | nil => exact Iff.rfl
  | keep d _ => exact Iff.rfl
  | number hne hrun _ _ =>
    constructor
    . intro hhead
      rw [head?_append_of_ne_nil _ hne] at hhead
      exact absurd (hrun c (mem_of_head? hhead)) hc.1
    . intro hhead
      cases hhead
      exact absurd (by decide) hc.2

theorem eq_self (h : Redacts cs out) (hcs : ∀ c ∈ cs, ¬isRunChar c) : out = cs := by
  induction h with
  | nil => rfl
  | keep d _ ih => rw [ih fun c hc => hcs c (mem_cons_of_mem d hc)]
  | @number run _ _ _ hne hrun _ _ _ =>
    obtain ⟨d, hd⟩ := exists_mem_of_ne_nil run hne
    exact absurd (hrun d hd) (hcs d (mem_append_left _ hd))

end Redacts

theorem LongRun.mono {cs ds : List Char} (h : LongRun cs) (hinside : cs <:+: ds) : LongRun ds := by
  obtain ⟨run, hin, hrun, hlong⟩ := h
  exact ⟨run, hin.trans hinside, hrun, hlong⟩

namespace Runs

variable {r : Runs} {cs : List Char}

/--
The state that the characters of a text lead to.
-/
structure Scans (r : Runs) (cs : List Char) : Prop where
  front : ∃ front, cs = front ++ r.run ∧ Redacts front r.out
  run : ∀ c ∈ r.run, isRunChar c
  kept : r.changed = false → r.out ++ r.run = cs
  long : r.changed = true → LongRun cs

@[simp]
theorem flushRun_run (r : Runs) : r.flushRun.run = [] := by
  rw [flushRun]
  split
  next h => exact h
  next h => split <;> rfl

theorem Scans.flushRun (h : r.Scans cs) : r.flushRun.Scans cs := by
  obtain ⟨front, hcs, hfront⟩ := h.front
  rw [Runs.flushRun]
  split
  next hnil => exact h
  next hne =>
    split
    next hlong =>
      refine ⟨⟨cs, (append_nil cs).symm, ?_⟩, nofun, nofun, ?_⟩
      . have hsep : (if r.run.getLast? = some '-' then ['-'] else []) = []
            ∨ (if r.run.getLast? = some '-' then ['-'] else []) = ['-'] := by
          split
          next => exact .inr rfl
          next => exact .inl rfl
        have hnumber := hfront.append (Redacts.number hne h.run hsep .nil)
        rw [append_nil, append_nil, ← hcs, ← append_assoc] at hnumber
        exact hnumber
      . intro _
        refine ⟨r.run, ?_, h.run, hlong⟩
        rw [hcs]
        exact infix_append_right
    next hshort =>
      refine ⟨⟨cs, (append_nil cs).symm, ?_⟩, nofun, ?_, h.long⟩
      . rw [hcs]
        exact hfront.append (Redacts.refl r.run)
      . intro hchanged
        rw [append_nil]
        exact h.kept hchanged

theorem Scans.push (h : r.Scans cs) (c : Char) : (r.push c).Scans (cs ++ [c]) := by
  rw [Runs.push]
  split
  next hc =>
    obtain ⟨front, hcs, hfront⟩ := h.front
    refine ⟨⟨front, ?_, hfront⟩, ?_, ?_, ?_⟩
    . rw [hcs, append_assoc]
    . intro d hd
      cases mem_append.mp hd with
      | inl hd => exact h.run d hd
      | inr hd =>
        rw [mem_singleton] at hd
        rw [hd, isRunChar]
        grind
    . intro hchanged
      rw [← h.kept hchanged, append_assoc]
    . intro hchanged
      exact (h.long hchanged).mono infix_append_left
  next hc =>
    have hflush := h.flushRun
    obtain ⟨front, hcs, hfront⟩ := hflush.front
    rw [flushRun_run, append_nil] at hcs
    refine ⟨⟨front ++ [c], ?_, hfront.append (Redacts.refl [c])⟩, ?_, ?_, ?_⟩
    . rw [flushRun_run, append_nil, hcs]
    . rw [flushRun_run]
      nofun
    . intro hchanged
      have hkept := hflush.kept hchanged
      rw [flushRun_run, append_nil] at hkept ⊢
      rw [hkept]
    . intro hchanged
      exact (hflush.long hchanged).mono infix_append_left

theorem level_flushRun (hlevel : level (some 0) r.out = some 0) (hrun : ∀ c ∈ r.run, isRunChar c)
    : level (some 0) r.flushRun.out ≠ none := by
  rw [Runs.flushRun]
  split
  next hnil =>
    rw [hlevel]
    nofun
  next hne =>
    split
    next hlong =>
      rw [level_append, level_append, hlevel]
      have hnumber : level (some 0) "[redacted-number]".toList = some 0 := by decide
      rw [hnumber]
      split
      next => nofun
      next => nofun
    next hshort =>
      rw [level_append, hlevel, level_run hrun (by decide), if_pos (by omega)]
      nofun

theorem level_push (hlevel : level (some 0) r.out = some 0) (hrun : ∀ c ∈ r.run, isRunChar c) (c : Char)
    : level (some 0) (r.push c).out = some 0 := by
  rw [Runs.push]
  split
  next hc => exact hlevel
  next hc =>
    have hdigit : ¬c.isDigit := by
      intro h
      rw [h] at hc
      exact hc rfl
    rw [level_append]
    by_cases hhyphen : c = '-'
    . have hnil : r.run = [] := by grind
      rw [Runs.flushRun, if_pos hnil, hlevel, level_cons, if_neg hdigit, if_pos hhyphen]
      rfl
    . cases hflush : level (some 0) r.flushRun.out with
      | none => exact absurd hflush (level_flushRun hlevel hrun)
      | some n =>
        rw [level_cons, if_neg hdigit, if_neg hhyphen]
        rfl

theorem foldl_push (cs : List Char)
    : (cs.foldl push {}).Scans cs ∧ level (some 0) (cs.foldl push {}).out = some 0 := by
  induction cs using reverseRecOn with
  | nil => exact ⟨⟨⟨[], rfl, .nil⟩, nofun, fun _ => rfl, nofun⟩, rfl⟩
  | append_singleton cs c ih =>
    rw [foldl_append]
    exact ⟨ih.1.push c, level_push ih.2 ih.1.run c⟩

end Runs

section Digits

variable {token : List Char}

theorem redacts_redactDigitRuns (token : List Char) : Redacts token (redactDigitRuns token).1 := by
  obtain ⟨front, hfront, h⟩ := (Runs.foldl_push token).1.flushRun.front
  rw [Runs.flushRun_run, append_nil] at hfront
  rw [hfront] at h ⊢
  exact h

theorem not_longRun_redactDigitRuns (token : List Char) : ¬LongRun (redactDigitRuns token).1 := by
  obtain ⟨hscans, hlevel⟩ := Runs.foldl_push token
  exact not_longRun_of_level (Runs.level_flushRun hlevel hscans.run)

theorem redactDigitRuns_eq (h : (redactDigitRuns token).2 = false) : (redactDigitRuns token).1 = token := by
  have hkept := (Runs.foldl_push token).1.flushRun.kept h
  rw [Runs.flushRun_run, append_nil] at hkept
  exact hkept

theorem longRun_of_redactDigitRuns (h : (redactDigitRuns token).2 = true) : LongRun token :=
  (Runs.foldl_push token).1.flushRun.long h

end Digits

theorem Redacts.getLast?_eq_iff {cs out : List Char} {c : Char} (h : Redacts cs out) (hc : Redacts.Apart c)
    : cs.getLast? = some c ↔ out.getLast? = some c := by
  induction h with
  | nil => exact Iff.rfl
  | keep d h ih =>
    rw [getLast?_cons, getLast?_cons]
    have hnil := h.eq_nil_iff
    rw [← getLast?_eq_none_iff, ← getLast?_eq_none_iff] at hnil
    grind
  | @number run sep cs out hne hrun hsep h ih =>
    have hnil := h.eq_nil_iff
    rw [← getLast?_eq_none_iff, ← getLast?_eq_none_iff] at hnil
    have hleft : run.getLast? ≠ some c := by
      intro hlast
      exact hc.1 (hrun c (mem_of_getLast? hlast))
    have hright : ("[redacted-number]".toList ++ sep).getLast? ≠ some c := by
      intro hlast
      exact hc.not_mem_number hsep (mem_of_getLast? hlast)
    rw [getLast?_append, getLast?_append]
    cases hcs : cs.getLast? with
    | none =>
      rw [hnil.mp hcs, Option.none_or, Option.none_or]
      exact iff_of_false hleft hright
    | some d =>
      rw [hcs] at ih
      cases hout : out.getLast? with
      | none =>
        rw [hnil.mpr hout] at hcs
        cases hcs
      | some e =>
        rw [hout] at ih
        exact ih

theorem apart_of_isTrailing {c : Char} (h : isTrailing c) : Redacts.Apart c := by
  have hall : ∀ d ∈ ['.', ',', ';', ':', '!', '?', ')'], ¬isRunChar d ∧ d ∉ "[redacted-number]".toList :=
    forall_iff_forall_mem.mp (by decide)
  rw [isTrailing, contains_iff_mem] at h
  exact hall c h

theorem apart_at : Redacts.Apart '@' :=
  ⟨by decide, by decide⟩

section Trimmed

variable {cs out trimmed tail user domain : List Char}

theorem exists_rdropWhile (cs : List Char)
    : ∃ tail, cs = cs.rdropWhile isTrailing ++ tail ∧ ∀ c ∈ tail, isTrailing c :=
  ⟨cs.rtakeWhile isTrailing, rdropWhile_append_rtakeWhile.symm, fun _ h => mem_rtakeWhile_imp h⟩

theorem rdropWhile_eq (htail : ∀ c ∈ tail, isTrailing c) (hlast : ∀ c, trimmed.getLast? = some c → ¬isTrailing c)
    : (trimmed ++ tail).rdropWhile isTrailing = trimmed := by
  induction tail using reverseRecOn with
  | nil =>
    rw [append_nil, rdropWhile_eq_self_iff]
    intro hne
    exact hlast _ (getLast?_eq_getLast_of_ne_nil hne)
  | append_singleton tail c ih =>
    rw [← append_assoc, rdropWhile_concat_pos _ _ _ (htail c (by simp))]
    exact ih fun d hd => htail d (mem_append_left _ hd)

theorem getLast?_rdropWhile {c : Char} (h : (cs.rdropWhile isTrailing).getLast? = some c) : ¬isTrailing c := by
  have hne : cs.rdropWhile isTrailing ≠ [] := by
    intro hnil
    rw [hnil] at h
    cases h
  rw [getLast?_eq_getLast_of_ne_nil hne, Option.some.injEq] at h
  rw [← h]
  exact rdropWhile_last_not isTrailing cs hne

theorem Redacts.rdropWhile (h : Redacts cs out) : Redacts (cs.rdropWhile isTrailing) (out.rdropWhile isTrailing) := by
  obtain ⟨tail, hcs, htail⟩ := exists_rdropWhile cs
  have hsplit : ∃ trimmed, out = trimmed ++ tail ∧ Redacts (cs.rdropWhile isTrailing) trimmed := by
    cases htl : tail with
    | nil =>
      rw [htl, append_nil] at hcs
      refine ⟨out, (append_nil out).symm, ?_⟩
      rw [← hcs]
      exact h
    | cons c tail' =>
      rw [hcs, htl] at h
      rw [htl] at htail
      obtain ⟨front', back', hout, hfront, hback⟩ := h.split (apart_of_isTrailing (htail c mem_cons_self)).1
      refine ⟨front', ?_, hfront⟩
      rw [hout, hback.eq_self fun d hd => (apart_of_isTrailing (htail d (mem_cons_of_mem c hd))).1]
  obtain ⟨trimmed, hout, htrimmed⟩ := hsplit
  rw [hout, rdropWhile_eq htail]
  . exact htrimmed
  . intro c hc htrailing
    exact getLast?_rdropWhile ((htrimmed.getLast?_eq_iff (apart_of_isTrailing htrailing)).mpr hc) htrailing

theorem not_looksLikeEmail (h : '@' ∉ cs) : looksLikeEmail cs = false := by
  have hdrop : cs.dropWhile (· != '@') = [] := by
    rw [dropWhile_eq_nil_iff]
    intro c hc
    rw [bne_iff_ne]
    intro heq
    rw [heq] at hc
    exact h hc
  rw [looksLikeEmail, hdrop]

theorem looksLikeEmail_append (h : '@' ∉ user)
    : looksLikeEmail (user ++ '@' :: domain) ↔ user ≠ [] ∧ '@' ∉ domain ∧ '.' ∈ domain ∧ domain.head? ≠ some '.'
        ∧ domain.getLast? ≠ some '.' := by
  have hall : ∀ c ∈ user, (c != '@') = true := by
    intro c hc
    rw [bne_iff_ne]
    intro heq
    rw [heq] at hc
    exact h hc
  have htake : (user ++ '@' :: domain).takeWhile (· != '@') = user := by
    rw [takeWhile_append_of_pos hall, takeWhile_cons_of_neg (by simp), append_nil]
  have hdrop : (user ++ '@' :: domain).dropWhile (· != '@') = '@' :: domain := by
    rw [dropWhile_append_of_pos hall, dropWhile_cons_of_neg (by simp)]
  rw [looksLikeEmail, htake, hdrop]
  have hdomain : '.' ∈ domain → domain ≠ [] := by
    intro hmem hnil
    rw [hnil] at hmem
    cases hmem
  simp only [Bool.and_eq_true, Bool.not_eq_true', bne_iff_ne, contains_iff_mem, ← Bool.not_eq_true]
  grind

theorem Redacts.recognised_iff (h : Redacts cs out) : Recognised cs ↔ Recognised out := by
  unfold Recognised
  have htrimmed := h.rdropWhile
  generalize cs.rdropWhile isTrailing = cs at htrimmed
  generalize out.rdropWhile isTrailing = out at htrimmed
  by_cases hat : '@' ∈ cs
  . obtain ⟨user, domain, rfl, hnot⟩ := eq_append_cons_of_mem hat
    obtain ⟨user', domain', rfl, huser, hdomain⟩ := htrimmed.split (apart_at).1
    have hdot : Redacts.Apart '.' := apart_of_isTrailing rfl
    have hnot' : '@' ∉ user' := by
      rw [← huser.mem_iff apart_at]
      exact hnot
    rw [looksLikeEmail_append hnot, looksLikeEmail_append hnot', ne_eq, ne_eq, ne_eq, huser.eq_nil_iff,
      hdomain.mem_iff apart_at, hdomain.mem_iff hdot, hdomain.head?_eq_iff hdot, hdomain.getLast?_eq_iff hdot]
  . have hat' : '@' ∉ out := by
      rw [← htrimmed.mem_iff apart_at]
      exact hat
    rw [not_looksLikeEmail hat, not_looksLikeEmail hat']

end Trimmed

section Tokens

variable {token : List Char}

theorem not_recognised (h : '@' ∉ token) : ¬Recognised token := by
  have hat : '@' ∉ token.rdropWhile isTrailing := by
    intro hmem
    exact h ((List.rdropWhile_prefix isTrailing token).subset hmem)
  rw [Recognised, not_looksLikeEmail hat]
  nofun

theorem not_longRun (h : ∀ c ∈ token, ¬c.isDigit) : ¬LongRun token := by
  rintro ⟨run, hinside, -, hlong⟩
  have hnone : run.countP Char.isDigit = 0 := by
    rw [countP_eq_zero]
    intro c hc
    exact h c (hinside.subset hc)
  rw [hnone] at hlong
  exact absurd hlong (by decide)

theorem not_isWhitespace_of_isRunChar {c : Char} (h : isRunChar c) : ¬isWhitespace c := by
  rw [isRunChar, Bool.or_eq_true, beq_iff_eq] at h
  intro hblank
  cases h with
  | inr h =>
    rw [h] at hblank
    revert hblank
    decide
  | inl h =>
    rw [Char.isDigit, Bool.and_eq_true, decide_eq_true_eq, decide_eq_true_eq, ge_iff_le, UInt32.le_iff_toNat_le,
      UInt32.le_iff_toNat_le] at h
    have hlow : 48 ≤ c.toNat ∧ c.toNat ≤ 57 := h
    simp only [isWhitespace, Bool.or_eq_true, Bool.and_eq_true, decide_eq_true_eq, beq_iff_eq] at hblank
    omega

theorem redactToken_blank (h : token.all isWhitespace) : redactToken token = (token, false) := by
  rw [redactToken, if_pos h]

theorem redactToken_recognised (hblank : ¬token.all isWhitespace) (h : Recognised token)
    : ∃ tail, redactToken token = ("[redacted-email]".toList ++ tail, true) ∧ tail ⊆ token
        ∧ ∀ c ∈ tail, isTrailing c := by
  obtain ⟨tail, htoken, htail⟩ := exists_rdropWhile token
  have hdrop : token.drop (token.rdropWhile isTrailing).length = tail :=
    append_cancel_left ((prefix_iff_eq_append.mp (List.rdropWhile_prefix isTrailing token)).trans htoken)
  refine ⟨tail, ?_, ?_, htail⟩
  . rw [redactToken, if_neg hblank]
    dsimp only
    rw [hdrop]
    exact if_pos h
  . intro c hc
    rw [htoken]
    exact mem_append_right _ hc

theorem redactToken_digits (hblank : ¬token.all isWhitespace) (h : ¬Recognised token)
    : redactToken token = redactDigitRuns token := by
  rw [redactToken, if_neg hblank]
  exact if_neg h

theorem redactToken_eq (h : (redactToken token).2 = false) : (redactToken token).1 = token := by
  by_cases hblank : token.all isWhitespace
  . rw [redactToken_blank hblank]
  . by_cases hemail : Recognised token
    . obtain ⟨tail, htoken, -⟩ := redactToken_recognised hblank hemail
      rw [htoken] at h
      cases h
    . rw [redactToken_digits hblank hemail] at h ⊢
      exact redactDigitRuns_eq h

theorem redactToken_plain (hemail : ¬Recognised token) (hlong : ¬LongRun token) : (redactToken token).2 = false := by
  by_cases hblank : token.all isWhitespace
  . rw [redactToken_blank hblank]
  . rw [redactToken_digits hblank hemail]
    cases hchanged : (redactDigitRuns token).2 with
    | false => rfl
    | true => exact absurd (longRun_of_redactDigitRuns hchanged) hlong

theorem plain_of_blank (hblank : token.all isWhitespace) : ¬Recognised token ∧ ¬LongRun token := by
  rw [all_eq_true] at hblank
  constructor
  . apply not_recognised
    intro hat
    exact absurd (hblank _ hat) (by decide)
  . apply not_longRun
    intro c hc hdigit
    have hrun : isRunChar c := by
      rw [isRunChar, hdigit, Bool.true_or]
    exact not_isWhitespace_of_isRunChar hrun (hblank c hc)

theorem plain_redactToken (token : List Char) : ¬Recognised (redactToken token).1 ∧ ¬LongRun (redactToken token).1 := by
  by_cases hblank : token.all isWhitespace
  . rw [redactToken_blank hblank]
    exact plain_of_blank hblank
  . by_cases hemail : Recognised token
    . obtain ⟨tail, htoken, -, htail⟩ := redactToken_recognised hblank hemail
      rw [htoken]
      constructor
      . apply not_recognised
        intro hat
        cases mem_append.mp hat with
        | inl h => exact absurd h (by decide)
        | inr h => exact absurd (htail _ h) (by decide)
      . apply not_longRun
        intro c hc hdigit
        cases mem_append.mp hc with
        | inl h =>
          have hall : ∀ c ∈ "[redacted-email]".toList, ¬c.isDigit := forall_iff_forall_mem.mp (by decide)
          exact hall c h hdigit
        | inr h =>
          have hrun := (apart_of_isTrailing (htail c h)).1
          rw [isRunChar, hdigit] at hrun
          exact hrun rfl
    . rw [redactToken_digits hblank hemail]
      refine ⟨?_, not_longRun_redactDigitRuns token⟩
      rw [← (redacts_redactDigitRuns token).recognised_iff]
      exact hemail

theorem Redacts.mem_or {cs out : List Char} {c : Char} (h : Redacts cs out) (hc : c ∈ out)
    : c ∈ cs ∨ c ∈ "[redacted-number]-".toList := by
  induction h with
  | nil => cases hc
  | keep d _ ih =>
    cases mem_cons.mp hc with
    | inl hc =>
      rw [hc]
      exact .inl mem_cons_self
    | inr hc => exact (ih hc).imp_left (mem_cons_of_mem d)
  | @number run sep cs out _ _ hsep _ ih =>
    cases mem_append.mp hc with
    | inr hc => exact (ih hc).imp_left (mem_append_right run)
    | inl hc =>
      right
      cases mem_append.mp hc with
      | inl hc => exact mem_append_left ['-'] hc
      | inr hc =>
        cases hsep with
        | inl hsep =>
          rw [hsep] at hc
          cases hc
        | inr hsep =>
          rw [hsep] at hc
          exact mem_append_right "[redacted-number]".toList hc

theorem mem_redactToken {c : Char} (h : c ∈ (redactToken token).1)
    : c ∈ token ∨ ¬token.all isWhitespace ∧ ¬isWhitespace c := by
  by_cases hblank : token.all isWhitespace
  . rw [redactToken_blank hblank] at h
    exact .inl h
  . by_cases hemail : Recognised token
    . obtain ⟨tail, htoken, hsubset, -⟩ := redactToken_recognised hblank hemail
      rw [htoken] at h
      cases mem_append.mp h with
      | inl h =>
        have hall : ∀ c ∈ "[redacted-email]".toList, ¬isWhitespace c := forall_iff_forall_mem.mp (by decide)
        exact .inr ⟨hblank, hall c h⟩
      | inr h => exact .inl (hsubset h)
    . rw [redactToken_digits hblank hemail] at h
      cases (redacts_redactDigitRuns token).mem_or h with
      | inl h => exact .inl h
      | inr h =>
        have hall : ∀ c ∈ "[redacted-number]-".toList, ¬isWhitespace c :=
          forall_iff_forall_mem.mp (by decide)
        exact .inr ⟨hblank, hall c h⟩

theorem redactToken_ne_nil (h : token ≠ []) : (redactToken token).1 ≠ [] := by
  by_cases hblank : token.all isWhitespace
  . rw [redactToken_blank hblank]
    exact h
  . by_cases hemail : Recognised token
    . obtain ⟨tail, htoken, -⟩ := redactToken_recognised hblank hemail
      rw [htoken]
      nofun
    . rw [redactToken_digits hblank hemail]
      intro hnil
      exact h ((redacts_redactDigitRuns token).eq_nil_iff.mpr hnil)

end Tokens

section Passed

variable {content : String}

theorem toList_passed (content : String)
    : (passed content).toList
        = ((splitKeepingWhitespace content.toList).map fun token => (redactToken token).1).flatten := by
  rw [passed, redact]
  split
  next => rw [Option.getD_some, String.toList_ofList, flatMap_map, flatMap_def]
  next hnone =>
    have hsame : (splitKeepingWhitespace content.toList).map (fun token => (redactToken token).1)
        = splitKeepingWhitespace content.toList := by
      conv_rhs => rw [← map_id (splitKeepingWhitespace content.toList)]
      apply map_congr_left
      intro token htoken
      apply redactToken_eq
      rw [Bool.not_eq_true, any_eq_false] at hnone
      simpa using hnone _ (mem_map_of_mem htoken)
    rw [hsame, Option.getD_none]
    exact (Groups.flatten_groups content.toList).symm

theorem split_passed (content : String)
    : splitKeepingWhitespace (passed content).toList
        = (splitKeepingWhitespace content.toList).map fun token => (redactToken token).1 := by
  have hgroups := Groups.grouped_groups (p := isWhitespace) content.toList
  rw [toList_passed]
  apply Groups.Grouped.groups_flatten
  apply hgroups.map
  . intro token htoken
    exact redactToken_ne_nil (hgroups.ne_nil token htoken)
  . intro token _ c hc
    cases mem_redactToken hc with
    | inl h => exact ⟨c, h, rfl⟩
    | inr h =>
      obtain ⟨hblank, hc⟩ := h
      rw [all_eq_true] at hblank
      push Not at hblank
      obtain ⟨a, ha, hnot⟩ := hblank
      exact ⟨a, ha, by rw [Bool.eq_false_iff.mpr hc, Bool.eq_false_iff.mpr hnot]⟩

end Passed

section Redacted

variable {u : Unicode} {content out : String} {user domain before after token : List Char}

def isWordChar (u : Unicode) (c : Char) : Bool :=
  (u.isAlphanumeric c && !isWhitespace c) || ['.', '-', '_', '+', '%'].contains c

/--
An email address: two words with an `@` between them, the second with a dot inside.
-/
structure IsEmail (u : Unicode) (user domain : List Char) : Prop where
  user_ne_nil : user ≠ []
  user_word : ∀ c ∈ user, isWordChar u c
  domain_word : ∀ c ∈ domain, isWordChar u c
  inner_dot : ∃ front back, domain = front ++ '.' :: back ∧ front ≠ [] ∧ back ≠ []

-- Why an address in a token is not recognised.
def Missed (domain before after : List Char) : Prop :=
  '@' ∈ before ++ after ∨ domain.head? = some '.' ∨ '.' ∉ (domain ++ after).rdropWhile isTrailing

/--
What is let through for a text: no long number, no email address but those that are missed, and all of the text that
is neither.
-/
structure Redacted (u : Unicode) (content out : String) : Prop where
  no_number : ¬LongRun out.toList
  in_token : ∀ user domain, IsEmail u user domain → user ++ '@' :: domain <:+: out.toList
    → ∃ token ∈ splitKeepingWhitespace out.toList, user ++ '@' :: domain <:+: token
  no_email : ∀ user domain, IsEmail u user domain → ∀ before after,
    before ++ (user ++ '@' :: domain) ++ after ∈ splitKeepingWhitespace out.toList → Missed domain before after
  again : redact out = none
  kept : Forall₂
    (fun token token' => token.all isWhitespace ∨ (¬Recognised token ∧ ¬LongRun token) → token' = token)
    (splitKeepingWhitespace content.toList) (splitKeepingWhitespace out.toList)

theorem at_not_word (u : Unicode) : ¬isWordChar u '@' := by
  rw [isWordChar, u.isAlphanumeric_ascii '@' (by decide)]
  decide

theorem word_not_blank {c : Char} (h : isWordChar u c) : isWhitespace c = false := by
  rw [isWordChar, Bool.or_eq_true, Bool.and_eq_true, Bool.not_eq_true', contains_iff_mem] at h
  cases h with
  | inl h => exact h.2
  | inr h =>
    have hall : ∀ c ∈ ['.', '-', '_', '+', '%'], isWhitespace c = false :=
      forall_iff_forall_mem.mp (by decide)
    exact hall c h

theorem IsEmail.not_blank (h : IsEmail u user domain) {c : Char} (hc : c ∈ user ++ '@' :: domain)
    : isWhitespace c = false := by
  cases mem_append.mp hc with
  | inl hc => exact word_not_blank (h.user_word c hc)
  | inr hc =>
    cases mem_cons.mp hc with
    | inl hc =>
      rw [hc]
      rfl
    | inr hc => exact word_not_blank (h.domain_word c hc)

theorem IsEmail.recognised (h : IsEmail u user domain) (hmissed : ¬Missed domain before after)
    : Recognised (before ++ (user ++ '@' :: domain) ++ after) := by
  unfold Missed at hmissed
  push Not at hmissed
  obtain ⟨hat, hhead, hdot⟩ := hmissed
  rw [mem_append, not_or] at hat
  have huser : '@' ∉ before ++ user := by
    intro hmem
    cases mem_append.mp hmem with
    | inl hmem => exact hat.1 hmem
    | inr hmem => exact at_not_word u (h.user_word _ hmem)
  have hdomain : '@' ∉ domain ++ after := by
    intro hmem
    cases mem_append.mp hmem with
    | inl hmem => exact at_not_word u (h.domain_word _ hmem)
    | inr hmem => exact hat.2 hmem
  obtain ⟨tail, hsplit, htail⟩ := exists_rdropWhile (domain ++ after)
  have hlast : ∀ c, ((domain ++ after).rdropWhile isTrailing).getLast? = some c → ¬isTrailing c :=
    fun c hc => getLast?_rdropWhile hc
  generalize (domain ++ after).rdropWhile isTrailing = kept at hdot hsplit hlast
  have hkept : kept ≠ [] := ne_nil_of_mem hdot
  have htoken : before ++ (user ++ '@' :: domain) ++ after = (before ++ user ++ '@' :: kept) ++ tail := by
    simp only [append_assoc, cons_append]
    rw [hsplit]
  have htrimmed : (before ++ (user ++ '@' :: domain) ++ after).rdropWhile isTrailing = before ++ user ++ '@' :: kept := by
    rw [htoken]
    apply rdropWhile_eq htail
    intro c hc
    apply hlast
    rw [getLast?_append_of_ne_nil _ (cons_ne_nil _ _), getLast?_cons_of_ne_nil hkept] at hc
    exact hc
  rw [Recognised, htrimmed, looksLikeEmail_append huser]
  refine ⟨?_, ?_, hdot, ?_, ?_⟩
  . intro hnil
    exact h.user_ne_nil (append_eq_nil_iff.mp hnil).2
  . intro hmem
    apply hdomain
    rw [hsplit]
    exact mem_append_left tail hmem
  . intro hkhead
    apply hhead
    obtain ⟨front, back, hfront, hne, -⟩ := h.inner_dot
    have hdne : domain ≠ [] := by
      rw [hfront]
      simp
    have hdomain : (domain ++ after).head? = domain.head? := head?_append_of_ne_nil domain hdne
    rw [← hdomain, hsplit, head?_append_of_ne_nil _ hkept, hkhead]
  . intro hklast
    exact hlast '.' hklast (by decide)

theorem redacted_passed (u : Unicode) (content : String) : Redacted u content (passed content) := by
  have hgroups := Groups.grouped_groups (p := isWhitespace) (passed content).toList
  have hflatten := Groups.flatten_groups (p := isWhitespace) (passed content).toList
  have hplain : ∀ token ∈ splitKeepingWhitespace (passed content).toList, ¬Recognised token ∧ ¬LongRun token := by
    intro token htoken
    rw [split_passed] at htoken
    obtain ⟨token, -, rfl⟩ := mem_map.mp htoken
    exact plain_redactToken token
  have hin : ∀ w : List Char, w ≠ [] → (∀ c ∈ w, isWhitespace c = false) → w <:+: (passed content).toList
      → ∃ token ∈ splitKeepingWhitespace (passed content).toList, w <:+: token := by
    intro w hne hw hinside
    rw [← hflatten] at hinside
    apply hgroups.infix_within hne _ hinside
    intro a ha b hb
    rw [hw a ha, hw b hb]
  refine ⟨?_, ?_, ?_, ?_, ?_⟩
  . rintro ⟨run, hinside, hrun, hlong⟩
    have hne : run ≠ [] := by
      intro hnil
      rw [hnil] at hlong
      exact absurd hlong (by decide)
    obtain ⟨token, htoken, hinside⟩ := hin run hne
      (fun c hc => Bool.eq_false_iff.mpr (not_isWhitespace_of_isRunChar (hrun c hc))) hinside
    exact (hplain token htoken).2 ⟨run, hinside, hrun, hlong⟩
  . intro user domain hemail hinside
    apply hin _ _ _ hinside
    . simp
    . intro c hc
      exact hemail.not_blank hc
  . intro user domain hemail before after htoken
    by_contra hmissed
    exact (hplain _ htoken).1 (hemail.recognised hmissed)
  . rw [redact, if_neg]
    rw [Bool.not_eq_true, any_eq_false]
    intro result hresult
    obtain ⟨token, htoken, rfl⟩ := mem_map.mp hresult
    rw [redactToken_plain (hplain token htoken).1 (hplain token htoken).2]
    nofun
  . rw [split_passed, forall₂_map_right_iff, forall₂_same]
    intro token _ h
    apply redactToken_eq
    cases h with
    | inl hblank => rw [redactToken_blank hblank]
    | inr hplain => exact redactToken_plain hplain.1 hplain.2

end Redacted

section Missed

theorem split_token {cs : List Char} (hne : cs ≠ []) (h : ∀ c ∈ cs, isWhitespace c = false)
    : splitKeepingWhitespace cs = [cs] := by
  have hgrouped : Groups.Grouped isWhitespace [cs] := by
    refine ⟨?_, ?_, .singleton cs⟩
    . intro g hg
      rw [mem_singleton] at hg
      rw [hg]
      exact hne
    . intro g hg a ha b hb
      rw [mem_singleton] at hg
      rw [hg] at ha hb
      rw [h a ha, h b hb]
  have hgroups := hgrouped.groups_flatten
  rw [flatten_singleton] at hgroups
  exact hgroups

theorem toList_passed_token {content : String} (hne : content.toList ≠ [])
    (h : ∀ c ∈ content.toList, isWhitespace c = false) : (passed content).toList = (redactToken content.toList).1 := by
  rw [toList_passed, split_token hne h, map_singleton, flatten_singleton]

-- Two addresses that a comma joins, an address whose domain begins with a dot, and one whose domain has nothing behind
-- its dots are let through, and what is no address is redacted.
theorem addresses_passed
    : (∀ p ∈ [("a@b.co,c@d.co", "a", "b.co"), ("a@.b.co", "a", ".b.co"), ("a@b..", "a", "b..")],
        passed p.1 = p.1 ∧ IsEmail Unicode.asciiOnly p.2.1.toList p.2.2.toList
          ∧ p.2.1.toList ++ '@' :: p.2.2.toList <:+: p.1.toList)
      ∧ passed "$@b.c" = "[redacted-email]"
      ∧ ∀ user domain, user ++ '@' :: domain <:+: "$@b.c".toList → ¬IsEmail Unicode.asciiOnly user domain := by
  refine ⟨?_, ?_, ?_⟩
  . intro p hp
    refine ⟨?_, ⟨?_, ?_, ?_, ?_⟩, ?_⟩
    . apply String.toList_injective
      rw [toList_passed_token]
      . revert p
        decide
      . revert p
        decide
      . rw [← forall_iff_forall_mem]
        revert p
        decide
    . revert p
      decide
    . rw [← forall_iff_forall_mem]
      revert p
      decide
    . rw [← forall_iff_forall_mem]
      revert p
      decide
    . simp only [mem_cons, not_mem_nil, or_false] at hp
      rcases hp with rfl | rfl | rfl
      . exact ⟨['b'], ['c', 'o'], rfl, nofun, nofun⟩
      . exact ⟨['.', 'b'], ['c', 'o'], rfl, nofun, nofun⟩
      . exact ⟨['b'], ['.'], rfl, nofun, nofun⟩
    . revert p
      decide
  . apply String.toList_injective
    rw [toList_passed_token (by decide) (forall_iff_forall_mem.mp (by decide))]
    decide
  . rintro user domain ⟨before, after, happend⟩ hemail
    obtain ⟨c, hc⟩ := exists_mem_of_ne_nil user hemail.user_ne_nil
    have hnot : ¬isWordChar Unicode.asciiOnly '$' := by decide
    have hfront : (before ++ user) ++ '@' :: (domain ++ after) = ['$', '@', 'b', '.', 'c'] := by
      rw [← cons_append, append_assoc, ← append_assoc user, ← append_assoc]
      exact happend
    have hmem : c ∈ before ++ user := mem_append_right before hc
    generalize before ++ user = front at hfront hmem
    match front with
    | [] => cases hmem
    | [x] =>
      rw [mem_singleton] at hmem
      rw [hmem, (cons.inj hfront).1] at hc
      exact hnot (hemail.user_word _ hc)
    | x :: y :: front =>
      rw [cons_append, cons_append, cons.injEq, cons.injEq] at hfront
      have hat : '@' ∈ ['b', '.', 'c'] := by
        rw [← hfront.2.2]
        simp
      revert hat
      decide

end Wovyr.Agent.PiiRedactor.Missed
