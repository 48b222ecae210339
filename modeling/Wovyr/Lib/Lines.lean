import Mathlib.Algebra.Order.BigOperators.Group.List
import Mathlib.Algebra.Order.Group.Nat
import Wovyr.Lib.Spelling
import Wovyr.Lib.Text

/-!
This module contains texts as sequences of lines, each of which ends with a line feed that can follow
a carriage return: the behaviour of `str::lines`.
-/

namespace Lines

open List

def stripReturn (line : List Char) : List Char :=
  if line.getLast? = some '\r' then line.dropLast else line

def linesOf (line : List Char) : List Char → List (List Char)
  | [] => if line = [] then [] else [line]
  | c :: text => if c = '\n' then stripReturn line :: linesOf [] text else linesOf (line ++ [c]) text

def lines (text : String) : List String :=
  (linesOf [] text.toList).map String.ofList

def unlines : List String → String
  | [] => ""
  | line :: rest => line ++ "\n" ++ unlines rest

structure IsLine (line : String) : Prop where
  feed : '\n' ∉ line.toList
  noReturn : line.toList.getLast? ≠ some '\r'

theorem linesOf_append (line : List Char) {chars : List Char} (h : '\n' ∉ chars) (rest : List Char)
    : linesOf line (chars ++ '\n' :: rest) = stripReturn (line ++ chars) :: linesOf [] rest := by
  induction chars generalizing line with
  | nil => simp [linesOf]
  | cons c chars ih =>
    rw [mem_cons, not_or] at h
    rw [cons_append, linesOf, if_neg (Ne.symm h.1), ih _ h.2, append_assoc]
    rfl

theorem lines_append {line : String} (h : IsLine line) (rest : String)
    : lines (line ++ "\n" ++ rest) = line :: lines rest := by
  have htext : (line ++ "\n" ++ rest).toList = line.toList ++ '\n' :: rest.toList := by simp
  unfold lines
  rw [htext, linesOf_append [] h.feed, nil_append, stripReturn, if_neg h.noReturn, map_cons,
    String.ofList_toList]

theorem lines_unlines {ls : List String} (h : ∀ l ∈ ls, IsLine l) : lines (unlines ls) = ls := by
  induction ls with
  | nil => rfl
  | cons l ls ih =>
    rw [unlines, lines_append (h l mem_cons_self), ih fun l' hl' => h l' (mem_cons_of_mem _ hl')]

theorem unlines_append (ls : List String) (l : String) : unlines (ls ++ [l]) = unlines ls ++ l ++ "\n" := by
  induction ls with
  | nil => simp [unlines]
  | cons l' ls ih => simp [unlines, ih, String.append_assoc]

def feeds (text : String) : Nat :=
  text.toList.count '\n'

theorem feeds_eq_zero {text : String} : feeds text = 0 ↔ '\n' ∉ text.toList :=
  count_eq_zero

theorem feeds_append (a b : String) : feeds (a ++ b) = feeds a + feeds b := by
  simp [feeds, count_append]

theorem feeds_join (line : String) (ls : List String)
    : feeds (Text.join "\n" (line :: ls)) = ls.length + ((line :: ls).map feeds).sum := by
  induction ls generalizing line with
  | nil => simp [Text.join]
  | cons l ls ih =>
    have hfeed : feeds "\n" = 1 := rfl
    rw [Text.join, feeds_append, feeds_append, ih l, hfeed]
    simp only [length_cons, map_cons, sum_cons]
    omega

theorem feeds_of_join_eq {ls ls' : List String} (hlength : ls.length = ls'.length)
    (h : Text.join "\n" ls = Text.join "\n" ls') : (ls.map feeds).sum = (ls'.map feeds).sum := by
  match ls, ls', hlength with
  | [], [], _ => rfl
  | l :: ls, l' :: ls', hlength =>
    have hfeeds := congrArg feeds h
    rw [feeds_join, feeds_join] at hfeeds
    simp only [length_cons] at hlength
    omega

theorem join_inj {ls ls' : List String} (hlength : ls.length = ls'.length)
    (hlines : ∀ l ∈ ls, '\n' ∉ l.toList) (h : Text.join "\n" ls = Text.join "\n" ls') : ls = ls' := by
  have hlines' : ∀ l ∈ ls', '\n' ∉ l.toList := by
    have hsum := feeds_of_join_eq hlength h
    have hzero : (ls.map feeds).sum = 0 := by
      apply sum_eq_zero
      intro n hn
      obtain ⟨l, hl, rfl⟩ := mem_map.mp hn
      exact (feeds_eq_zero).mpr (hlines l hl)
    rw [hzero] at hsum
    intro l hl
    rw [← feeds_eq_zero, ← Nat.le_zero, hsum]
    exact le_sum_of_mem (mem_map_of_mem hl)
  induction ls generalizing ls' with
  | nil => exact (length_eq_zero_iff.mp hlength.symm).symm
  | cons l ls ih =>
    cases ls' with
    | nil => cases hlength
    | cons l' ls' =>
      cases ls with
      | nil =>
        cases length_eq_zero_iff.mp (Nat.succ.inj hlength).symm
        exact congrArg (fun s => [s]) h
      | cons m ls =>
        cases ls' with
        | nil => cases Nat.succ.inj hlength
        | cons m' ls' =>
          rw [Text.join, Text.join, Text.joined_eq_iff rfl] at h
          rcases h with ⟨rfl, hrest⟩ | ⟨x, hl', -⟩ | ⟨x, hl, -⟩
          . rw [ih (Nat.succ.inj hlength) (fun k hk => hlines k (mem_cons_of_mem _ hk)) hrest
              fun k hk => hlines' k (mem_cons_of_mem _ hk)]
          . exact absurd (by simp [hl']) (hlines' l' mem_cons_self)
          . exact absurd (by simp [hl]) (hlines l mem_cons_self)

def frames (ls : List (List Char)) : List Char :=
  ls.flatMap (· ++ ['\n'])

theorem frames_snoc (ls : List (List Char)) (l : List Char) : frames (ls ++ [l]) = frames ls ++ l ++ ['\n'] := by
  simp [frames]

theorem frames_of_line {ls : List (List Char)} {line rest : List Char} (h : line ++ '\n' :: rest = frames ls)
    (hline : '\n' ∉ line) (hls : ∀ l ∈ ls, '\n' ∉ l) : ∃ ls', ls = line :: ls' ∧ rest = frames ls' := by
  cases ls with
  | nil => simp [frames] at h
  | cons l ls =>
    have heq : line ++ '\n' :: rest = l ++ '\n' :: frames ls := by
      rw [h]
      simp [frames]
    obtain ⟨rfl, hrest⟩ := Quoted.free_append_inj hline (hls l mem_cons_self) heq
    exact ⟨ls, rfl, hrest⟩

end Lines
