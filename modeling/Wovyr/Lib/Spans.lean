import Mathlib.Algebra.Order.Ring.Int
import Mathlib.Data.List.Infix

/-!
This module contains lists whose elements take up room, spans of such a list that are to be covered with
something else, and the search for the spans where a pattern stands.
-/

structure Span (α : Type) where
  start : Nat
  stop : Nat
  cover : List α
deriving Repr, DecidableEq

namespace Span

open List

variable {α : Type} (size : α → Nat)

def extent (cs : List α) : Nat :=
  (cs.map size).sum

@[simp]
theorem extent_nil : extent size [] = 0 :=
  rfl

@[simp]
theorem extent_cons (c : α) (cs : List α) : extent size (c :: cs) = size c + extent size cs := by
  simp [extent]

@[simp]
theorem extent_append (cs cs' : List α) : extent size (cs ++ cs') = extent size cs + extent size cs' := by
  simp [extent]

def covers (m : Span α) (pos : Nat) : Bool :=
  m.start ≤ pos && pos < m.stop

def cell (ms : List (Span α)) (pos : Nat) (c : α) : List α :=
  match ms.find? (·.covers pos) with
  | none => [c]
  | some m => if m.start = pos then m.cover else []

def paint (ms : List (Span α)) : List α → Nat → List α
  | [], _ => []
  | c :: cs, pos => cell ms pos c ++ paint ms cs (pos + size c)

def Misses (m : Span α) (start stop : Nat) : Prop :=
  m.stop ≤ start ∨ stop ≤ m.start

def Fits (m : Span α) (cs : List α) : Prop :=
  ∃ before inside after, cs = before ++ inside ++ after ∧ inside ≠ [] ∧ extent size before = m.start
    ∧ extent size before + extent size inside = m.stop

def Keeps (m : Span α) : Prop :=
  extent size m.cover = m.stop - m.start

section

variable {size} {ms : List (Span α)} {m : Span α} {cs : List α} {pos : Nat}

theorem Misses.mono {start stop start' stop' : Nat} (h : m.Misses start stop) (hstart : start ≤ start')
    (hstop : stop' ≤ stop) : m.Misses start' stop' := by
  unfold Misses at *
  omega

theorem covers_eq_false (h : m.Misses pos (pos + 1)) : m.covers pos = false := by
  unfold Misses at h
  simp only [covers, Bool.and_eq_false_iff, decide_eq_false_iff_not]
  omega

theorem find?_covers_of_misses (h : ∀ m ∈ ms, m.Misses pos (pos + 1))
    : ms.find? (·.covers pos) = none := by
  rw [find?_eq_none]
  intro m hm
  rw [covers_eq_false (h m hm)]
  exact Bool.false_ne_true

theorem cell_of_misses (h : ∀ m ∈ ms, m.Misses pos (pos + 1)) (c : α) : cell ms pos c = [c] := by
  rw [cell, find?_covers_of_misses h]

theorem cell_concposof_misses (h : m.Misses pos (pos + 1)) (c : α)
    : cell (ms ++ [m]) pos c = cell ms pos c := by
  unfold cell
  rw [find?_append, find?_singleton, covers_eq_false h]
  simp

theorem cell_concposof_covers (h : ∀ m ∈ ms, m.Misses pos (pos + 1)) (hcovers : m.covers pos = true) (c : α)
    : cell (ms ++ [m]) pos c = if m.start = pos then m.cover else [] := by
  unfold cell
  rw [find?_append, find?_covers_of_misses h, find?_singleton, hcovers]
  rfl

theorem paint_append (cs cs' : List α) (pos : Nat)
    : paint size ms (cs ++ cs') pos = paint size ms cs pos ++ paint size ms cs' (pos + extent size cs) := by
  induction cs generalizing pos with
  | nil => rfl
  | cons c cs ih =>
    simp only [cons_append, paint, ih, extent_cons, append_assoc, Nat.add_assoc]

variable (hsize : ∀ c, 0 < size c)

include hsize

theorem extent_eq_zero (h : extent size cs = 0) : cs = [] := by
  cases cs with
  | nil => rfl
  | cons c cs =>
    rw [extent_cons] at h
    have hpos := hsize c
    omega

theorem paint_of_misses (h : ∀ m ∈ ms, m.Misses pos (pos + extent size cs)) : paint size ms cs pos = cs := by
  induction cs generalizing pos with
  | nil => rfl
  | cons c cs ih =>
    have hpos := hsize c
    simp only [extent_cons] at h
    rw [paint, cell_of_misses fun m hm => (h m hm).mono (Nat.le_refl _) (by omega),
      ih fun m hm => (h m hm).mono (by omega) (by omega)]
    rfl

theorem paint_concposof_misses (h : m.Misses pos (pos + extent size cs))
    : paint size (ms ++ [m]) cs pos = paint size ms cs pos := by
  induction cs generalizing pos with
  | nil => rfl
  | cons c cs ih =>
    have hpos := hsize c
    simp only [extent_cons] at h
    rw [paint, paint, cell_concposof_misses (h.mono (Nat.le_refl _) (by omega)), ih (h.mono (by omega) (by omega))]

theorem paint_concposinside (h : ∀ m ∈ ms, m.Misses pos (pos + extent size cs)) (hstart : m.start < pos)
    (hstop : pos + extent size cs ≤ m.stop) : paint size (ms ++ [m]) cs pos = [] := by
  induction cs generalizing pos with
  | nil => rfl
  | cons c cs ih =>
    have hpos := hsize c
    simp only [extent_cons] at h hstop
    have hcovers : m.covers pos = true := by
      simp only [covers, Bool.and_eq_true, decide_eq_true_eq]
      omega
    rw [paint, cell_concposof_covers (fun m hm => (h m hm).mono (Nat.le_refl _) (by omega)) hcovers,
      if_neg (by omega), ih (fun m hm => (h m hm).mono (by omega) (by omega)) (by omega) (by omega)]
    rfl

theorem paint_concposcovered (h : ∀ m ∈ ms, m.Misses pos (pos + extent size cs)) (hne : cs ≠ [])
    (hstart : m.start = pos) (hstop : pos + extent size cs = m.stop) : paint size (ms ++ [m]) cs pos = m.cover := by
  cases cs with
  | nil => exact absurd rfl hne
  | cons c cs =>
    have hpos := hsize c
    simp only [extent_cons] at h hstop
    have hcovers : m.covers pos = true := by
      simp only [covers, Bool.and_eq_true, decide_eq_true_eq]
      omega
    rw [paint, cell_concposof_covers (fun m hm => (h m hm).mono (Nat.le_refl _) (by omega)) hcovers,
      if_pos hstart, paint_concposinside hsize (fun m hm => (h m hm).mono (by omega) (by omega)) (by omega) (by omega),
      append_nil]

theorem paint_concat {before inside after : List α} (hne : inside ≠ []) (hstart : extent size before = m.start)
    (hstop : extent size before + extent size inside = m.stop) (h : ∀ m' ∈ ms, m'.Misses m.start m.stop)
    : paint size ms (before ++ inside ++ after) 0
          = paint size ms before 0 ++ inside ++ paint size ms after m.stop
        ∧ paint size (ms ++ [m]) (before ++ inside ++ after) 0
          = paint size ms before 0 ++ m.cover ++ paint size ms after m.stop := by
  have hmisses (m' : Span α) (hm' : m' ∈ ms)
      : m'.Misses (0 + extent size before) (0 + extent size before + extent size inside) :=
    (h m' hm').mono (by omega) (by omega)
  have hafter : 0 + extent size (before ++ inside) = m.stop := by
    rw [extent_append]
    omega
  refine ⟨?_, ?_⟩
  . rw [paint_append, paint_append, paint_of_misses hsize hmisses, hafter]
  . rw [paint_append, paint_append, paint_concposof_misses hsize (.inr (by omega)),
      paint_concposcovered hsize hmisses hne (by omega) (by omega), hafter,
      paint_concposof_misses hsize (.inl (Nat.le_refl _))]

theorem Fits.of_append {rest : List α} (h : m.Fits size (cs ++ rest)) (hstop : m.stop ≤ extent size cs)
    : m.Fits size cs := by
  obtain ⟨before, inside, after, heq, hne, hbefore, hinside⟩ := h
  have hpre : before ++ inside <+: cs ++ rest := ⟨after, heq.symm⟩
  cases prefix_or_prefix_of_prefix hpre (prefix_append cs rest) with
  | inl h =>
    obtain ⟨after', rfl⟩ := h
    exact ⟨before, inside, after', rfl, hne, hbefore, hinside⟩
  | inr h =>
    obtain ⟨more, hmore⟩ := h
    have hextent := congrArg (extent size) hmore
    simp only [extent_append] at hextent
    have hnil := extent_eq_zero hsize (by omega : extent size more = 0)
    rw [hnil, append_nil] at hmore
    exact ⟨before, inside, [], by rw [append_nil, hmore], hne, hbefore, hinside⟩

theorem extent_paint (h : ∀ m ∈ ms, extent size cs ≤ m.start ∨ (m.Fits size cs ∧ m.Keeps size))
    (hdisjoint : ms.Pairwise fun m m' => m.Misses m'.start m'.stop)
    : extent size (paint size ms cs 0) = extent size cs := by
  induction ms using reverseRecOn with
  | nil => rw [paint_of_misses hsize (forall_mem_nil _)]
  | append_singleton ms m ih =>
    rw [forall_mem_append] at h
    obtain ⟨hms, hm⟩ := h
    obtain ⟨hdisjoint, -, hlast⟩ := pairwise_append.mp hdisjoint
    have hkept := ih hms hdisjoint
    rcases forall_mem_singleton.mp hm with hbehind | ⟨hfits, hkeeps⟩
    . rw [paint_concposof_misses hsize (.inr (by omega)), hkept]
    . obtain ⟨before, inside, after, rfl, hne, hstart, hstop⟩ := hfits
      obtain ⟨hold, hnew⟩ := @paint_concat _ _ _ _ hsize _ _ after hne hstart hstop
        fun m' hm' => hlast m' hm' m (mem_singleton_self m)
      unfold Keeps at hkeeps
      rw [hold] at hkept
      rw [hnew]
      simp only [extent_append] at hkept ⊢
      omega

end

structure Aligned (m : Span α) (cs : List α) (pos : Nat) : Prop where
  start : pos < m.start → ∃ before after, cs = before ++ after ∧ pos + extent size before = m.start
  stop : pos < m.stop → ∃ before after, cs = before ++ after ∧ pos + extent size before = m.stop

section

variable {size} {m : Span α} {cs : List α} {pos : Nat} {c : α}

theorem boundary_cons {x : Nat} (hx : pos < x)
    (h : ∃ before after, c :: cs = before ++ after ∧ pos + extent size before = x)
    : ∃ before after, cs = before ++ after ∧ pos + size c + extent size before = x := by
  obtain ⟨before, after, heq, hextent⟩ := h
  cases before with
  | nil =>
    rw [extent_nil] at hextent
    omega
  | cons d before =>
    obtain ⟨rfl, rfl⟩ := cons.inj heq
    refine ⟨before, after, rfl, ?_⟩
    rw [extent_cons] at hextent
    omega

theorem Aligned.tail (h : m.Aligned size (c :: cs) pos) : m.Aligned size cs (pos + size c) where
  start hlt := boundary_cons (by omega) (h.start (by omega))
  stop hlt := boundary_cons (by omega) (h.stop (by omega))

end

section

variable {size} {ms : List (Span α)} {cs pattern rest : List α} {pos : Nat}

end

section

variable [DecidableEq α]

def search (pattern cover cs : List α) (pos : Nat) : List (Span α) :=
  match cs with
  | [] => []
  | c :: cs =>
    if pattern ≠ [] ∧ pattern.isPrefixOf (c :: cs) then
      ⟨pos, pos + extent size pattern, cover⟩ ::
        search pattern cover ((c :: cs).drop pattern.length) (pos + extent size pattern)
    else
      search pattern cover cs (pos + size c)
termination_by cs.length
decreasing_by
  . have hpattern : 0 < pattern.length := by
      apply length_pos_of_ne_nil
      tauto
    simp only [length_drop, length_cons]
    omega
  . simp

variable {size} {pattern cover cs : List α} {pos : Nat} {m : Span α}

end

end Span
