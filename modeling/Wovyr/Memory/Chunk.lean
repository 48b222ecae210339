import Wovyr.Lib.Text

/-!
This module contains the chunking of documents: a text is cut into windows of its words that overlap, and it is
proved that the windows advance, cover all words and keep to their size.
-/

namespace Wovyr.Memory

open List

structure ChunkPolicy where
  maxChars : Nat := 1200
  overlapChars : Nat := 200

namespace Chunk

variable (words : List String) (maxChars overlap : Nat)

-- Takes one word after the other until the next one would overflow the window, but always one.
def grow (start stop len : Nat) : Nat :=
  if h : stop < words.length then
    let add := words[stop].length + if start < stop then 1 else 0
    if maxChars < len + add ∧ start < stop then
      stop
    else
      grow start (stop + 1) (len + add)
  else
    stop
termination_by words.length - stop

-- Steps back over the tail of a window until the overlap is covered, but not to its first word.
def back (start : Nat) : Nat → Nat → Nat
  | 0, _ => 0
  | next + 1, covered =>
    if start < next ∧ covered < overlap then
      back start next (covered + (words.getD next "").length + 1)
    else
      next + 1

variable {words maxChars overlap}

theorem le_grow {start stop len : Nat} (h : stop ≤ words.length)
    : stop ≤ grow words maxChars start stop len ∧ grow words maxChars start stop len ≤ words.length := by
  fun_induction grow words maxChars start stop len with
  | case1 => omega
  | case2 stop len hlt add hmore ih =>
    have := ih hlt
    omega
  | case3 => omega

theorem lt_grow {start : Nat} (h : start < words.length) : start < grow words maxChars start start 0 := by
  have hfirst : ¬(maxChars < 0 + (words[start].length + if start < start then 1 else 0) ∧ start < start) := by
    omega
  rw [grow, dif_pos h]
  dsimp only
  rw [if_neg hfirst]
  exact (le_grow h).1

theorem back_spec {start next : Nat} (covered : Nat) (h : start < next)
    : start < back words overlap start next covered ∧ back words overlap start next covered ≤ next := by
  induction next generalizing covered with
  | zero => omega
  | succ next ih =>
    rw [back]
    split
    next hmore =>
      have := ih (covered + (words.getD next "").length + 1) hmore.1
      omega
    next => omega

variable (words maxChars overlap)

def splitFrom (start : Nat) (h : start < words.length) : List String :=
  let stop := grow words maxChars start start 0
  let chunk := Text.join " " (words.extract start stop)
  if hstop : stop < words.length then
    chunk :: splitFrom (back words overlap start stop 0) (Nat.lt_of_le_of_lt (back_spec 0 (lt_grow h)).2 hstop)
  else
    [chunk]
termination_by words.length - start
decreasing_by exact Nat.sub_lt_sub_left h (back_spec 0 (lt_grow h)).1

end Chunk

def split (content : String) (policy : ChunkPolicy) : List String :=
  let words := Text.splitWhitespace content
  let maxChars := max policy.maxChars 1
  let overlap := min policy.overlapChars (maxChars - 1)
  if h : 0 < words.length then
    Chunk.splitFrom words maxChars overlap 0 h
  else
    []

namespace Chunk

structure Window where
  start : Nat
  stop : Nat
deriving DecidableEq

def Window.of (words : List String) (w : Window) : List String :=
  words.extract w.start w.stop

def Window.text (words : List String) (w : Window) : String :=
  Text.join " " (w.of words)

section

variable {words : List String} {maxChars overlap : Nat}

def offset (words : List String) (k : Nat) : Nat :=
  ((words.take k).map fun w => w.length + 1).sum

theorem offset_succ {k : Nat} (h : k < words.length)
    : offset words (k + 1) = offset words k + (words[k].length + 1) := by
  unfold offset
  rw [take_succ_eq_append_getElem h, map_append, sum_append]
  simp

theorem offset_add {start : Nat} (ws : List String) (h : ws <+: words.drop start)
    : offset words (start + ws.length) = offset words start + (ws.map fun w => w.length + 1).sum := by
  unfold offset
  rw [take_add, map_append, sum_append, ← prefix_iff_eq_take.mp h]

theorem offset_mono {i j : Nat} (h : i ≤ j) : offset words i ≤ offset words j := by
  unfold offset
  rw [← Nat.add_sub_cancel' h, take_add, map_append, sum_append]
  exact Nat.le_add_right _ _

theorem length_join {ws : List String} (h : ws ≠ [])
    : (Text.join " " ws).length + 1 = (ws.map fun w => w.length + 1).sum := by
  fun_induction Text.join " " ws with
  | case1 => exact absurd rfl h
  | case2 a => simp
  | case3 a b rest ih =>
    have hrest := ih (cons_ne_nil b rest)
    have hspace : " ".length = 1 := rfl
    rw [String.length_append, String.length_append, map_cons, sum_cons, ← hrest, hspace]
    omega

theorem length_text {w : Window} (hlt : w.start < w.stop) (hle : w.stop ≤ words.length)
    : (w.text words).length + 1 + offset words w.start = offset words w.stop := by
  have hlength : (w.of words).length = w.stop - w.start := by
    simp [Window.of, extract_eq_take_drop]
    omega
  have hne : w.of words ≠ [] := by
    intro h
    rw [h, length_nil] at hlength
    omega
  have hprefix : w.of words <+: words.drop w.start := by
    rw [Window.of, extract_eq_take_drop]
    exact take_prefix _ _
  have hadd := offset_add (w.of words) hprefix
  rw [hlength, Nat.add_sub_cancel' hlt.le] at hadd
  rw [Window.text, length_join hne, hadd]
  omega

structure Grown (words : List String) (maxChars : Nat) (w : Window) : Prop where
  lt : w.start < w.stop
  le : w.stop ≤ words.length
  fits : offset words w.stop ≤ offset words w.start + 1 + maxChars ∨ w.stop = w.start + 1
  full : ∀ h : w.stop < words.length, offset words w.start + maxChars < offset words w.stop + words[w.stop].length

theorem grown_grow {start stop len : Nat} (hstart : start < words.length) (hle : start ≤ stop)
    (hstop : stop ≤ words.length)
    (hlen : start < stop ∧ len + 1 + offset words start = offset words stop ∨ stop = start ∧ len = 0)
    (hfits : len ≤ maxChars ∨ stop ≤ start + 1)
    : Grown words maxChars ⟨start, grow words maxChars start stop len⟩ := by
  fun_induction grow words maxChars start stop len with
  | case1 stop len h add hfull =>
    have hlt : start < stop := hfull.2
    have hadd : add = words[stop].length + 1 := by simp [add, hlt]
    refine ⟨hlt, hstop, ?_, ?_⟩
    . dsimp only
      omega
    . intro _
      dsimp only
      omega
  | case2 stop len h add hmore ih =>
    have hsucc := offset_succ h
    apply ih (by omega) h
    . left
      refine ⟨by omega, ?_⟩
      cases hlen with
      | inl hlen =>
        have hadd : add = words[stop].length + 1 := by simp [add, hlen.1]
        omega
      | inr hlen =>
        have hadd : add = words[stop].length := by simp [add, hlen.1]
        have hoffset : offset words stop = offset words start := by rw [hlen.1]
        omega
    . omega
  | case3 stop len h =>
    have hlt : start < stop := by omega
    refine ⟨hlt, hstop, ?_, ?_⟩
    . dsimp only
      omega
    . intro hlt
      exact absurd hlt h

structure Follows (overlap : Nat) (v : Window) (next : Nat) : Prop where
  lt : v.start < next
  le : next ≤ v.stop
  apart : overlap = 0 → next = v.stop
  shared : 0 < overlap → v.start + 2 ≤ v.stop → next < v.stop

theorem follows_back {v : Window} (h : v.start < v.stop) : Follows overlap v (back words overlap v.start v.stop 0) := by
  obtain ⟨hlt, hle⟩ := @back_spec words overlap _ _ 0 h
  refine ⟨hlt, hle, ?_, ?_⟩
  . rintro rfl
    cases hstop : v.stop with
    | zero => omega
    | succ n => simp [back]
  . intro hpos htwo
    cases hstop : v.stop with
    | zero => omega
    | succ n =>
      have hmore : v.start < n ∧ 0 < overlap := ⟨by omega, hpos⟩
      rw [back, if_pos hmore]
      have := (@back_spec words overlap _ _ (0 + (words.getD n "").length + 1) hmore.1).2
      omega

inductive Cut (words : List String) (maxChars overlap : Nat) : Nat → List Window → Prop where
  | last {w : Window} (h : Grown words maxChars w) (hstop : w.stop = words.length)
    : Cut words maxChars overlap w.start [w]
  | more {w : Window} {next : Nat} {ws : List Window} (h : Grown words maxChars w) (hnext : Follows overlap w next)
    (hws : Cut words maxChars overlap next ws) : Cut words maxChars overlap w.start (w :: ws)

theorem cut_splitFrom {start : Nat} (h : start < words.length)
    : ∃ ws, splitFrom words maxChars overlap start h = ws.map (·.text words)
        ∧ Cut words maxChars overlap start ws := by
  fun_induction splitFrom words maxChars overlap start h with
  | case1 start h stop chunk hstop ih =>
    obtain ⟨ws, htexts, hcut⟩ := ih
    have hgrown : Grown words maxChars ⟨start, stop⟩ :=
      grown_grow h (le_refl start) h.le (.inr ⟨rfl, rfl⟩) (.inl (Nat.zero_le _))
    refine ⟨⟨start, stop⟩ :: ws, ?_, ?_⟩
    . rw [htexts, map_cons]
      rfl
    . exact .more hgrown (follows_back (v := ⟨start, stop⟩) hgrown.lt) hcut
  | case2 start h stop chunk hstop =>
    have hgrown : Grown words maxChars ⟨start, stop⟩ :=
      grown_grow h (le_refl start) h.le (.inr ⟨rfl, rfl⟩) (.inl (Nat.zero_le _))
    have hle := hgrown.le
    refine ⟨[⟨start, stop⟩], rfl, ?_⟩
    apply Cut.last hgrown
    dsimp only at hle ⊢
    omega

namespace Cut

variable {start : Nat} {ws : List Window}

theorem head (h : Cut words maxChars overlap start ws) : ∃ w rest, ws = w :: rest ∧ w.start = start := by
  cases h with
  | last h hstop => exact ⟨_, [], rfl, rfl⟩
  | more h hnext hws => exact ⟨_, _, rfl, rfl⟩

theorem grown (h : Cut words maxChars overlap start ws) : ∀ w ∈ ws, Grown words maxChars w := by
  induction h with
  | last h hstop => simpa using h
  | more h hnext hws ih => simpa using ⟨h, ih⟩

theorem stop_getLast (h : Cut words maxChars overlap start ws) : ∀ w ∈ ws.getLast?, w.stop = words.length := by
  induction h with
  | last h hstop => simpa using hstop
  | more h hnext hws ih =>
    obtain ⟨w, rest, rfl, -⟩ := hws.head
    rw [getLast?_cons_cons]
    exact ih

theorem isChain {R : Window → Window → Prop} (h : Cut words maxChars overlap start ws)
    (hR : ∀ v w, Grown words maxChars v → Grown words maxChars w → Follows overlap v w.start → R v w)
    : ws.IsChain R := by
  induction h with
  | last h hstop => exact List.IsChain.singleton _
  | more h hnext hws ih =>
    obtain ⟨w, rest, rfl, rfl⟩ := hws.head
    rw [isChain_cons_cons]
    exact ⟨hR _ w h (hws.grown w mem_cons_self) hnext, ih⟩

theorem partition (h : Cut words maxChars 0 start ws) : ws.flatMap (·.of words) = words.drop start := by
  generalize hzero : 0 = overlap at h
  induction h with
  | @last w h hstop =>
    rw [flatMap_singleton, Window.of, hstop, extract_eq_take_drop]
    apply take_of_length_le
    simp
  | @more w next ws h hnext hws ih =>
    have happart := hnext.apart hzero.symm
    have hsum : w.start + (w.stop - w.start) = w.stop := Nat.add_sub_cancel' h.lt.le
    rw [flatMap_cons, ih, happart, Window.of, extract_eq_take_drop]
    nth_rewrite 2 [← hsum]
    rw [← drop_drop, take_append_drop]

end Cut

theorem stop_le_of_shared {v w : Window} (hv : Grown words maxChars v) (hw : Grown words maxChars w)
    (hlt : v.start < w.start) (htwo : v.start + 2 ≤ v.stop) : v.stop ≤ w.stop := by
  by_contra hstop
  have hlen : w.stop < words.length := Nat.lt_of_lt_of_le (Nat.lt_of_not_le hstop) hv.le
  have hfull := hw.full hlen
  have hsucc := offset_succ hlen
  have hmono : offset words (w.stop + 1) ≤ offset words v.stop := offset_mono (by omega)
  have hstart : offset words v.start ≤ offset words w.start := offset_mono hlt.le
  have hfits := hv.fits
  omega

theorem three_le_of_two {v : Window} (hv : Grown words maxChars v) (hwords : ∀ w ∈ words, w ≠ "")
    (htwo : v.start + 2 ≤ v.stop) : 3 ≤ maxChars := by
  have hle := hv.le
  have hlength (k : Nat) (h : k < words.length) : 0 < words[k].length := by
    have hne := hwords words[k] (getElem_mem h)
    rw [Nat.pos_iff_ne_zero, ne_eq, String.length_eq_zero_iff]
    exact hne
  have hfirst := @offset_succ words v.start (by omega)
  have hsecond := @offset_succ words (v.start + 1) (by omega)
  have hmono : offset words (v.start + 1 + 1) ≤ offset words v.stop := offset_mono htwo
  have := hlength v.start (by omega)
  have := hlength (v.start + 1) (by omega)
  have := hv.fits
  omega

end

/--
How a text is cut: the first window starts with the first word, each one starts behind the start of the one before,
but not behind its end, and the last one ends with the last word.
-/
structure Windowed (words : List String) (policy : ChunkPolicy) (windows : List Window) : Prop where
  none_iff : windows = [] ↔ words = []
  first : ∀ w ∈ windows.head?, w.start = 0
  proper : ∀ w ∈ windows, w.start < w.stop ∧ w.stop ≤ words.length
  advances : windows.IsChain fun v w => v.start < w.start ∧ w.start ≤ v.stop
  last : ∀ w ∈ windows.getLast?, w.stop = words.length
  size : ∀ w ∈ windows, (w.text words).length ≤ max 1 policy.maxChars ∨ w.stop = w.start + 1
  partition : policy.overlapChars = 0 → windows.flatMap (·.of words) = words
  shared : 0 < policy.overlapChars → windows.IsChain fun v w =>
    v.start + 2 ≤ v.stop → w.start < v.stop ∧ v.stop ≤ w.stop

theorem Cut.windowed {words : List String} {policy : ChunkPolicy} {windows : List Window}
    (h : Cut words (max policy.maxChars 1) (min policy.overlapChars (max policy.maxChars 1 - 1)) 0 windows)
    (hne : words ≠ []) (hwords : ∀ w ∈ words, w ≠ "") : Windowed words policy windows where
  none_iff := by
    obtain ⟨w, rest, rfl, -⟩ := h.head
    simp [hne]
  first := by
    obtain ⟨w, rest, rfl, hstart⟩ := h.head
    simpa using hstart
  proper := fun w hw => ⟨(h.grown w hw).lt, (h.grown w hw).le⟩
  advances := h.isChain fun v w _ _ hnext => ⟨hnext.lt, hnext.le⟩
  last := h.stop_getLast
  size := by
    intro w hw
    have hgrown := h.grown w hw
    have hlength := length_text hgrown.lt hgrown.le
    have := hgrown.fits
    omega
  partition := by
    intro hzero
    rw [hzero, Nat.zero_min] at h
    rw [h.partition, drop_zero]
  shared := by
    intro hpos
    refine h.isChain fun v w hv hw hnext htwo => ?_
    have hthree := three_le_of_two hv hwords htwo
    exact ⟨hnext.shared (by omega) htwo, stop_le_of_shared hv hw hnext.lt htwo⟩

end Chunk

theorem split_windowed (content : String) (policy : ChunkPolicy)
    : ∃ windows, split content policy = windows.map (·.text (Text.splitWhitespace content))
        ∧ Chunk.Windowed (Text.splitWhitespace content) policy windows := by
  generalize hwords : Text.splitWhitespace content = words
  unfold split
  rw [hwords]
  dsimp only
  split
  next h =>
    obtain ⟨windows, htexts, hcut⟩ := @Chunk.cut_splitFrom words (max policy.maxChars 1)
      (min policy.overlapChars (max policy.maxChars 1 - 1)) _ h
    refine ⟨windows, htexts, hcut.windowed ?_ ?_⟩
    . rintro rfl
      exact Nat.lt_irrefl 0 h
    . rw [← hwords]
      exact fun w => Text.ne_empty_of_mem_splitWhitespace
  next h =>
    have hnil : words = [] := eq_nil_of_length_eq_zero (by omega)
    subst hnil
    exact ⟨[], rfl, by simp, by simp, by simp, .nil, by simp, by simp, by simp, fun _ => .nil⟩

end Wovyr.Memory
