import Mathlib.Algebra.Order.Ring.Int
import Mathlib.Data.List.DropRight

/-!
This module contains the string functions of the Rust standard library that have no counterpart with
the same behaviour in Lean's library. The Unicode tables are given on ASCII and left open beyond it.
-/

namespace Text

open List

def isWhitespace (c : Char) : Bool :=
  let n := c.toNat
  (0x9 ≤ n && n ≤ 0xd) || n == 0x20 || n == 0x85 || n == 0xa0 || n == 0x1680
    || (0x2000 ≤ n && n ≤ 0x200a) || n == 0x2028 || n == 0x2029 || n == 0x202f || n == 0x205f
    || n == 0x3000

def trimMatches (p : Char → Bool) (s : String) : String :=
  String.ofList ((s.toList.dropWhile p).rdropWhile p)

def trim (s : String) : String :=
  trimMatches isWhitespace s

theorem trimMatches_append (p : Char → Bool) (cs : List Char)
    : ∃ front back, cs = front ++ (trimMatches p (String.ofList cs)).toList ++ back ∧ (∀ c ∈ front, p c = true)
        ∧ ∀ c ∈ back, p c = true := by
  refine ⟨cs.takeWhile p, (cs.dropWhile p).rtakeWhile p, ?_, ?_, ?_⟩
  . simp only [trimMatches, String.toList_ofList]
    rw [append_assoc, rdropWhile_append_rtakeWhile, takeWhile_append_dropWhile]
  . exact fun c hc => mem_takeWhile_imp hc
  . exact fun c hc => mem_rtakeWhile_imp hc

def split (sep : Char) (s : String) : List String :=
  (s.toList.splitOn sep).map String.ofList

def splitOnce (sep : Char) (s : String) : Option (String × String) :=
  let before := s.toList.takeWhile (· != sep)
  match s.toList.drop before.length with
  | _ :: after => some (String.ofList before, String.ofList after)
  | [] => none

theorem splitOnce_of_not_mem {sep : Char} {s : String} (h : sep ∉ s.toList) : splitOnce sep s = none := by
  have hne (c : Char) (hc : c ∈ s.toList) : (c != sep) = true := by
    rw [bne_iff_ne]
    rintro rfl
    exact h hc
  unfold splitOnce
  rw [takeWhile_eq_self_iff.mpr hne]
  dsimp only
  rw [drop_length]

theorem splitOnce_of_mem {sep : Char} {s : String} {a b : List Char} (hfree : sep ∉ a)
    (heq : s.toList = a ++ sep :: b) : splitOnce sep s = some (String.ofList a, String.ofList b) := by
  have hne (c : Char) (hc : c ∈ a) : (c != sep) = true := by
    rw [bne_iff_ne]
    rintro rfl
    exact hfree hc
  have htake : s.toList.takeWhile (· != sep) = a := by
    rw [heq, takeWhile_append_of_pos hne, takeWhile_cons_of_neg (by simp), append_nil]
  unfold splitOnce
  rw [htake, heq]
  dsimp only
  rw [drop_left]

theorem splitOnce_eq_some {sep : Char} {s a b : String}
    : splitOnce sep s = some (a, b) ↔ sep ∉ a.toList ∧ s.toList = a.toList ++ sep :: b.toList := by
  constructor
  . intro h
    by_cases hmem : sep ∈ s.toList
    . obtain ⟨before, after, heq, hfree⟩ := eq_append_cons_of_mem hmem
      rw [splitOnce_of_mem hfree heq] at h
      cases h
      rw [String.toList_ofList, String.toList_ofList]
      exact ⟨hfree, heq⟩
    . rw [splitOnce_of_not_mem hmem] at h
      cases h
  . rintro ⟨hfree, heq⟩
    rw [splitOnce_of_mem hfree heq, String.ofList_toList, String.ofList_toList]

theorem splitOnce_eq_none {sep : Char} {s : String} : splitOnce sep s = none ↔ sep ∉ s.toList := by
  refine ⟨?_, splitOnce_of_not_mem⟩
  intro h hmem
  obtain ⟨before, after, heq, hfree⟩ := eq_append_cons_of_mem hmem
  rw [splitOnce_of_mem hfree heq] at h
  cases h

def splitWhitespace (s : String) : List String :=
  ((s.toList.splitOnP isWhitespace).filter (· ≠ [])).map String.ofList

theorem ne_empty_of_mem_splitWhitespace {s w : String} (h : w ∈ splitWhitespace s) : w ≠ "" := by
  unfold splitWhitespace at h
  obtain ⟨cs, hcs, rfl⟩ := mem_map.mp h
  have hne := (mem_filter.mp hcs).2
  rw [decide_eq_true_iff] at hne
  simpa using hne

def asciiLower (s : String) : String :=
  String.ofList (s.toList.map Char.toLower)

def join (sep : String) : List String → String
  | [] => ""
  | [a] => a
  | a :: b :: rest => a ++ sep ++ join sep (b :: rest)

def eqIgnoreAsciiCase (a b : String) : Bool :=
  a.toList.map Char.toLower == b.toList.map Char.toLower

def stripPrefix (pre s : String) : Option String :=
  if pre.toList.isPrefixOf s.toList then
    some (String.ofList (s.toList.drop pre.toList.length))
  else
    none

theorem stripPrefix_eq_some {pre s rest : String} : stripPrefix pre s = some rest ↔ s = pre ++ rest := by
  unfold stripPrefix
  rw [← String.toList_inj, String.toList_append]
  split
  . next hpre =>
    obtain ⟨t, ht⟩ := isPrefixOf_iff_prefix.mp hpre
    rw [← ht, drop_left, Option.some_inj, append_cancel_left_eq, ← String.toList_inj,
      String.toList_ofList]
  . next hpre =>
    simp only [reduceCtorEq, false_iff]
    intro heq
    exact hpre (List.isPrefixOf_iff_prefix.mpr ⟨rest.toList, heq.symm⟩)

def stripSuffix (suf s : String) : Option String :=
  if suf.toList.isSuffixOf s.toList then
    some (String.ofList (s.toList.take (s.toList.length - suf.toList.length)))
  else
    none

theorem stripSuffix_eq_some {suf s rest : String} : stripSuffix suf s = some rest ↔ s = rest ++ suf := by
  unfold stripSuffix
  rw [← String.toList_inj, String.toList_append]
  split
  . next hsuf =>
    obtain ⟨t, ht⟩ := isSuffixOf_iff_suffix.mp hsuf
    rw [← ht, length_append, Nat.add_sub_cancel, take_left, Option.some_inj,
      append_cancel_right_eq, ← String.toList_inj, String.toList_ofList]
  . next hsuf =>
    simp only [reduceCtorEq, false_iff]
    intro heq
    exact hsuf (isSuffixOf_iff_suffix.mpr ⟨rest.toList, heq.symm⟩)

def trimStartMatches (pat s : String) : String :=
  String.ofList (go pat.toList s.toList s.toList.length)
where
  -- A nonempty pattern shortens the text, so the length of the text bounds the number of rounds.
  go (pat s : List Char) : Nat → List Char
    | 0 => s
    | fuel + 1 => if pat ≠ [] ∧ pat.isPrefixOf s then go pat (s.drop pat.length) fuel else s

def digitVal? (c : Char) : Option Nat :=
  if c.isDigit then some (c.toNat - '0'.toNat) else none

def parseDigits (s : List Char) : Option Nat :=
  if s = [] then
    none
  else
    s.foldlM (fun acc c => (digitVal? c).map fun d => acc * 10 + d) 0

def parseUnsigned (bound : Nat) (s : String) : Option Nat :=
  let digits :=
    match s.toList with
    | '+' :: rest => rest
    | cs => cs
  (parseDigits digits).filter (· < bound)

/--
Two pairs of texts run into each other if one is the other, or if what the first text of one has
more than the first text of the other, from the separator on, is what the second text of the other
begins with.
-/
def Overlap (sep : String) (a b c d : String) : Prop :=
  (a = c ∧ b = d)
    ∨ (∃ x, c = a ++ sep ++ x ∧ b = x ++ sep ++ d)
    ∨ (∃ x, a = c ++ sep ++ x ∧ d = x ++ sep ++ b)

theorem append_cons_eq_iff {α : Type u} (sep : α) (a b c d : List α)
    : a ++ sep :: b = c ++ sep :: d
        ↔ (a = c ∧ b = d)
          ∨ (∃ x, c = a ++ sep :: x ∧ b = x ++ sep :: d)
          ∨ (∃ x, a = c ++ sep :: x ∧ d = x ++ sep :: b) := by
  constructor
  . intro h
    cases append_eq_append_iff.mp h with
    | inl hshort =>
      obtain ⟨x, hc, hb⟩ := hshort
      cases x with
      | nil =>
        rw [append_nil] at hc
        exact .inl ⟨hc.symm, (cons.inj hb).2⟩
      | cons _ x =>
        obtain ⟨rfl, htail⟩ := cons.inj hb
        exact .inr (.inl ⟨x, hc, htail⟩)
    | inr hlong =>
      obtain ⟨x, ha, hd⟩ := hlong
      cases x with
      | nil =>
        rw [append_nil] at ha
        exact .inl ⟨ha, (cons.inj hd).2.symm⟩
      | cons _ x =>
        obtain ⟨rfl, htail⟩ := cons.inj hd
        exact .inr (.inr ⟨x, ha, htail⟩)
  . rintro (⟨rfl, rfl⟩ | ⟨x, rfl, rfl⟩ | ⟨x, rfl, rfl⟩)
    . rfl
    . simp
    . simp

theorem joined_eq_iff {sep : String} {char : Char} (hsep : sep.toList = [char]) (a b c d : String)
    : a ++ sep ++ b = c ++ sep ++ d ↔ Overlap sep a b c d := by
  have hexists : ∀ u v w z : String,
      (∃ x, u.toList = v.toList ++ char :: x ∧ w.toList = x ++ char :: z.toList)
        ↔ ∃ x, u = v ++ sep ++ x ∧ w = x ++ sep ++ z := by
    intro u v w z
    constructor
    . rintro ⟨x, hu, hw⟩
      refine ⟨String.ofList x, ?_, ?_⟩
      . rw [← String.toList_inj]
        simp [hu, hsep]
      . rw [← String.toList_inj]
        simp [hw, hsep]
    . rintro ⟨x, rfl, rfl⟩
      exact ⟨x.toList, by simp [hsep], by simp [hsep]⟩
  unfold Overlap
  rw [← hexists, ← hexists]
  simp only [← String.toList_inj, String.toList_append, hsep, append_assoc, cons_append,
    nil_append]
  exact append_cons_eq_iff char _ _ _ _

theorem joined_inj {sep : String} {char : Char} (hsep : sep.toList = [char]) {a b c d : String}
    (ha : char ∉ a.toList) (hc : char ∉ c.toList) (h : a ++ sep ++ b = c ++ sep ++ d)
    : a = c ∧ b = d := by
  rcases (joined_eq_iff hsep a b c d).mp h with heq | ⟨x, rfl, -⟩ | ⟨x, rfl, -⟩
  . exact heq
  . exact absurd (by simp [hsep]) hc
  . exact absurd (by simp [hsep]) ha

theorem joined_eq_iff_count {sep : String} {char : Char} (hsep : sep.toList = [char]) {a b c d : String}
    (h : a ++ sep ++ b = c ++ sep ++ d) : (a = c ∧ b = d) ↔ a.toList.count char = c.toList.count char := by
  constructor
  . rintro ⟨rfl, -⟩
    rfl
  . intro hcount
    rcases (joined_eq_iff hsep a b c d).mp h with heq | ⟨x, rfl, -⟩ | ⟨x, rfl, -⟩
    . exact heq
    . simp only [String.toList_append, hsep, count_append, count_singleton_self] at hcount
      omega
    . simp only [String.toList_append, hsep, count_append, count_singleton_self] at hcount
      omega

theorem join_inj {sep : String} {char : Char} (hsep : sep.toList = [char]) {as bs : List String}
    (has : ∀ a ∈ as, a ≠ "" ∧ char ∉ a.toList) (hbs : ∀ b ∈ bs, b ≠ "" ∧ char ∉ b.toList)
    (h : join sep as = join sep bs) : as = bs := by
  have hmem (a rest : String) : char ∈ (a ++ sep ++ rest).toList := by
    simp [hsep]
  have hne (a rest : String) : a ++ sep ++ rest ≠ "" := by
    intro heq
    have := hmem a rest
    rw [heq] at this
    cases this
  induction as generalizing bs with
  | nil =>
    match bs with
    | [] => rfl
    | [b] => exact absurd h.symm (hbs b (mem_cons_self ..)).1
    | b :: b' :: rest => exact absurd h.symm (hne b _)
  | cons a as ih =>
    have ha := has a (mem_cons_self ..)
    match as, bs with
    | [], [] => exact absurd h ha.1
    | [], [b] => rw [show a = b from h]
    | [], b :: b' :: rest =>
      have heq : a = b ++ sep ++ join sep (b' :: rest) := h
      rw [heq] at ha
      exact absurd (hmem b _) ha.2
    | a' :: as, [] => exact absurd h (hne a _)
    | a' :: as, [b] =>
      have heq : a ++ sep ++ join sep (a' :: as) = b := h
      have hb := (hbs b (mem_cons_self ..)).2
      rw [← heq] at hb
      exact absurd (hmem a _) hb
    | a' :: as, b :: b' :: rest =>
      obtain ⟨rfl, hrest⟩ := joined_inj hsep ha.2 (hbs b (mem_cons_self ..)).2 h
      rw [ih (fun x hx => has x (mem_cons_of_mem _ hx))
        (fun x hx => hbs x (mem_cons_of_mem _ hx)) hrest]

section

variable {α : Type u} {pat cs before after : List α} {i : Nat}

def Occurs (pat cs : List α) (i : Nat) : Prop :=
  pat <+: cs.drop i

theorem occurs_pair {a b : α} : Occurs [a, b] cs i ↔ cs[i]? = some a ∧ cs[i + 1]? = some b := by
  unfold Occurs
  rw [prefix_iff_getElem?]
  simp only [getElem?_drop, length_cons, length_nil]
  constructor
  . intro h
    exact ⟨h 0 (by decide), h 1 (by decide)⟩
  . rintro ⟨hfirst, hsecond⟩ k hk
    obtain rfl | rfl : k = 0 ∨ k = 1 := by omega
    . exact hfirst
    . exact hsecond

theorem occurs_append (before pat after : List α) : Occurs pat (before ++ pat ++ after) before.length := by
  unfold Occurs
  rw [append_assoc, drop_left]
  exact prefix_append pat after

theorem occurs_append_right (before : List α)
    : Occurs pat (before ++ cs) (before.length + i) ↔ Occurs pat cs i := by
  unfold Occurs
  rw [drop_length_add_append]

variable [DecidableEq α]

def cut (pat : List α) : List α → Option (List α × List α)
  | [] => none
  | c :: cs =>
    if pat.isPrefixOf (c :: cs) then
      some ([], (c :: cs).drop pat.length)
    else
      (cut pat cs).map fun (before, after) => (c :: before, after)

theorem cut_eq_some (h : cut pat cs = some (before, after))
    : cs = before ++ pat ++ after ∧ ∀ i < before.length, ¬Occurs pat cs i := by
  induction cs generalizing before with
  | nil => cases h
  | cons c cs ih =>
    rw [cut] at h
    split at h
    next hprefix =>
      cases h
      obtain ⟨rest, hrest⟩ := isPrefixOf_iff_prefix.mp hprefix
      refine ⟨?_, nofun⟩
      rw [← hrest, drop_left, nil_append]
    next hprefix =>
      obtain ⟨⟨before', after'⟩, hcut, heq⟩ := Option.map_eq_some_iff.mp h
      cases heq
      obtain ⟨rfl, hfirst⟩ := ih hcut
      refine ⟨rfl, ?_⟩
      intro i hi
      cases i with
      | zero => exact fun hoccurs => hprefix (List.isPrefixOf_iff_prefix.mpr hoccurs)
      | succ i => exact hfirst i (Nat.lt_of_succ_lt_succ hi)

theorem cut_eq_none (hne : pat ≠ []) (h : cut pat cs = none) (i : Nat) : ¬Occurs pat cs i := by
  induction cs generalizing i with
  | nil =>
    intro hoccurs
    rw [Occurs, drop_nil] at hoccurs
    exact hne (prefix_nil.mp hoccurs)
  | cons c cs ih =>
    rw [cut] at h
    split at h
    next => cases h
    next hprefix =>
      cases i with
      | zero => exact fun hoccurs => hprefix (List.isPrefixOf_iff_prefix.mpr hoccurs)
      | succ i => exact ih (Option.map_eq_none_iff.mp h) i

end

end Text

def IsAscii (c : Char) : Prop := c.toNat < 0x80

instance (c : Char) : Decidable (IsAscii c) :=
  inferInstanceAs (Decidable (c.toNat < 0x80))

structure Unicode where
  toLowercase : List Char → List Char
  isAlphanumeric : Char → Bool
  toLowercase_ascii : ∀ cs, (∀ c ∈ cs, IsAscii c) → toLowercase cs = cs.map Char.toLower
  toLowercase_ne_nil : ∀ cs, cs ≠ [] → toLowercase cs ≠ []
  isAlphanumeric_ascii : ∀ c, IsAscii c → isAlphanumeric c = c.isAlphanum

namespace Unicode

-- The tables in which no character beyond ASCII has a case or is alphanumeric.
def asciiOnly : Unicode where
  toLowercase := List.map Char.toLower
  isAlphanumeric := Char.isAlphanum
  toLowercase_ascii := by
    intro cs _
    rfl
  toLowercase_ne_nil := by
    intro cs h
    simpa using h
  isAlphanumeric_ascii := by
    intro c _
    rfl

def lower (u : Unicode) (s : String) : String :=
  String.ofList (u.toLowercase s.toList)

def runs (u : Unicode) (s : String) : List String :=
  ((s.toList.splitOnP fun c => !u.isAlphanumeric c).filter (· ≠ [])).map String.ofList

def tokens (u : Unicode) (s : String) : List String :=
  u.runs (u.lower s)

theorem lower_ne_empty (u : Unicode) {s : String} (h : s ≠ "") : u.lower s ≠ "" := by
  intro hlower
  have hne : s.toList ≠ [] := by
    intro hnil
    exact h (String.toList_injective hnil)
  apply u.toLowercase_ne_nil s.toList hne
  have := congrArg String.toList hlower
  simpa [lower] using this

theorem lower_empty (u : Unicode) : u.lower "" = "" := by
  have := u.toLowercase_ascii [] (by simp)
  simp [lower, this]

theorem lower_ascii (u : Unicode) {s : String} (h : ∀ c ∈ s.toList, IsAscii c)
    : u.lower s = String.ofList (s.toList.map Char.toLower) := by
  rw [lower, u.toLowercase_ascii _ h]

def asciiAlphanumeric (s : String) : Bool :=
  s.toList.all fun c => decide (IsAscii c) && c.isAlphanum

theorem runs_eq_singleton (u : Unicode) {s : String} (hne : s ≠ "") (h : asciiAlphanumeric s = true)
    : u.runs s = [s] := by
  have hchars : ∀ c ∈ s.toList, (!u.isAlphanumeric c) = false := by
    intro c hc
    have := List.all_eq_true.mp h c hc
    rw [Bool.and_eq_true, decide_eq_true_eq] at this
    rw [u.isAlphanumeric_ascii c this.1, this.2]
    rfl
  have hlist : s.toList ≠ [] := by
    intro hnil
    exact hne (String.toList_injective hnil)
  rw [runs, List.splitOnP_eq_singleton hchars]
  simp [hlist]

end Unicode
