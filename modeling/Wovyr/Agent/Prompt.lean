import Std.Data.ExtTreeMap
import Wovyr.Common
import Wovyr.Json.Text

/-!
This module contains the templates of prompts, how they are registered and rendered, and proves for which bodies
no placeholder is left in the text of a rendered prompt.
-/

namespace Wovyr

open Text List

namespace Agent

inductive VariableType where
  | string
  | integer
  | number
  | boolean
deriving Repr, DecidableEq, Inhabited

namespace VariableType

def isMatch : VariableType → Value → Bool
  | .string, .string _ => true
  | .integer, .int _ => true
  | .number, .int _ => true
  | .number, .float _ => true
  | .boolean, .bool _ => true
  | _, _ => false

def label : VariableType → String
  | .string => "string"
  | .integer => "integer"
  | .number => "number"
  | .boolean => "boolean"

end VariableType

structure VariableSpec where
  name : String
  varType : VariableType := .string
  default : Option Value := none

structure PromptTemplate where
  name : String
  version : Nat
  body : String
  vars : List VariableSpec := []

inductive Segment where
  | text (s : String)
  | placeholder (name : String)
deriving Repr, DecidableEq, Inhabited

def isIdentifier (s : String) : Bool :=
  match s.toList with
  | [] => false
  | c :: cs => (c.isAlpha || c == '_') && cs.all fun c => c.isAlphanum || c == '_'

namespace Segment

def opening : List Char := ['\x7b', '\x7b']

def closing : List Char := ['\x7d', '\x7d']

def ofText (cs : List Char) : List Segment :=
  if cs = [] then [] else [.text (String.ofList cs)]

def ofBraced (inner : List Char) : Segment :=
  let name := trim (String.ofList inner)
  if isIdentifier name then
    .placeholder name
  else
    .text (String.ofList (opening ++ inner ++ closing))

theorem length_lt {rest head braced inner after : List Char} (hopen : cut opening rest = some (head, braced))
    (hclose : cut closing braced = some (inner, after)) : after.length < rest.length := by
  rw [(cut_eq_some hopen).1, (cut_eq_some hclose).1]
  simp [opening, closing]
  omega

def scan (rest : List Char) : List Segment :=
  match _hopen : cut opening rest with
  | none => ofText rest
  | some (head, braced) =>
    match _hclose : cut closing braced with
    | some (inner, after) => ofText head ++ ofBraced inner :: scan after
    | none => ofText head ++ [.text (String.ofList (opening ++ braced))]
termination_by rest.length
decreasing_by exact length_lt ‹_› ‹_›

theorem scan_of_none {rest : List Char} (h : cut opening rest = none) : scan rest = ofText rest := by
  rw [scan]
  split
  next => rfl
  next hopen =>
    rw [h] at hopen
    cases hopen

theorem scan_of_some {rest head braced inner after : List Char} (hopen : cut opening rest = some (head, braced))
    (hclose : cut closing braced = some (inner, after))
    : scan rest = ofText head ++ ofBraced inner :: scan after := by
  rw [scan]
  split
  next hnone =>
    rw [hopen] at hnone
    cases hnone
  next hsome =>
    rw [hopen] at hsome
    cases hsome
    split
    next hsome =>
      rw [hclose] at hsome
      cases hsome
      rfl
    next hnone =>
      rw [hclose] at hnone
      cases hnone

end Segment

open Segment

def segments (body : String) : List Segment :=
  scan body.toList

namespace PromptTemplate

variable (fmt : Rat → List Char) (t : PromptTemplate)

def title : String :=
  s!"prompt template `{t.name}` v{t.version}"

def checkVariables (seen : List String) : List VariableSpec → Except Error (List String)
  | [] => .ok seen
  | var :: vars =>
    if var.name ∈ seen then
      .error (.invalid s!"{t.title} declares variable `{var.name}` twice")
    else if var.default.any fun default => !var.varType.isMatch default then
      .error (.invalid s!"{t.title}: variable `{var.name}` default is not a {var.varType.label}")
    else
      checkVariables (var.name :: seen) vars

def checkSegments (seen : List String) : List Segment → Except Error Unit
  | [] => .ok ()
  | .text _ :: segments => checkSegments seen segments
  | .placeholder name :: segments =>
    if name ∈ seen then
      checkSegments seen segments
    else
      .error (.invalid (t.title ++ " references undeclared variable `\x7b\x7b" ++ name ++ "\x7d\x7d`"))

def validate : Except Error Unit :=
  if trim t.name = "" then
    .error (.invalid "prompt template name must not be empty")
  else if trim t.body = "" then
    .error (.invalid s!"{t.title} has an empty body")
  else
    match t.checkVariables [] t.vars with
    | .error e => .error e
    | .ok seen => t.checkSegments seen (segments t.body)

def valueText : Value → List Char
  | .string s => s.toList
  | value => Json.render fmt value

def fill (supplied : Std.ExtTreeMap String Value) (name : String) : Except Error (List Char) :=
  match t.vars.find? fun v => v.name = name with
  | none => .error (.invalid s!"{t.title} references undeclared variable `{name}`")
  | some spec =>
    match supplied[name]?.or spec.default with
    | none => .error (.invalid s!"{t.title} requires variable `{name}` and no default is declared")
    | some value =>
      if spec.varType.isMatch value then
        .ok (valueText fmt value)
      else
        .error (.invalid
          s!"{t.title}: variable `{name}` must be a {spec.varType.label}, got {String.ofList (Json.render fmt value)}")

def renderSegments (supplied : Std.ExtTreeMap String Value) : List Segment → Except Error (List Char)
  | [] => .ok []
  | .text s :: segments => do
    let rest ← renderSegments supplied segments
    return s.toList ++ rest
  | .placeholder name :: segments => do
    let value ← t.fill fmt supplied name
    let rest ← renderSegments supplied segments
    return value ++ rest

def render (supplied : Std.ExtTreeMap String Value) : Except Error String :=
  match supplied.keys.find? fun name => !t.vars.any fun v => v.name == name with
  | some name => .error (.invalid s!"{t.title} declares no variable `{name}`")
  | none => (t.renderSegments fmt supplied (segments t.body)).map String.ofList

end PromptTemplate

open PromptTemplate

structure PromptRegistry where
  templates : Std.ExtTreeMap String (Std.ExtTreeMap Nat PromptTemplate) := ∅

def PromptRegistry.register (registry : PromptRegistry) (t : PromptTemplate) : Except Error PromptRegistry :=
  match t.validate with
  | .error e => .error e
  | .ok () =>
    let versions := registry.templates[t.name]?.getD ∅
    if versions.contains t.version then
      .error (.conflict
        s!"{t.title} is already registered — versions are immutable, register a new version instead")
    else
      .ok { templates := registry.templates.insert t.name (versions.insert t.version t) }

-- From `i` to `k` the text has a placeholder.
structure HoleAt (cs : List Char) (i k : Nat) : Prop where
  opens : Occurs opening cs i
  le : i + 2 ≤ k
  closes : Occurs closing cs k
  name : isIdentifier (trim (String.ofList (cs.extract (i + 2) k))) = true

def HasHole (cs : List Char) : Prop :=
  ∃ i k, HoleAt cs i k

-- A placeholder stands behind an opening that is not closed before it.
def Nested (cs : List Char) : Prop :=
  ∃ j i k, j < i ∧ Occurs opening cs j ∧ HoleAt cs i k
    ∧ ∀ m, j ≤ m → m < k → ¬Occurs closing cs m

def literals : List Segment → List Char × List (List Char)
  | [] => ([], [])
  | .text s :: segments => (s.toList ++ (literals segments).1, (literals segments).2)
  | .placeholder _ :: segments => ([], (literals segments).1 :: (literals segments).2)

def Holed (segments : List Segment) : Prop :=
  HasHole (literals segments).1 ∨ ∃ cs ∈ (literals segments).2, HasHole cs

inductive Spelled : List Char → List Segment → Prop where
  | nil : Spelled [] []
  | text (s : String) {cs : List Char} {segments : List Segment} (h : Spelled cs segments)
    : Spelled (s.toList ++ cs) (.text s :: segments)
  | placeholder (front : List Char) (name : String) (back : List Char) {cs : List Char} {segments : List Segment}
    (hfront : ∀ c ∈ front, isWhitespace c = true) (hname : isIdentifier name = true)
    (hback : ∀ c ∈ back, isWhitespace c = true) (h : Spelled cs segments)
    : Spelled (opening ++ (front ++ name.toList ++ back) ++ closing ++ cs)
        (.placeholder name :: segments)

section

variable {c : Char} {cs rest : List Char} {i j k m : Nat} {s : String}

theorem HoleAt.pair_opening (h : HoleAt cs i k) : cs[i]? = some '\x7b' ∧ cs[i + 1]? = some '\x7b' :=
  (occurs_pair).mp h.opens

theorem isIdentifier_not_brace (h : isIdentifier s = true) : ∀ c ∈ s.toList, c ≠ '\x7b' ∧ c ≠ '\x7d' := by
  unfold isIdentifier at h
  split at h
  next => cases h
  next c cs heq =>
    rw [heq]
    simp only [Bool.and_eq_true, Bool.or_eq_true, beq_iff_eq, all_eq_true] at h
    intro d hd
    rw [mem_cons] at hd
    refine ⟨?_, ?_⟩
    . rintro rfl
      cases hd with
      | inl hd =>
        subst hd
        exact absurd h.1 (by decide)
      | inr hd => exact absurd (h.2 _ hd) (by decide)
    . rintro rfl
      cases hd with
      | inl hd =>
        subst hd
        exact absurd h.1 (by decide)
      | inr hd => exact absurd (h.2 _ hd) (by decide)

theorem not_brace_of_trim (h : isIdentifier (trim (String.ofList cs)) = true)
    : ∀ c ∈ cs, c ≠ '\x7b' ∧ c ≠ '\x7d' := by
  obtain ⟨front, back, heq, hfront, hback⟩ := trimMatches_append isWhitespace cs
  intro c hc
  rw [heq, mem_append, mem_append] at hc
  have hblank (hc : isWhitespace c = true) : c ≠ '\x7b' ∧ c ≠ '\x7d' := by
    refine ⟨?_, ?_⟩
    . rintro rfl
      exact absurd hc (by decide)
    . rintro rfl
      exact absurd hc (by decide)
  obtain (hc | hc) | hc := hc
  . exact hblank (hfront c hc)
  . exact isIdentifier_not_brace h c hc
  . exact hblank (hback c hc)

theorem HoleAt.getElem_inside (h : HoleAt cs i k) (hi : i + 2 ≤ m) (hk : m < k)
    : cs[m]? ≠ some '\x7b' ∧ cs[m]? ≠ some '\x7d' := by
  have hmem (c : Char) (hc : cs[m]? = some c) : c ∈ cs.extract (i + 2) k := by
    rw [extract_eq_take_drop]
    rw [mem_iff_getElem?]
    refine ⟨m - (i + 2), ?_⟩
    rw [getElem?_take_of_lt (by omega), getElem?_drop, Nat.add_sub_cancel' hi]
    exact hc
  refine ⟨?_, ?_⟩
  . intro hc
    exact (not_brace_of_trim h.name _ (hmem _ hc)).1 rfl
  . intro hc
    exact (not_brace_of_trim h.name _ (hmem _ hc)).2 rfl

namespace HoleAt

theorem not_closes (h : HoleAt cs i k) (hi : i ≤ m) (hk : m < k) : ¬Occurs closing cs m := by
  intro hm
  have hclose := ((occurs_pair).mp hm).1
  obtain ⟨hfirst, hsecond⟩ := h.pair_opening
  obtain rfl | rfl | hinside : m = i ∨ m = i + 1 ∨ i + 2 ≤ m := by omega
  . rw [hfirst] at hclose
    exact absurd hclose (by decide)
  . rw [hsecond] at hclose
    exact absurd hclose (by decide)
  . exact (h.getElem_inside hinside hk).2 hclose

theorem le_length (h : HoleAt cs i k) : k + 2 ≤ cs.length := by
  obtain ⟨hlt, -⟩ := List.getElem?_eq_some_iff.mp ((occurs_pair).mp h.closes).2
  exact hlt

theorem append_right (before : List Char)
    : HoleAt (before ++ cs) (before.length + i) (before.length + k) ↔ HoleAt cs i k := by
  have hextract : (before ++ cs).extract (before.length + i + 2) (before.length + k) = cs.extract (i + 2) k := by
    rw [extract_eq_take_drop, extract_eq_take_drop, Nat.add_assoc, drop_length_add_append]
    congr 1
    omega
  constructor
  . rintro ⟨hopens, hle, hcloses, hname⟩
    exact ⟨(occurs_append_right before).mp hopens, by omega, (occurs_append_right before).mp hcloses,
      hextract ▸ hname⟩
  . rintro ⟨hopens, hle, hcloses, hname⟩
    exact ⟨(occurs_append_right before).mpr hopens, by omega, (occurs_append_right before).mpr hcloses,
      hextract ▸ hname⟩

theorem append_iff (hk : k + 2 ≤ cs.length) : HoleAt (cs ++ rest) i k ↔ HoleAt cs i k := by
  have hget (n : Nat) (hn : n < cs.length) : (cs ++ rest)[n]? = cs[n]? := getElem?_append_left hn
  have hextract : (cs ++ rest).extract (i + 2) k = cs.extract (i + 2) k := by
    rw [extract_eq_take_drop, extract_eq_take_drop]
    apply ext_getElem?
    intro n
    by_cases hn : n < k - (i + 2)
    . rw [getElem?_take_of_lt hn, getElem?_take_of_lt hn, getElem?_drop, getElem?_drop]
      exact hget _ (by omega)
    . rw [getElem?_take_eq_none (by omega), getElem?_take_eq_none (by omega)]
  constructor
  . rintro ⟨hopens, hle, hcloses, hname⟩
    refine ⟨?_, hle, ?_, hextract ▸ hname⟩
    . rw [opening, occurs_pair, hget _ (by omega), hget _ (by omega)] at hopens
      exact (occurs_pair).mpr hopens
    . rw [closing, occurs_pair, hget _ (by omega), hget _ (by omega)] at hcloses
      exact (occurs_pair).mpr hcloses
  . rintro ⟨hopens, hle, hcloses, hname⟩
    refine ⟨?_, hle, ?_, hextract.symm ▸ hname⟩
    . rw [opening, occurs_pair, hget _ (by omega), hget _ (by omega)]
      exact (occurs_pair).mp hopens
    . rw [closing, occurs_pair, hget _ (by omega), hget _ (by omega)]
      exact (occurs_pair).mp hcloses

end HoleAt

theorem HasHole.append_left (h : HasHole rest) (before : List Char) : HasHole (before ++ rest) := by
  obtain ⟨i, k, h⟩ := h
  exact ⟨_, _, (HoleAt.append_right before).mpr h⟩

theorem HasHole.append_right (h : HasHole cs) (rest : List Char) : HasHole (cs ++ rest) := by
  obtain ⟨i, k, h⟩ := h
  exact ⟨i, k, (HoleAt.append_iff h.le_length).mpr h⟩

theorem Nested.append_left (h : Nested rest) (before : List Char) : Nested (before ++ rest) := by
  obtain ⟨j, i, k, hlt, hopens, hhole, hopen⟩ := h
  refine ⟨before.length + j, _, _, by omega, (occurs_append_right before).mpr hopens,
    (HoleAt.append_right before).mpr hhole, ?_⟩
  intro m hj hk
  obtain ⟨n, rfl⟩ := Nat.exists_eq_add_of_le (Nat.le_of_add_right_le hj)
  rw [occurs_append_right]
  exact hopen n (by omega) (by omega)

theorem not_hasHole (h : ∀ i, ¬Occurs opening cs i) : ¬HasHole cs := by
  rintro ⟨i, k, hhole⟩
  exact h i hhole.opens

theorem not_nested (h : ∀ i, ¬Occurs opening cs i) : ¬Nested cs := by
  rintro ⟨j, i, k, hlt, hopens, hhole, hopen⟩
  exact h j hopens

end

/--
A text with its first opening and the first closing behind it.
-/
structure Braced (cs head inner after : List Char) : Prop where
  eq : cs = head ++ opening ++ inner ++ closing ++ after
  first : ∀ i < head.length, ¬Occurs opening cs i
  closed : ∀ m, head.length ≤ m → m < head.length + 2 + inner.length → ¬Occurs closing cs m

theorem braced_of_cut {cs head braced inner after : List Char}
    (hopen : cut opening cs = some (head, braced))
    (hclose : cut closing braced = some (inner, after)) : Braced cs head inner after := by
  obtain ⟨hcs, hfirst⟩ := cut_eq_some hopen
  obtain ⟨hbraced, hclosed⟩ := cut_eq_some hclose
  refine ⟨?_, hfirst, ?_⟩
  . rw [hcs, hbraced]
    simp
  . intro m hle hlt hoccurs
    by_cases hm : m < head.length + 2
    . have hget : cs[m]? = some '\x7b' := by
        obtain rfl | rfl : m = head.length ∨ m = head.length + 1 := by omega
        . rw [hcs]
          simp [opening]
        . rw [hcs]
          simp [opening]
      rw [closing, occurs_pair, hget] at hoccurs
      exact absurd hoccurs.1 (by decide)
    . have hlength : (head ++ opening).length = head.length + 2 := by simp [opening]
      obtain ⟨n, rfl⟩ := Nat.exists_eq_add_of_le (Nat.le_of_not_lt hm)
      rw [hcs, ← hlength, occurs_append_right] at hoccurs
      exact hclosed n (by omega) hoccurs

namespace Braced

variable {cs head inner after : List Char} {i j k : Nat}

theorem front_eq (h : Braced cs head inner after)
    : cs = (head ++ opening ++ inner ++ closing) ++ after :=
  h.eq

theorem length_front
    : (head ++ opening ++ inner ++ closing).length = head.length + 2 + inner.length + 2 := by
  simp [opening, closing]
  omega

theorem occurs_closing (h : Braced cs head inner after)
    : Occurs closing cs (head.length + 2 + inner.length) := by
  have hlength : (head ++ opening ++ inner).length = head.length + 2 + inner.length := by
    simp [opening]
    omega
  rw [h.eq, ← hlength]
  exact occurs_append _ _ _

theorem inner_eq (h : Braced cs head inner after)
    : cs.extract (head.length + 2) (head.length + 2 + inner.length) = inner := by
  have hlength : (head ++ opening).length = head.length + 2 := by simp [opening]
  rw [h.eq, extract_eq_take_drop, Nat.add_sub_cancel_left, ← hlength]
  simp only [append_assoc]
  rw [← append_assoc head, drop_left, take_left]

theorem opening_cases (h : Braced cs head inner after) (hi : Occurs opening cs i)
    : head.length ≤ i ∧ (i + 2 ≤ head.length + 2 + inner.length ∨ head.length + 2 + inner.length + 2 ≤ i) := by
  have hle : head.length ≤ i := Nat.le_of_not_lt fun hlt => h.first i hlt hi
  obtain ⟨hfirst, hsecond⟩ := (occurs_pair).mp hi
  obtain ⟨hclose, hclose'⟩ := (occurs_pair).mp h.occurs_closing
  refine ⟨hle, ?_⟩
  by_contra hmid
  obtain hi | hi | hi : i + 1 = head.length + 2 + inner.length ∨ i = head.length + 2 + inner.length
      ∨ i = head.length + 2 + inner.length + 1 := by
    omega
  . rw [← hi, hsecond] at hclose
    exact absurd hclose (by decide)
  . rw [← hi, hfirst] at hclose
    exact absurd hclose (by decide)
  . rw [← hi, hfirst] at hclose'
    exact absurd hclose' (by decide)

theorem hole_cases (h : Braced cs head inner after) (hhole : HoleAt cs i k)
    : head.length + 2 + inner.length + 2 ≤ i
      ∨ head.length ≤ i ∧ i + 2 ≤ head.length + 2 + inner.length ∧ k = head.length + 2 + inner.length := by
  obtain ⟨hle, hi | hi⟩ := h.opening_cases hhole.opens
  . right
    refine ⟨hle, hi, ?_⟩
    have hge : head.length + 2 + inner.length ≤ k := by
      by_contra hlt
      have := hhole.le
      exact h.closed k (by omega) (Nat.lt_of_not_le hlt) hhole.closes
    have hle : k ≤ head.length + 2 + inner.length := by
      by_contra hlt
      exact hhole.not_closes (by omega) (Nat.lt_of_not_le hlt) h.occurs_closing
    omega
  . exact .inl hi

theorem nested_cases (h : Braced cs head inner after) (hnested : Nested cs)
    : Nested after ∨ ∃ i, head.length < i ∧ HoleAt cs i (head.length + 2 + inner.length) := by
  obtain ⟨j, i, k, hlt, hopens, hhole, hopen⟩ := hnested
  obtain ⟨hle, hj | hj⟩ := h.opening_cases hopens
  . right
    have hk : k ≤ head.length + 2 + inner.length := by
      by_contra hlt
      exact hopen _ (by omega) (Nat.lt_of_not_le hlt) h.occurs_closing
    obtain hi | ⟨-, -, rfl⟩ := h.hole_cases hhole
    . have := hhole.le
      omega
    . exact ⟨i, by omega, hhole⟩
  . left
    obtain ⟨j, rfl⟩ := Nat.exists_eq_add_of_le hj
    obtain ⟨i, rfl⟩ := Nat.exists_eq_add_of_le (Nat.le_trans hj hlt.le)
    have hk := Nat.le_of_add_right_le hhole.le
    obtain ⟨k, rfl⟩ := Nat.exists_eq_add_of_le (Nat.le_trans (Nat.le_trans hj hlt.le) hk)
    rw [h.front_eq, ← length_front] at hopens hhole
    refine ⟨j, i, k, by omega, (occurs_append_right _).mp hopens, (HoleAt.append_right _).mp hhole, ?_⟩
    intro m hm hmk
    have hopen' := hopen (head.length + 2 + inner.length + 2 + m) (by omega) (by omega)
    rw [h.front_eq, ← length_front, occurs_append_right] at hopen'
    exact hopen'

end Braced

section

variable {cs head inner after rest : List Char} {segments : List Segment}

theorem literals_ofText_append (head : List Char) (segments : List Segment)
    : literals (ofText head ++ segments) = (head ++ (literals segments).1, (literals segments).2) := by
  unfold ofText
  split
  next h =>
    subst h
    rfl
  next =>
    rw [singleton_append, literals, String.toList_ofList]

theorem prefix_literals_scan (rest : List Char) : (literals (scan rest)).1 <+: rest := by
  fun_induction scan rest with
  | case1 rest h =>
    have hliterals := literals_ofText_append rest []
    rw [append_nil] at hliterals
    rw [hliterals, literals]
    exact ⟨[], by simp⟩
  | case2 rest head braced hopen inner after hclose ih =>
    have hbraced := braced_of_cut hopen hclose
    rw [literals_ofText_append, ofBraced]
    dsimp only
    split
    . rw [literals, append_nil, hbraced.eq]
      simp only [append_assoc]
      exact prefix_append _ _
    . obtain ⟨back, hback⟩ := ih
      refine ⟨back, ?_⟩
      rw [literals, String.toList_ofList]
      dsimp only
      rw [hbraced.eq]
      simp only [append_assoc]
      rw [hback]
  | case3 rest head braced hopen hclose =>
    rw [literals_ofText_append, literals, literals, String.toList_ofList, (cut_eq_some hopen).1]
    simp

theorem holed_text_iff {head : List Char} (h : ¬HasHole head)
    : Holed (ofText head) ↔ False := by
  have hliterals := literals_ofText_append head []
  rw [append_nil] at hliterals
  simp [Holed, hliterals, literals, h]

theorem Braced.holed_placeholder_iff {name : String} (h : Braced cs head inner after)
    (hname : isIdentifier (trim (String.ofList inner)) = true) (ih : Holed segments ↔ Nested after)
    : Holed (ofText head ++ .placeholder name :: segments) ↔ Nested cs := by
  have hhead : ¬HasHole head := by
    rintro ⟨i, k, hhole⟩
    have hlength := hhole.le_length
    have hle := hhole.le
    have hhole' : HoleAt cs i k := by
      rw [h.eq]
      simp only [append_assoc]
      exact (HoleAt.append_iff hlength).mpr hhole
    exact h.first i (by omega) hhole'.opens
  have hholed : Holed (ofText head ++ .placeholder name :: segments) ↔ Holed segments := by
    unfold Holed
    rw [literals_ofText_append, literals]
    simp [hhead]
  rw [hholed, ih]
  constructor
  . intro hafter
    rw [h.eq]
    exact hafter.append_left _
  . intro hnested
    obtain hafter | ⟨i, hlt, hhole⟩ := h.nested_cases hnested
    . exact hafter
    . have hbrace := hhole.pair_opening.2
      have hle := hhole.le
      have hmem : '\x7b' ∈ inner := by
        rw [← h.inner_eq, extract_eq_take_drop, mem_iff_getElem?]
        refine ⟨i + 1 - (head.length + 2), ?_⟩
        rw [getElem?_take_of_lt (by omega), getElem?_drop, Nat.add_sub_cancel' (by omega)]
        exact hbrace
      exact absurd rfl (not_brace_of_trim hname _ hmem).1

theorem Braced.holed_text_iff (h : Braced cs head inner after)
    (hname : ¬isIdentifier (trim (String.ofList inner)) = true) (hwithin : (literals segments).1 <+: after)
    (ih : Holed segments ↔ Nested after)
    : Holed (ofText head ++ .text (String.ofList (opening ++ inner ++ closing)) :: segments)
        ↔ Nested cs := by
  obtain ⟨back, hback⟩ := hwithin
  have hliterals : literals (ofText head
      ++ .text (String.ofList (opening ++ inner ++ closing)) :: segments)
      = (head ++ opening ++ inner ++ closing ++ (literals segments).1, (literals segments).2) := by
    rw [literals_ofText_append, literals, String.toList_ofList]
    simp
  unfold Holed at ih ⊢
  rw [hliterals]
  dsimp only
  constructor
  . rintro (⟨i, k, hhole⟩ | hlater)
    . have hhole' : HoleAt cs i k := by
        have hmore : HoleAt (_ ++ back) i k := (HoleAt.append_iff hhole.le_length).mpr hhole
        rw [append_assoc, hback] at hmore
        rw [h.eq]
        exact hmore
      obtain hi | ⟨hle, hi, rfl⟩ := h.hole_cases hhole'
      . obtain ⟨n, rfl⟩ := Nat.exists_eq_add_of_le hi
        obtain ⟨l, rfl⟩ := Nat.exists_eq_add_of_le (Nat.le_trans hi (Nat.le_of_add_right_le hhole.le))
        rw [← length_front, HoleAt.append_right] at hhole
        rw [h.eq]
        exact (ih.mp (.inl ⟨n, l, hhole⟩)).append_left _
      . have hlt : head.length < i := by
          apply Nat.lt_of_le_of_ne hle
          rintro rfl
          apply hname
          rw [← h.inner_eq]
          exact hhole'.name
        have hopens : Occurs opening cs head.length := by
          rw [h.eq]
          simp only [append_assoc]
          rw [← append_assoc]
          exact occurs_append _ _ _
        exact ⟨head.length, i, _, hlt, hopens, hhole', h.closed⟩
    . rw [h.eq]
      exact (ih.mp (.inr hlater)).append_left _
  . intro hnested
    obtain hafter | ⟨i, -, hhole⟩ := h.nested_cases hnested
    . obtain hfirst | hlater := ih.mpr hafter
      . exact .inl (hfirst.append_left _)
      . exact .inr hlater
    . left
      rw [h.eq] at hhole
      have hhole' := (HoleAt.append_iff (by rw [length_front])).mp hhole
      exact HasHole.append_right ⟨_, _, hhole'⟩ _

theorem not_hasHole_of_unclosed {braced : List Char} (hopen : cut opening rest = some (head, braced))
    (hclose : cut closing braced = none) : ¬HasHole rest := by
  obtain ⟨hrest, hfirst⟩ := cut_eq_some hopen
  rintro ⟨i, k, hhole⟩
  have hle : head.length ≤ i := Nat.le_of_not_lt fun hlt => hfirst i hlt hhole.opens
  have hlength : (head ++ opening).length = head.length + 2 := by simp [opening]
  have hcloses := hhole.closes
  obtain ⟨n, rfl⟩ := Nat.exists_eq_add_of_le (Nat.le_trans (Nat.add_le_add_right hle 2) hhole.le)
  rw [hrest, ← hlength, occurs_append_right] at hcloses
  exact cut_eq_none (by decide) hclose n hcloses

theorem holed_scan_iff (rest : List Char) : Holed (scan rest) ↔ Nested rest := by
  fun_induction scan rest with
  | case1 rest h =>
    have hnone := cut_eq_none (by decide) h
    rw [holed_text_iff (not_hasHole hnone)]
    exact ⟨False.elim, not_nested hnone⟩
  | case2 rest head braced hopen inner after hclose ih =>
    have hbraced := braced_of_cut hopen hclose
    unfold ofBraced
    dsimp only
    split
    next hname => exact hbraced.holed_placeholder_iff hname ih
    next hname => exact hbraced.holed_text_iff hname (prefix_literals_scan after) ih
  | case3 rest head braced hopen hclose =>
    have hhole := not_hasHole_of_unclosed hopen hclose
    have hliterals : literals (ofText head ++ [.text (String.ofList (opening ++ braced))])
        = (rest, []) := by
      rw [literals_ofText_append, literals, literals, String.toList_ofList, (cut_eq_some hopen).1]
      simp
    unfold Holed
    rw [hliterals]
    constructor
    . rintro (hfirst | ⟨cs, hcs, -⟩)
      . exact absurd hfirst hhole
      . cases hcs
    . rintro ⟨j, i, k, -, -, hnested, -⟩
      exact absurd ⟨i, k, hnested⟩ hhole

theorem Spelled.ofText_append (head : List Char) (h : Spelled cs segments)
    : Spelled (head ++ cs) (ofText head ++ segments) := by
  unfold ofText
  split
  next hnil =>
    subst hnil
    exact h
  next =>
    have htext := Spelled.text (String.ofList head) h
    rw [String.toList_ofList] at htext
    exact htext

theorem Spelled.ofBraced_cons (inner : List Char) (h : Spelled cs segments)
    : Spelled (opening ++ inner ++ closing ++ cs) (ofBraced inner :: segments) := by
  unfold ofBraced
  dsimp only
  split
  next hname =>
    obtain ⟨front, back, heq, hfront, hback⟩ := trimMatches_append isWhitespace inner
    have hplaceholder := Spelled.placeholder front (trim (String.ofList inner)) back hfront hname hback h
    rw [trim, ← heq] at hplaceholder
    exact hplaceholder
  next =>
    have htext := Spelled.text (String.ofList (opening ++ inner ++ closing)) h
    rw [String.toList_ofList] at htext
    exact htext

theorem spelled_scan (rest : List Char) : Spelled rest (scan rest) := by
  fun_induction scan rest with
  | case1 rest h =>
    have htext := Spelled.ofText_append rest .nil
    rw [append_nil, append_nil] at htext
    exact htext
  | case2 rest head braced hopen inner after hclose ih =>
    have hspelled := (ih.ofBraced_cons inner).ofText_append head
    rw [(braced_of_cut hopen hclose).eq]
    simp only [append_assoc] at hspelled ⊢
    exact hspelled
  | case3 rest head braced hopen hclose =>
    have hspelled := (Spelled.text (String.ofList (opening ++ braced)) .nil).ofText_append head
    rw [String.toList_ofList, append_nil, ← append_assoc, ← (cut_eq_some hopen).1] at hspelled
    exact hspelled

end

namespace PromptTemplate

variable {fmt : Rat → List Char} {t : PromptTemplate} {supplied : Std.ExtTreeMap String Value}

inductive Filled (fmt : Rat → List Char) (t : PromptTemplate) (supplied : Std.ExtTreeMap String Value)
    : List Segment → List Char → Prop where
  | nil : Filled fmt t supplied [] []
  | text (s : String) {segments : List Segment} {out : List Char} (h : Filled fmt t supplied segments out)
    : Filled fmt t supplied (.text s :: segments) (s.toList ++ out)
  | placeholder {name : String} {spec : VariableSpec} {value : Value} {segments : List Segment} {out : List Char}
    (hspec : t.vars.find? (fun v => v.name = name) = some spec) (hvalue : supplied[name]?.or spec.default = some value)
    (htype : spec.varType.isMatch value = true) (h : Filled fmt t supplied segments out)
    : Filled fmt t supplied (.placeholder name :: segments) (valueText fmt value ++ out)

theorem filled_of_renderSegments {segments : List Segment} {out : List Char}
    (h : t.renderSegments fmt supplied segments = .ok out) : Filled fmt t supplied segments out := by
  induction segments generalizing out with
  | nil =>
    cases h
    exact .nil
  | cons segment segments ih =>
    cases segment with
    | text s =>
      rw [renderSegments] at h
      cases hrest : t.renderSegments fmt supplied segments with
      | error e =>
        rw [hrest] at h
        cases h
      | ok rest =>
        rw [hrest] at h
        cases h
        exact .text s (ih hrest)
    | placeholder name =>
      rw [renderSegments] at h
      cases hfill : t.fill fmt supplied name with
      | error e =>
        rw [hfill] at h
        cases h
      | ok value =>
        cases hrest : t.renderSegments fmt supplied segments with
        | error e =>
          rw [hfill, hrest] at h
          cases h
        | ok rest =>
          rw [hfill, hrest] at h
          cases h
          unfold fill at hfill
          split at hfill
          next => cases hfill
          next spec hspec =>
            split at hfill
            next => cases hfill
            next v hvalue =>
              split at hfill
              next htype =>
                cases hfill
                exact .placeholder hspec hvalue htype (ih hrest)
              next => cases hfill

theorem filled_of_render {out : String} (h : t.render fmt supplied = .ok out)
    : Filled fmt t supplied (segments t.body) out.toList := by
  unfold render at h
  split at h
  next => cases h
  next =>
    cases hrender : t.renderSegments fmt supplied (segments t.body) with
    | error e =>
      rw [hrender] at h
      cases h
    | ok cs =>
      rw [hrender] at h
      cases h
      rw [String.toList_ofList]
      exact filled_of_renderSegments hrender

/--
The output is the body with the values in the place of the placeholders, and nothing that it has kept of the body
is a placeholder.
-/
structure Whole (fmt : Rat → List Char) (t : PromptTemplate) (supplied : Std.ExtTreeMap String Value) (out : String)
    : Prop where
  spelled : Spelled t.body.toList (segments t.body)
  filled : Filled fmt t supplied (segments t.body) out.toList
  noHole : ¬Holed (segments t.body)

end PromptTemplate

theorem PromptRegistry.whole_iff_not_nested {fmt : Rat → List Char} {registry registry' : PromptRegistry}
    {t : PromptTemplate} {supplied : Std.ExtTreeMap String Value} {out : String}
    (_hregister : registry.register t = .ok registry')
    (hrender : t.render fmt supplied = .ok out) : t.Whole fmt supplied out ↔ ¬Nested t.body.toList := by
  constructor
  . intro h
    rw [← holed_scan_iff]
    exact h.noHole
  . intro h
    refine ⟨spelled_scan _, filled_of_render hrender, ?_⟩
    rw [segments, holed_scan_iff]
    exact h

namespace PromptTemplate

def friendly : PromptTemplate where
  name := "greeting"
  version := 1
  body := "Be \x7b\x7b tone \x7d\x7d."
  vars := [{ name := "tone", default := some (.string "kind") }]

def tripled : PromptTemplate where
  name := "greeting"
  version := 2
  body := "\x7b\x7b\x7btone\x7d\x7d\x7d"

theorem segments_friendly : segments friendly.body = [.text "Be ", .placeholder "tone", .text "."] := by
  have hopen : cut opening friendly.body.toList = some ("Be ".toList, " tone \x7d\x7d.".toList) := by decide
  have hclose : cut closing " tone \x7d\x7d.".toList = some (" tone ".toList, ".".toList) := by decide
  have hrest : cut opening ".".toList = none := by decide
  rw [segments, scan_of_some hopen hclose, scan_of_none hrest]
  decide

theorem segments_tripled : segments tripled.body = [.text "\x7b\x7b\x7btone\x7d\x7d", .text "\x7d"] := by
  have hopen : cut opening tripled.body.toList = some ([], "\x7btone\x7d\x7d\x7d".toList) := by decide
  have hclose : cut closing "\x7btone\x7d\x7d\x7d".toList = some ("\x7btone".toList, "\x7d".toList) := by
    decide
  have hrest : cut opening "\x7d".toList = none := by decide
  rw [segments, scan_of_some hopen hclose, scan_of_none hrest]
  decide

theorem register_of_validate {t : PromptTemplate} (h : t.validate = .ok ())
    : ∃ registry, PromptRegistry.register {} t = .ok registry := by
  unfold PromptRegistry.register
  rw [h]
  dsimp only
  rw [if_neg]
  . exact ⟨_, rfl⟩
  . simp

theorem validate_friendly : friendly.validate = .ok () := by
  rw [validate, if_neg (by decide), if_neg (by decide), segments_friendly]
  rfl

theorem validate_tripled : tripled.validate = .ok () := by
  rw [validate, if_neg (by decide), if_neg (by decide), segments_tripled]
  rfl

theorem render_empty (t : PromptTemplate)
    : t.render fmt ∅ = (t.renderSegments fmt ∅ (segments t.body)).map String.ofList := by
  have hkeys : (∅ : Std.ExtTreeMap String Value).keys = [] := rfl
  rw [render, hkeys]
  rfl

theorem render_friendly : friendly.render (fun _ => []) ∅ = .ok "Be kind." := by
  rw [render_empty, segments_friendly]
  rfl

theorem render_tripled : tripled.render (fun _ => []) ∅ = .ok tripled.body := by
  rw [render_empty, segments_tripled]
  rfl

theorem not_nested_friendly : ¬Nested friendly.body.toList := by
  have hopens (i : Nat) (h : Occurs opening friendly.body.toList i) : i = 3 := by
    have hfirst := ((occurs_pair).mp h).1
    obtain ⟨hlt, -⟩ := List.getElem?_eq_some_iff.mp hfirst
    have hlength : friendly.body.toList.length = 14 := by decide
    rw [hlength] at hlt
    revert h
    unfold Occurs
    interval_cases i <;> decide
  rintro ⟨j, i, k, hlt, hj, hhole, -⟩
  have := hopens j hj
  have := hopens i hhole.opens
  omega

theorem nested_tripled : Nested tripled.body.toList := by
  have hhole : HoleAt tripled.body.toList 1 7 := by
    refine ⟨?_, by decide, ?_, by decide⟩
    . unfold Occurs
      decide
    . unfold Occurs
      decide
  unfold Nested Occurs
  refine ⟨0, 1, 7, by decide, by decide, hhole, ?_⟩
  intro m _ hm
  interval_cases m <;> decide

end PromptTemplate

theorem PromptRegistry.whole_friendly : friendly.Whole (fun _ => []) ∅ "Be kind." := by
  obtain ⟨registry, hregister⟩ := register_of_validate validate_friendly
  exact (PromptRegistry.whole_iff_not_nested hregister render_friendly).mpr
    not_nested_friendly

-- The template is registered, and what it is rendered to is its body with the placeholder in it.
theorem PromptRegistry.not_whole_tripled
    : (∃ registry, PromptRegistry.register {} tripled = .ok registry)
        ∧ tripled.render (fun _ => []) ∅ = .ok tripled.body
        ∧ ¬tripled.Whole (fun _ => []) ∅ tripled.body := by
  refine ⟨register_of_validate validate_tripled, render_tripled, ?_⟩
  intro h
  apply h.noHole
  rw [segments, holed_scan_iff]
  exact nested_tripled

end Wovyr.Agent
