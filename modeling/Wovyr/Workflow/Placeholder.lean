import Wovyr.Workflow.Condition

/-!
This module contains what a text with placeholders stands for segment by segment, and for which texts the
resolution of inputs agrees with it.
-/

namespace Wovyr.Workflow.Template

open List

def opening : List Char := ['$', '\x7b']

structure Literal where
  text : List Char
  free : ¬opening <:+: text

structure Placeholder where
  path : List Char
  closed : '\x7d' ∉ path

namespace Placeholder

def text (p : Placeholder) : List Char :=
  opening ++ p.path ++ ['\x7d']

def value (vars : Variables) (p : Placeholder) : Value :=
  lookupPath vars (Text.trim (String.ofList p.path))

end Placeholder

/--
The segments of a text. After the first literal, every placeholder has the literal that follows it.
-/
structure Segments where
  first : Literal
  rest : List (Placeholder × Literal)

namespace Segments

def text (s : Segments) : List Char :=
  s.first.text ++ s.rest.flatMap fun (placeholder, literal) => placeholder.text ++ literal.text

def filled (p : Platform) (vars : Variables) (s : Segments) : List Char :=
  s.first.text ++ s.rest.flatMap fun (placeholder, literal) =>
    valueToString p (placeholder.value vars) ++ literal.text

end Segments

def IsPlaceholder (s : String) (placeholder : Placeholder) : Prop :=
  (Text.trim s).toList = placeholder.text

/--
The text is resolved segment by segment: to the value itself if it is one placeholder, and else to the
literals with the values between them.
-/
structure Segmentwise (p : Platform) (vars : Variables) (segments : Segments) : Prop where
  sole : ∀ placeholder, IsPlaceholder (String.ofList segments.text) placeholder →
    resolve p vars (.string (String.ofList segments.text)) = placeholder.value vars
  filled : (∀ placeholder, ¬IsPlaceholder (String.ofList segments.text) placeholder) →
    resolve p vars (.string (String.ofList segments.text))
      = .string (String.ofList (segments.filled p vars))

-- What stands between the outermost braces has no closing brace of its own.
def Steady (s : String) : Prop :=
  ∀ path, (Text.trim s).toList = opening ++ path ++ ['\x7d'] → '\x7d' ∉ path

section

variable {p : Platform} {vars : Variables}

theorem closing_append {path : List Char} (hclosed : '\x7d' ∉ path) (rest : List Char)
    : closing (path ++ '\x7d' :: rest) = some (path, rest) := by
  induction path with
  | nil => rfl
  | cons c path ih =>
    rw [mem_cons, not_or] at hclosed
    rw [cons_append, closing, ih hclosed.2]
    . rfl
    . rintro rfl
      exact hclosed.1 rfl

theorem embed_cons {c : Char} {rest : List Char} (h : ¬opening <+: c :: rest)
    : embed p vars (c :: rest) = c :: embed p vars rest := by
  rw [embed]
  rintro after rfl rfl
  exact h (prefix_append opening after)

def Follows (tail : List Char) : Prop :=
  tail = [] ∨ opening <+: tail

theorem Follows.not_brace {tail : List Char} (h : Follows tail) (rest : List Char) : tail ≠ '\x7b' :: rest := by
  rintro rfl
  cases h with
  | inl h => cases h
  | inr h =>
    obtain ⟨t, ht⟩ := h
    simp [opening] at ht

theorem not_opening_append {c : Char} {text tail : List Char} (hfree : ¬opening <:+: c :: text)
    (htail : Follows tail) : ¬opening <+: c :: (text ++ tail) := by
  rintro ⟨t, ht⟩
  simp only [opening, cons_append, nil_append, cons.injEq] at ht
  obtain ⟨rfl, ht⟩ := ht
  cases text with
  | nil => exact htail.not_brace t ht.symm
  | cons d text =>
    simp only [cons_append, cons.injEq] at ht
    obtain ⟨rfl, -⟩ := ht
    exact hfree ⟨[], text, rfl⟩

theorem embed_literal {text tail : List Char} (hfree : ¬opening <:+: text) (htail : Follows tail)
    : embed p vars (text ++ tail) = text ++ embed p vars tail := by
  induction text with
  | nil => rfl
  | cons c text ih =>
    rw [cons_append, embed_cons (not_opening_append hfree htail), ih, cons_append]
    intro hwithin
    exact hfree (hwithin.trans (suffix_cons c text).isInfix)

theorem embed_placeholder (placeholder : Placeholder) (tail : List Char)
    : embed p vars (placeholder.text ++ tail)
        = valueToString p (placeholder.value vars) ++ embed p vars tail := by
  have htext : placeholder.text ++ tail = '$' :: '\x7b' :: (placeholder.path ++ '\x7d' :: tail) := by
    simp [Placeholder.text, opening]
  rw [htext, embed]
  have hclosing := closing_append placeholder.closed tail
  split
  next h => rw [hclosing] at h; cases h
  next path rest h =>
    rw [hclosing] at h
    cases h
    rfl

theorem follows_rest (rest : List (Placeholder × Literal))
    : Follows (rest.flatMap fun (placeholder, literal) => placeholder.text ++ literal.text) := by
  cases rest with
  | nil => exact .inl rfl
  | cons segment rest =>
    refine .inr ?_
    simp only [flatMap_cons, Placeholder.text, append_assoc]
    exact prefix_append _ _

theorem embed_text (segments : Segments)
    : embed p vars segments.text = segments.filled p vars := by
  unfold Segments.text Segments.filled
  rw [embed_literal segments.first.free (follows_rest _)]
  congr 1
  induction segments.rest with
  | nil => rw [flatMap_nil, flatMap_nil, embed]
  | cons segment rest ih =>
    rw [flatMap_cons, flatMap_cons, append_assoc, embed_placeholder,
      embed_literal segment.2.free (follows_rest _), ih, append_assoc]

theorem stripped_eq_some {s : String} {path : String}
    : (Text.stripPrefix "$\x7b" (Text.trim s)).bind (Text.stripSuffix "\x7d") = some path
        ↔ (Text.trim s).toList = opening ++ path.toList ++ ['\x7d'] := by
  simp only [Option.bind_eq_some_iff, Text.stripPrefix_eq_some, Text.stripSuffix_eq_some]
  rw [exists_eq_right, ← String.toList_inj, String.toList_append, String.toList_append, append_assoc]
  rfl

theorem substitute_of_wrapped {s : String} {path : List Char}
    (h : (Text.trim s).toList = opening ++ path ++ ['\x7d'])
    : substitute p vars s = lookupPath vars (Text.trim (String.ofList path)) := by
  unfold substitute
  rw [(stripped_eq_some).mpr (h.trans (by rw [String.toList_ofList]))]

theorem substitute_of_not_wrapped {s : String}
    (h : ∀ path, (Text.trim s).toList ≠ opening ++ path ++ ['\x7d'])
    : substitute p vars s = .string (String.ofList (embed p vars s.toList)) := by
  unfold substitute
  split
  next path hpath => exact absurd ((stripped_eq_some).mp hpath) (h path.toList)
  next => rfl

theorem lookupPath_empty (path : String) : lookupPath ∅ path = .null := by
  unfold lookupPath
  split
  . rfl
  . next head parts _ =>
    rw [Std.ExtTreeMap.getElem?_empty]

end

/--
A text is resolved segment by segment, whatever the variables are, if and only if it is no text that begins
with an opening brace of a placeholder and ends with a closing one of another or of none.
-/
theorem segmentwise_iff_steady (p : Platform) (segments : Segments)
    : (∀ vars, Segmentwise p vars segments) ↔ Steady (String.ofList segments.text) := by
  constructor
  . intro h path hpath hclosed
    have hnone (placeholder : Placeholder) : ¬IsPlaceholder (String.ofList segments.text) placeholder := by
      intro his
      have heq : opening ++ path ++ ['\x7d'] = opening ++ placeholder.path ++ ['\x7d'] := hpath.symm.trans his
      rw [append_cancel_right_eq, append_cancel_left_eq] at heq
      exact placeholder.closed (heq ▸ hclosed)
    have hfilled := (h ∅).filled hnone
    rw [resolve, substitute_of_wrapped hpath, lookupPath_empty] at hfilled
    cases hfilled
  . intro hsteady vars
    refine ⟨?_, ?_⟩
    . intro placeholder his
      rw [resolve]
      exact substitute_of_wrapped his
    . intro hnone
      rw [resolve, substitute_of_not_wrapped, String.toList_ofList, embed_text]
      intro path hpath
      exact hnone ⟨path, hsteady path hpath⟩ hpath

namespace Greeting

def named (path : List Char) (h : '\x7d' ∉ path) : Placeholder where
  path
  closed := h

def segments : Segments where
  first := { text := [], free := by decide }
  rest := [
    (named ['a'] (by decide), { text := [' ', '&', ' '], free := by decide }),
    (named ['b'] (by decide), { text := [], free := by decide })]

def guests : Variables :=
  (∅ : Variables).insert "a" (.string "Ann") |>.insert "b" (.string "Ben")

end Greeting

-- The result is null instead of the two names.
theorem greeting_null
    : String.ofList Greeting.segments.text = "$\x7ba\x7d & $\x7bb\x7d"
        ∧ Greeting.segments.filled .integral Greeting.guests = "Ann & Ben".toList
        ∧ resolve .integral Greeting.guests (.string "$\x7ba\x7d & $\x7bb\x7d") = .null
        ∧ ¬Segmentwise .integral Greeting.guests Greeting.segments := by
  have htext : String.ofList Greeting.segments.text = "$\x7ba\x7d & $\x7bb\x7d" := by decide
  have hnull : resolve .integral Greeting.guests (.string "$\x7ba\x7d & $\x7bb\x7d") = .null := by
    decide
  refine ⟨htext, by decide, hnull, ?_⟩
  intro h
  have hfilled := h.filled (by
    intro placeholder his
    have hpath : ['a', '\x7d', ' ', '&', ' ', '$', '\x7b', 'b'] = placeholder.path := by
      have htrim : (Text.trim (String.ofList Greeting.segments.text)).toList
          = opening ++ ['a', '\x7d', ' ', '&', ' ', '$', '\x7b', 'b'] ++ ['\x7d'] := by
        decide
      have heq := htrim.symm.trans his
      rwa [Placeholder.text, append_cancel_right_eq, append_cancel_left_eq] at heq
    exact placeholder.closed (hpath ▸ by decide))
  rw [htext, hnull] at hfilled
  cases hfilled

end Wovyr.Workflow.Template
