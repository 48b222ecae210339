import Wovyr.Lib.Except

/-!
This module contains semantic versions: their grammar and their order. As in the `semver` crate, the
order is total and takes build metadata into account, after everything else.
-/

namespace Semver

inductive Position where
  | major
  | minor
  | patch
  | pre
  | build
deriving Repr, DecidableEq

def Position.display : Position → String
  | .major => "major version number"
  | .minor => "minor version number"
  | .patch => "patch version number"
  | .pre => "pre-release identifier"
  | .build => "build metadata"

inductive ParseError where
  | empty
  | unexpectedEnd (pos : Position)
  | unexpectedChar (pos : Position) (c : Char)
  | unexpectedCharAfter (pos : Position) (c : Char)
  | leadingZero (pos : Position)
  | overflow (pos : Position)
  | emptySegment (pos : Position)
deriving Repr, DecidableEq

def quotedChar (c : Char) : String :=
  "'" ++ c.toString ++ "'"

def ParseError.display : ParseError → String
  | .empty => "empty string, expected a semver version"
  | .unexpectedEnd pos => "unexpected end of input while parsing " ++ pos.display
  | .unexpectedChar pos c =>
    "unexpected character " ++ quotedChar c ++ " while parsing " ++ pos.display
  | .unexpectedCharAfter pos c => "unexpected character " ++ quotedChar c ++ " after " ++ pos.display
  | .leadingZero pos => "invalid leading zero in " ++ pos.display
  | .overflow pos => "value of " ++ pos.display ++ " exceeds u64::MAX"
  | .emptySegment pos => "empty identifier segment in " ++ pos.display

structure Version where
  major : Nat
  minor : Nat
  patch : Nat
  pre : List (List Char)
  build : List (List Char)
deriving Repr, DecidableEq

def numericIdentifier (pos : Position) (input : List Char)
    : Except ParseError (Nat × List Char) :=
  go 0 0 input
where
  go (len value : Nat) (input : List Char) : Except ParseError (Nat × List Char) :=
    match input with
    | c :: rest =>
      if c.isDigit then
        if value = 0 ∧ 0 < len then
          .error (.leadingZero pos)
        else
          let value := value * 10 + (c.toNat - 48)
          if value < 2 ^ 64 then go (len + 1) value rest else .error (.overflow pos)
      else if 0 < len then
        .ok (value, c :: rest)
      else
        .error (.unexpectedChar pos c)
    | [] => if 0 < len then .ok (value, []) else .error (.unexpectedEnd pos)

def dot (pos : Position) (input : List Char) : Except ParseError (List Char) :=
  match input with
  | '.' :: rest => .ok rest
  | c :: _ => .error (.unexpectedCharAfter pos c)
  | [] => .error (.unexpectedEnd pos)

def isIdentifierChar (c : Char) : Bool :=
  c.isAlphanum || c == '-'

def identifiers (pos : Position) (input : List Char)
    : Except ParseError (List (List Char) × List Char) :=
  go [] [] input
where
  finish (done : List (List Char)) (segment rest : List Char)
      : Except ParseError (List (List Char) × List Char) :=
    if segment = [] then
      if done = [] ∧ rest.head? ≠ some '.' then .ok ([], rest) else .error (.emptySegment pos)
    else if pos = .pre ∧ segment.all Char.isDigit ∧ 1 < segment.length
        ∧ segment.head? = some '0' then
      .error (.leadingZero pos)
    else
      .ok (done ++ [segment], rest)
  go (done : List (List Char)) (segment : List Char)
      : List Char → Except ParseError (List (List Char) × List Char)
    | [] => finish done segment []
    | c :: rest =>
      if isIdentifierChar c then
        go done (segment ++ [c]) rest
      else if c = '.' then
        match finish done segment (c :: rest) with
        | .error e => .error e
        | .ok (done, _) => go done [] rest
      else
        finish done segment (c :: rest)

def suffix (pos : Position) (mark : Char) (input : List Char)
    : Except ParseError (List (List Char) × List Char) :=
  match input with
  | c :: rest =>
    if c = mark then
      match identifiers pos rest with
      | .error e => .error e
      | .ok ([], _) => .error (.emptySegment pos)
      | .ok r => .ok r
    else
      .ok ([], c :: rest)
  | [] => .ok ([], [])

def parse (text : String) : Except ParseError Version := do
  if text.toList = [] then
    throw .empty
  let (major, input) ← numericIdentifier .major text.toList
  let input ← dot .major input
  let (minor, input) ← numericIdentifier .minor input
  let input ← dot .minor input
  let (patch, input) ← numericIdentifier .patch input
  let (pre, input) ← suffix .pre '-' input
  let (build, input) ← suffix .build '+' input
  match input with
  | [] => return { major, minor, patch, pre, build }
  | c :: _ =>
    let pos := if build ≠ [] then Position.build else if pre ≠ [] then .pre else .patch
    throw (.unexpectedCharAfter pos c)

def isVersionChar (c : Char) : Bool :=
  isIdentifierChar c || c == '.' || c == '+'

theorem isVersionChar_of_digit {c : Char} (h : c.isDigit) : isVersionChar c := by
  simp [isVersionChar, isIdentifierChar, Char.isAlphanum, h]

theorem numericIdentifier_go_ok {pos : Position} {len value n : Nat} {input rest : List Char}
    (h : numericIdentifier.go pos len value input = .ok (n, rest))
    : ∃ digits, input = digits ++ rest ∧ (∀ c ∈ digits, c.isDigit) ∧ (len = 0 → digits ≠ []) := by
  induction input generalizing len value with
  | nil =>
    unfold numericIdentifier.go at h
    split at h
    next hlen =>
      cases h
      exact ⟨[], rfl, nofun, fun hzero => absurd hzero (by omega)⟩
    next => cases h
  | cons c input ih =>
    unfold numericIdentifier.go at h
    split at h
    next hdigit =>
      split at h
      . cases h
      . dsimp only at h
        split at h
        next =>
          obtain ⟨digits, rfl, hdigits, -⟩ := ih h
          exact ⟨c :: digits, rfl, List.forall_mem_cons.mpr ⟨hdigit, hdigits⟩, fun _ => List.cons_ne_nil _ _⟩
        next => cases h
    next =>
      split at h
      next hlen =>
        cases h
        exact ⟨[], rfl, nofun, fun hzero => absurd hzero (by omega)⟩
      next => cases h

theorem dot_ok {pos : Position} {input rest : List Char} (h : dot pos input = .ok rest) : input = '.' :: rest := by
  unfold dot at h
  split at h
  . cases h
    rfl
  . cases h
  . cases h

theorem identifiers_finish_ok {pos : Position} {done ids : List (List Char)} {segment rest rest' : List Char}
    (h : identifiers.finish pos done segment rest = .ok (ids, rest')) : rest' = rest := by
  unfold identifiers.finish at h
  split at h
  . split at h
    . cases h
      rfl
    . cases h
  . split at h
    . cases h
    . cases h
      rfl

theorem identifiers_go_ok {pos : Position} {done ids : List (List Char)} {segment input rest : List Char}
    (h : identifiers.go pos done segment input = .ok (ids, rest))
    : ∃ used, input = used ++ rest ∧ ∀ c ∈ used, isVersionChar c := by
  induction input generalizing done segment with
  | nil =>
    unfold identifiers.go at h
    rw [identifiers_finish_ok h]
    exact ⟨[], rfl, nofun⟩
  | cons c input ih =>
    unfold identifiers.go at h
    split at h
    next hc =>
      obtain ⟨used, rfl, hused⟩ := ih h
      exact ⟨c :: used, rfl, List.forall_mem_cons.mpr ⟨by simp [isVersionChar, hc], hused⟩⟩
    next =>
      split at h
      next hdot =>
        split at h
        . cases h
        . obtain ⟨used, rfl, hused⟩ := ih h
          exact ⟨c :: used, rfl, List.forall_mem_cons.mpr ⟨by simp [isVersionChar, hdot], hused⟩⟩
      next =>
        rw [identifiers_finish_ok h]
        exact ⟨[], rfl, nofun⟩

theorem suffix_ok {pos : Position} {mark : Char} {input rest : List Char} {ids : List (List Char)}
    (h : suffix pos mark input = .ok (ids, rest)) (hmark : isVersionChar mark)
    : ∃ used, input = used ++ rest ∧ ∀ c ∈ used, isVersionChar c := by
  unfold suffix at h
  split at h
  next c input =>
    split at h
    next hc =>
      split at h
      . cases h
      . cases h
      next r hne hr =>
        cases h
        obtain ⟨used, rfl, hused⟩ := identifiers_go_ok hr
        exact ⟨c :: used, rfl, List.forall_mem_cons.mpr ⟨hc ▸ hmark, hused⟩⟩
    next =>
      cases h
      exact ⟨[], rfl, nofun⟩
  next =>
    cases h
    exact ⟨[], rfl, nofun⟩

theorem parse_chars {text : String} {v : Version} (h : parse text = .ok v)
    : (∀ c ∈ text.toList, isVersionChar c) ∧ ∃ c rest, text.toList = c :: rest ∧ c.isDigit := by
  unfold parse at h
  split at h
  . cases h
  simp only [bind_eq_ok, Prod.exists] at h
  obtain ⟨major, rest, hmajor, rest₁, hdot, minor, rest₂, hminor, rest₃, hdot', patch, rest₄, hpatch, pre, rest₅, hpre,
    build, rest₆, hbuild, h⟩ := h
  obtain ⟨digits, hinput, hdigits, hne⟩ := numericIdentifier_go_ok hmajor
  obtain ⟨digits₁, rfl, hdigits₁, -⟩ := numericIdentifier_go_ok hminor
  obtain ⟨digits₂, rfl, hdigits₂, -⟩ := numericIdentifier_go_ok hpatch
  obtain ⟨used, rfl, hused⟩ := suffix_ok hpre rfl
  obtain ⟨used', rfl, hused'⟩ := suffix_ok hbuild rfl
  cases rest₆ with
  | cons c rest => cases h
  | nil =>
    rw [hinput, dot_ok hdot, dot_ok hdot']
    have hdigit {digits : List Char} (h : ∀ c ∈ digits, c.isDigit) : ∀ c ∈ digits, isVersionChar c :=
      fun c hc => isVersionChar_of_digit (h c hc)
    constructor
    . simp only [List.append_nil, List.forall_mem_append, List.forall_mem_cons]
      exact ⟨hdigit hdigits, rfl, hdigit hdigits₁, rfl, hdigit hdigits₂, hused, hused'⟩
    . cases digits with
      | nil => exact absurd rfl (hne rfl)
      | cons c digits => exact ⟨c, _, rfl, hdigits c List.mem_cons_self⟩

def displayIdentifiers (mark : String) (identifiers : List (List Char)) : String :=
  if identifiers = [] then
    ""
  else
    mark ++ String.ofList (['.'].intercalate identifiers)

def Version.display (v : Version) : String :=
  s!"{v.major}.{v.minor}.{v.patch}" ++ displayIdentifiers "-" v.pre ++ displayIdentifiers "+" v.build

def compareChars (a b : List Char) : Ordering :=
  List.compareLex (fun c d => compare c.toNat d.toNat) a b

def compareDigits (a b : List Char) : Ordering :=
  (compare a.length b.length).then (compareChars a b)

def comparePreIdentifier (a b : List Char) : Ordering :=
  match a.all Char.isDigit, b.all Char.isDigit with
  | true, true => compareDigits a b
  | true, false => .lt
  | false, true => .gt
  | false, false => compareChars a b

def comparePre (a b : List (List Char)) : Ordering :=
  match a, b with
  | [], [] => .eq
  | [], _ => .gt
  | _, [] => .lt
  | _, _ => List.compareLex comparePreIdentifier a b

def compareBuildIdentifier (a b : List Char) : Ordering :=
  match a.all Char.isDigit, b.all Char.isDigit with
  | true, true =>
    (compareDigits (a.dropWhile (· == '0')) (b.dropWhile (· == '0'))).then
      (compare a.length b.length)
  | true, false => .lt
  | false, true => .gt
  | false, false => compareChars a b

def compareBuild (a b : List (List Char)) : Ordering :=
  List.compareLex compareBuildIdentifier a b

def Version.compare (a b : Version) : Ordering :=
  (Ord.compare a.major b.major).then <| (Ord.compare a.minor b.minor).then <|
    (Ord.compare a.patch b.patch).then <| (comparePre a.pre b.pre).then <|
      compareBuild a.build b.build

-- Build metadata does not figure into precedence.
def Version.precedence (a b : Version) : Ordering :=
  { a with build := [] }.compare { b with build := [] }

example : parse "1.0.0-rc.1+b7" = .ok ⟨1, 0, 0, [['r', 'c'], ['1']], [['b', '7']]⟩ := by
  decide

end Semver
