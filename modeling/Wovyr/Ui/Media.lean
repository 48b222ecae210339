import Wovyr.Ui.Guard

/-!
This module contains which hosts the allow-list for media lets through. What the program compares
with the list need not be the host of the URL.
-/

namespace Wovyr.Ui

def Https (url rest : String) : Prop :=
  url = "https://" ++ rest ∨ url = "HTTPS://" ++ rest

def authority (rest : String) : List Char :=
  rest.toList.takeWhile fun c => !(c == '/' || c == '?' || c == '#')

def userinfo (authority : List Char) : List Char :=
  authority.rdropWhile (· ≠ '@')

def hostport (authority : List Char) : List Char :=
  authority.rtakeWhile (· ≠ '@')

-- The host of an authority by the generic grammar, an address in brackets or what a port follows.
def uriHost (authority : List Char) : List Char :=
  if (hostport authority).head? = some '[' ∧ ']' ∈ hostport authority then
    (hostport authority).takeWhile (· ≠ ']') ++ [']']
  else
    (hostport authority).takeWhile (· ≠ ':')

-- The host equals an origin, or is below one that starts with a dot or equal to what follows the dot.
def Within (host origin : List Char) : Prop :=
  (origin.head? ≠ some '.' ∧ host = origin)
    ∨ ∃ suffix, origin = '.' :: suffix ∧ (host = suffix ∨ ∃ sub, host = sub ++ '.' :: suffix)

section

variable (u : Unicode)

def Allowlisted (allowed : List String) (host : List Char) : Prop :=
  ∃ origin ∈ allowed, Within (u.toLowercase host) (u.toLowercase origin.toList)

theorem toList_lower (s : String) : (u.lower s).toList = u.toLowercase s.toList := by
  simp [Unicode.lower]

theorem originPermits_iff (host origin : String)
    : originPermits u host origin = true ↔ Within host.toList (u.toLowercase origin.toList) := by
  unfold originPermits
  dsimp only
  cases h : Text.stripPrefix "." (u.lower origin) with
  | none =>
    have hhead : (u.toLowercase origin.toList).head? ≠ some '.' := by
      intro hhead
      obtain ⟨suffix, hsuffix⟩ := List.head?_eq_some_iff.mp hhead
      have hsome : Text.stripPrefix "." (u.lower origin) = some (String.ofList suffix) := by
        rw [Text.stripPrefix_eq_some, ← String.toList_inj, toList_lower, hsuffix]
        simp
      rw [h] at hsome
      cases hsome
    simp only [beq_iff_eq, Within, hhead, not_false_eq_true, true_and, ne_eq, ← String.toList_inj,
      toList_lower]
    constructor
    . exact .inl
    . rintro (heq | ⟨suffix, hsuffix, -⟩)
      . exact heq
      . rw [hsuffix] at hhead
        exact absurd rfl hhead
  | some suffix =>
    rw [Text.stripPrefix_eq_some, ← String.toList_inj, toList_lower, String.toList_append] at h
    have hlist : u.toLowercase origin.toList = '.' :: suffix.toList := h
    have hsuffix : ("." ++ suffix).toList = '.' :: suffix.toList := by simp
    simp only [Bool.or_eq_true, beq_iff_eq, List.isSuffixOf_iff_suffix, hsuffix, hlist, Within,
      List.head?_cons, not_true_eq_false, false_and, false_or, List.cons.injEq, true_and,
      exists_eq_left', ne_eq, ← String.toList_inj]
    constructor
    . rintro (heq | ⟨sub, hsub⟩)
      . exact .inl heq
      . exact .inr ⟨sub, hsub.symm⟩
    . rintro (heq | ⟨sub, hsub⟩)
      . exact .inl heq
      . exact .inr ⟨sub, hsub.symm⟩

theorem covered_iff_any (allowed : List String) (host : List Char)
    : allowed.any (originPermits u (u.lower (String.ofList host))) = true ↔ Allowlisted u allowed host := by
  simp only [List.any_eq_true, originPermits_iff, toList_lower, String.toList_ofList, Allowlisted]

def beforeColon (authority : List Char) : List Char :=
  authority.takeWhile (· ≠ ':')

theorem https_iff {url rest : String}
    : (Text.stripPrefix "https://" url).or (Text.stripPrefix "HTTPS://" url) = some rest
        ↔
      Https url rest := by
  rw [Option.or_eq_some_iff, Text.stripPrefix_eq_some, Text.stripPrefix_eq_some, Https]
  constructor
  . rintro (h | ⟨-, h⟩)
    . exact .inl h
    . exact .inr h
  . rintro (h | h)
    . exact .inl h
    . refine .inr ⟨?_, h⟩
      rw [Option.eq_none_iff_forall_ne_some]
      intro rest' hrest'
      rw [Text.stripPrefix_eq_some, h] at hrest'
      have := congrArg (·.toList.head?) hrest'
      simp at this

theorem Https.unique {url rest rest' : String} (h : Https url rest) (h' : Https url rest')
    : rest = rest' := by
  rw [← https_iff] at h h'
  exact Option.some.inj (h.symm.trans h')

theorem lower_ofList_eq_empty {cs : List Char} : u.lower (String.ofList cs) = "" ↔ cs = [] := by
  constructor
  . intro h
    by_contra hne
    apply u.lower_ne_empty _ h
    intro hempty
    exact hne (by simpa using congrArg String.toList hempty)
  . rintro rfl
    exact u.lower_empty

theorem mediaViolation_eq_none {url : String} {allowed : List String}
    : mediaViolation u url allowed = none
        ↔
      ∃ rest, Https url rest ∧ beforeColon (authority rest) ≠ []
        ∧ Allowlisted u allowed (beforeColon (authority rest)) := by
  unfold mediaViolation
  by_cases hallowed : allowed = []
  . simp [hallowed, Allowlisted]
  rw [if_neg hallowed]
  cases h : (Text.stripPrefix "https://" url).or (Text.stripPrefix "HTTPS://" url) with
  | none =>
    simp only [reduceCtorEq, false_iff]
    rintro ⟨rest, hrest, -⟩
    rw [(https_iff).mpr hrest] at h
    cases h
  | some rest =>
    have hrest := (https_iff).mp h
    have hunique : (∃ rest', Https url rest' ∧ beforeColon (authority rest') ≠ []
          ∧ Allowlisted u allowed (beforeColon (authority rest')))
        ↔ beforeColon (authority rest) ≠ [] ∧ Allowlisted u allowed (beforeColon (authority rest)) := by
      constructor
      . rintro ⟨rest', hrest', hcovered⟩
        rwa [hrest.unique hrest']
      . intro hcovered
        exact ⟨rest, hrest, hcovered⟩
    rw [hunique, ← covered_iff_any, Ne, ← lower_ofList_eq_empty u]
    show (if u.lower (String.ofList (beforeColon (authority rest))) = "" then some _
      else if allowed.any (originPermits u (u.lower (String.ofList (beforeColon (authority rest)))))
        then none else some _) = none ↔ _
    split
    . simp_all
    . split <;> simp_all

def MediaSound (url : String) (allowed : List String) : Prop :=
  mediaViolation u url allowed = none →
    ∃ rest, Https url rest ∧ Allowlisted u allowed (uriHost (authority rest))

-- A colon comes before the host has ended, or an origin reaches over an `@`.
def Careless (allowed : List String) (authority : List Char) : Prop :=
  ':' ∈ userinfo authority
    ∨ (hostport authority).head? = some '['
    ∨ ('@' ∈ authority ∧ ∃ origin ∈ allowed, '@' ∈ u.toLowercase origin.toList)

theorem userinfo_append_hostport (authority : List Char)
    : userinfo authority ++ hostport authority = authority := by
  rw [userinfo, hostport, List.rdropWhile_append_rtakeWhile]

theorem userinfo_cases (authority : List Char)
    : ('@' ∉ authority ∧ userinfo authority = []) ∨ ∃ user, userinfo authority = user ++ ['@'] := by
  by_cases h : userinfo authority = []
  . left
    refine ⟨?_, h⟩
    rw [userinfo, List.rdropWhile_eq_nil_iff] at h
    intro hmem
    simpa using h '@' hmem
  . right
    have hlast := List.rdropWhile_last_not _ authority h
    rw [decide_eq_true_eq, not_not] at hlast
    refine ⟨(userinfo authority).dropLast, ?_⟩
    conv => lhs; rw [← List.dropLast_append_getLast h]
    exact congrArg (fun c => (userinfo authority).dropLast ++ [c]) hlast

theorem beforeColon_append {user rest : List Char} (h : ':' ∉ user)
    : beforeColon (user ++ rest) = user ++ beforeColon rest := by
  unfold beforeColon
  rw [List.takeWhile_append_of_pos]
  intro c hc
  simp only [decide_eq_true_eq]
  rintro rfl
  exact h hc

theorem suffix_of_not_mem {α : Type} {c : α} {s xs ys : List α} (hc : c ∉ s) (h : s <:+ xs ++ c :: ys)
    : s <:+ ys := by
  rcases List.suffix_or_suffix_of_suffix h (List.suffix_append xs (c :: ys)) with hshort | hlong
  . rcases List.suffix_cons_iff.mp hshort with rfl | hys
    . exact absurd List.mem_cons_self hc
    . exact hys
  . exact absurd (hlong.subset List.mem_cons_self) hc

theorem uriHost_eq {authority : List Char} (h : (hostport authority).head? ≠ some '[')
    : uriHost authority = beforeColon (hostport authority) := by
  unfold uriHost beforeColon
  rw [if_neg fun hbracket => h hbracket.1]

theorem covered_of_careful (hlower : ∀ a b, u.toLowercase (a ++ '@' :: b)
      = u.toLowercase a ++ '@' :: u.toLowercase b) {allowed : List String} {authority : List Char}
    (hcareful : ¬Careless u allowed authority) (h : Allowlisted u allowed (beforeColon authority))
    : Allowlisted u allowed (uriHost authority) := by
  simp only [Careless, not_or, not_and, not_exists] at hcareful
  obtain ⟨hcolon, hbracket, horigins⟩ := hcareful
  have hsplit := userinfo_append_hostport authority
  rw [uriHost_eq hbracket]
  rcases userinfo_cases authority with ⟨-, hempty⟩ | ⟨user, huser⟩
  . rw [hempty, List.nil_append] at hsplit
    rwa [hsplit]
  . have hat : '@' ∈ authority := by
      rw [← hsplit, huser]
      simp
    have hbefore : beforeColon authority = user ++ '@' :: beforeColon (hostport authority) := by
      conv => lhs; rw [← hsplit]
      rw [beforeColon_append hcolon, huser, List.append_assoc, List.singleton_append]
    obtain ⟨origin, horigin, hwithin⟩ := h
    have hnone := horigins hat origin horigin
    rw [hbefore, hlower] at hwithin
    refine ⟨origin, horigin, ?_⟩
    rcases hwithin with ⟨-, hexact⟩ | ⟨suffix, hsuffix, hequal | ⟨sub, hsub⟩⟩
    . rw [← hexact] at hnone
      exact absurd (by simp) hnone
    . rw [hsuffix, ← hequal] at hnone
      exact absurd (by simp) hnone
    . rw [hsuffix] at hnone
      have htail : '.' :: suffix <:+ u.toLowercase (beforeColon (hostport authority)) :=
        suffix_of_not_mem hnone ⟨sub, hsub.symm⟩
      obtain ⟨sub', hsub'⟩ := htail
      exact .inr ⟨suffix, hsuffix, .inr ⟨sub', hsub'.symm⟩⟩

end

/--
What is let through has a host on the list, unless a colon stands in the user information, the host is in brackets or
an origin reaches over an `@`.
-/
theorem mediaSound_of_careful (u : Unicode) (hlower : ∀ a b, u.toLowercase (a ++ '@' :: b)
      = u.toLowercase a ++ '@' :: u.toLowercase b) {url : String} {allowed : List String}
    (hcareful : ∀ rest, Https url rest → ¬Careless u allowed (authority rest)) : MediaSound u url allowed := by
  intro hnone
  obtain ⟨rest, hrest, -, hcovered⟩ := (mediaViolation_eq_none u).mp hnone
  exact ⟨rest, hrest, covered_of_careful u hlower (hcareful rest hrest) hcovered⟩

theorem not_mediaSound_userinfo
    : mediaViolation .asciiOnly "https://cdn.example.com:x@evil.test/pixel.png" ["cdn.example.com"] = none
        ∧ uriHost (authority "cdn.example.com:x@evil.test/pixel.png") = "evil.test".toList
        ∧ ¬MediaSound .asciiOnly "https://cdn.example.com:x@evil.test/pixel.png" ["cdn.example.com"] := by
  have hnone : mediaViolation .asciiOnly "https://cdn.example.com:x@evil.test/pixel.png"
      ["cdn.example.com"] = none := by
    decide
  have hhost : uriHost (authority "cdn.example.com:x@evil.test/pixel.png") = "evil.test".toList := by
    decide
  refine ⟨hnone, hhost, ?_⟩
  intro hsound
  obtain ⟨rest, hrest, hcovered⟩ := hsound hnone
  have hrest' : Https "https://cdn.example.com:x@evil.test/pixel.png"
      "cdn.example.com:x@evil.test/pixel.png" := .inl rfl
  rw [hrest.unique hrest', hhost, ← covered_iff_any] at hcovered
  exact absurd hcovered (by decide)

theorem mediaSound_port
    : mediaViolation .asciiOnly "https://user@img.example.com:8443/chart.png" [".example.com"] = none
        ∧ MediaSound .asciiOnly "https://user@img.example.com:8443/chart.png" [".example.com"] := by
  have hlower (a b : List Char) : Unicode.asciiOnly.toLowercase (a ++ '@' :: b)
      = Unicode.asciiOnly.toLowercase a ++ '@' :: Unicode.asciiOnly.toLowercase b := by
    simp [Unicode.asciiOnly]
  refine ⟨by decide, mediaSound_of_careful .asciiOnly hlower ?_⟩
  intro rest hrest
  have hport : Https "https://user@img.example.com:8443/chart.png" "user@img.example.com:8443/chart.png" := .inl rfl
  rw [hrest.unique hport]
  rintro (hcolon | hbracket | ⟨-, hat⟩)
  . exact absurd hcolon (by decide)
  . exact absurd hbracket (by decide)
  . exact absurd hat (by decide)

end Wovyr.Ui
