import Mathlib.Data.List.Dedup
import Mathlib.Data.List.Sort
import Wovyr.Marketplace.Scan

/-!
This module contains how a feed of OSV records becomes the advisories of the packages, and which versions the
events of a range affect. The reading of the JSON text is not determined here.
-/

namespace Wovyr

open Semver List

namespace Marketplace

structure RawEvent where
  introduced : Option String := none
  fixed : Option String := none
  lastAffected : Option String := none

structure RawRange where
  kind : String := ""
  events : List RawEvent := []

structure RawPackage where
  name : String := ""

structure RawAffected where
  package : Option RawPackage
  versions : List String := []
  ranges : List RawRange := []

structure RawEntry where
  id : String := ""
  summary : String := ""
  aliases : List String := []
  affected : List RawAffected := []

def SemverRange.apply (range : SemverRange) (e : RawEvent) : SemverRange :=
  let range :=
    match e.introduced with
    | some v => if v ≠ "0" then { range with introduced := parseLenient v } else range
    | none => range
  let range :=
    match e.fixed with
    | some v => { range with fixed := parseLenient v }
    | none => range
  match e.lastAffected with
  | some v => { range with lastAffected := parseLenient v }
  | none => range

def RawRange.fold (r : RawRange) : SemverRange :=
  r.events.foldl SemverRange.apply {}

def RawAffected.affected? (a : RawAffected) : Option Affected :=
  match a.package with
  | none => none
  | some pkg =>
    if pkg.name = "" then
      none
    else
      some {
        package := pkg.name
        versions := a.versions
        ranges := (a.ranges.filter fun r => r.kind == "SEMVER").map RawRange.fold }

def RawEntry.advisory (raw : RawEntry) : Advisory :=
  { id := raw.id
    summary := raw.summary
    aliases := raw.aliases
    affected := raw.affected.filterMap RawAffected.affected? }

def Advisory.names (advisory : Advisory) : List String :=
  ((advisory.affected.map Affected.package).insertionSort fun a b => a ≤ b).dedup

namespace VulnFeed

-- An advisory comes under every package it names.
def push (feed : VulnFeed) (advisory : Advisory) : VulnFeed :=
  { byPackage := advisory.names.foldl
      (fun byPackage name => byPackage.insert name (byPackage[name]?.getD [] ++ [advisory])) feed.byPackage }

-- What the JSON text holds as an array of records, or as an object with a `vulns` array of them.
structure Reader where
  array : String → Except String (List RawEntry)
  wrapped : String → Except String (List RawEntry)

def Reader.entries (reader : Reader) (json : String) : Except Error (List RawEntry) :=
  match reader.array json with
  | .ok entries => .ok entries
  | .error _ =>
    match reader.wrapped json with
    | .ok entries => .ok entries
    | .error e =>
      .error (.invalid ("OSV feed is neither an array of records nor \x7b\"vulns\": […]\x7d: " ++ e))

end VulnFeed

inductive EventKind where
  | introduced
  | fixed
  | lastAffected
deriving DecidableEq

structure Event where
  kind : EventKind
  version : Option Version
deriving DecidableEq

namespace Event

-- A version has come past an event if the event says something about it.
def Passed (compare : Version → Version → Ordering) (v : Version) (e : Event) : Prop :=
  match e.kind, e.version with
  | _, none => True
  | .lastAffected, some at' => compare v at' = .gt
  | _, some at' => compare v at' ≠ .lt

instance (compare : Version → Version → Ordering) (v : Version) (e : Event)
    : Decidable (e.Passed compare v) := by
  unfold Passed
  split
  . exact inferInstance
  . exact inferInstance
  . exact inferInstance

def le (a b : Event) : Prop :=
  match a.version, b.version with
  | none, _ => True
  | some _, none => False
  | some x, some y => x.precedence y ≠ .gt

instance : DecidableRel le := by
  intro a b
  unfold le
  split
  . exact inferInstance
  . exact inferInstance
  . exact inferInstance

end Event

def versionOf (text : String) : Option Version :=
  if text = "0" then some ⟨0, 0, 0, [], []⟩ else (parse text).toOption

namespace RawEvent

def events (e : RawEvent) : List Event :=
  (e.introduced.map fun text => { kind := .introduced, version := if text = "0" then none else versionOf text }).toList
    ++ (e.fixed.map fun text => { kind := .fixed, version := versionOf text }).toList
    ++ (e.lastAffected.map fun text => { kind := .lastAffected, version := versionOf text }).toList

def WellFormed (e : RawEvent) : Prop :=
  ∀ text, e.introduced = some text ∨ e.fixed = some text ∨ e.lastAffected = some text →
    text = "0" ∨ ∃ v, parse text = .ok v

end RawEvent

-- The version has passed an introduction and, after it, no other event.
def Affects (events : List Event) (v : Version) : Prop :=
  ∃ before e after, events.insertionSort Event.le = before ++ e :: after ∧ e.kind = .introduced
    ∧ e.Passed Semver.Version.precedence v ∧ ∀ x ∈ after, x.Passed Semver.Version.precedence v → x.kind = .introduced

-- Past an event in the order of the `semver` crate, in which build metadata counts.
def Event.Past (v : Version) (e : Event) : Prop :=
  e.Passed Semver.Version.compare v

def lastListed (p : Event → Bool) (events : List Event) : Option Event :=
  events.reverse.find? p

def start? : List Event → Option Event :=
  lastListed fun e => e.kind = .introduced && e.version.isSome

def end? (events : List Event) : Option Event :=
  (lastListed (fun e => e.kind = .fixed) events).or (lastListed (fun e => e.kind = .lastAffected) events)

inductive Misread (events : List Event) (v : Version) : Prop where
  -- An interval that is listed earlier lies before the last start.
  | before (e : Event) (he : start? events = some e) (hnot : ¬ e.Past v) (haffects : Affects events v)
  -- An interval that is listed earlier lies after the last end.
  | after (e : Event) (he : end? events = some e) (hpassed : e.Past v) (haffects : Affects events v)
  -- Between the last start and the last end there is another end, or there is no start.
  | between (hstart : ∀ e, start? events = some e → e.Past v) (hend : ∀ e, end? events = some e → ¬ e.Past v)
    (hnot : ¬ Affects events v)

namespace RawRange

def flat (r : RawRange) : List Event :=
  r.events.flatMap RawEvent.events

end RawRange

namespace RawEntry

variable (raw : RawEntry) (name version : String) (v : Version)

def Names (a : RawAffected) : Prop :=
  ∃ pkg, a.package = some pkg ∧ pkg.name ≠ "" ∧ pkg.name = name

def HasRange (r : RawRange) : Prop :=
  ∃ a ∈ raw.affected, Names name a ∧ r ∈ a.ranges ∧ r.kind = "SEMVER"

end RawEntry

section

variable {v : Version} {events : List Event}

theorem isWhitespace_of_isVersionChar {c : Char} (h : isVersionChar c) : Text.isWhitespace c = false := by
  have hrange : 0x21 ≤ c.toNat ∧ c.toNat ≤ 0x7e := by
    simp only [isVersionChar, isIdentifierChar, Char.isAlphanum] at h
    delta Char.isAlpha Char.isUpper Char.isLower at h
    simp only [Char.isDigit, Bool.or_eq_true, Bool.and_eq_true, decide_eq_true_eq, beq_iff_eq, ge_iff_le,
      UInt32.le_iff_toNat_le] at h
    have hval : c.val.toNat = c.toNat := rfl
    rcases h with ((((⟨hlow, hhigh⟩ | ⟨hlow, hhigh⟩) | ⟨hlow, hhigh⟩) | rfl) | rfl) | rfl
    . change 65 ≤ _ at hlow
      change _ ≤ 90 at hhigh
      omega
    . change 97 ≤ _ at hlow
      change _ ≤ 122 at hhigh
      omega
    . change 48 ≤ _ at hlow
      change _ ≤ 57 at hhigh
      omega
    . decide
    . decide
    . decide
  unfold Text.isWhitespace
  simp only [Bool.or_eq_false_iff, Bool.and_eq_false_iff, decide_eq_false_iff_not, beq_eq_false_iff_ne]
  omega

theorem trim_eq {text : String} {x : Version} (h : parse text = .ok x) : Text.trim text = text := by
  have hchars := (parse_chars h).1
  have hnot : ∀ c ∈ text.toList, ¬ Text.isWhitespace c = true := by
    intro c hc
    rw [isWhitespace_of_isVersionChar (hchars c hc)]
    exact Bool.false_ne_true
  have hfront : text.toList.dropWhile Text.isWhitespace = text.toList :=
    dropWhile_eq_self_iff.mpr fun _ => hnot _ (getElem_mem _)
  have hback : text.toList.rdropWhile Text.isWhitespace = text.toList :=
    rdropWhile_eq_self_iff.mpr fun hne => hnot _ (getLast_mem hne)
  unfold Text.trim Text.trimMatches
  rw [hfront, hback, String.ofList_toList]

theorem parseLenient_of_parse {text : String} {x : Version} (h : parse text = .ok x)
    : parseLenient text = some x := by
  have hne : text ≠ "" := by
    rintro rfl
    cases h
  unfold parseLenient
  dsimp only
  rw [trim_eq h, if_neg hne, findSome?_cons, h]
  rfl

theorem parseLenient_eq {text : String} (h : text = "0" ∨ ∃ x, parse text = .ok x)
    : parseLenient text = versionOf text ∧ (versionOf text).isSome := by
  by_cases hzero : text = "0"
  . subst hzero
    decide
  . obtain ⟨x, hx⟩ := h.resolve_left hzero
    unfold versionOf
    rw [parseLenient_of_parse hx, if_neg hzero, hx]
    exact ⟨rfl, rfl⟩

def SemverRange.keep (range : SemverRange) (e : Event) : SemverRange :=
  match e.kind with
  | .introduced => if e.version.isSome then { range with introduced := e.version } else range
  | .fixed => { range with fixed := e.version }
  | .lastAffected => { range with lastAffected := e.version }

theorem keep_introduced {range : SemverRange} {text : String} (h : text = "0" ∨ ∃ x, parse text = .ok x)
    : range.keep { kind := .introduced, version := if text = "0" then none else versionOf text }
        = if text ≠ "0" then { range with introduced := parseLenient text } else range := by
  obtain ⟨heq, hsome⟩ := parseLenient_eq h
  unfold SemverRange.keep
  by_cases hzero : text = "0"
  . simp [hzero]
  . simp [hzero, hsome, heq]

theorem apply_eq {range : SemverRange} {e : RawEvent} (h : e.WellFormed)
    : range.apply e = e.events.foldl SemverRange.keep range := by
  obtain ⟨introduced, fixed, lastAffected⟩ := e
  have hintroduced : ∀ text, introduced = some text → text = "0" ∨ ∃ x, parse text = .ok x :=
    fun text heq => h text (.inl heq)
  have hfixed : ∀ text, fixed = some text → parseLenient text = versionOf text :=
    fun text heq => (parseLenient_eq (h text (.inr (.inl heq)))).1
  have hlast : ∀ text, lastAffected = some text → parseLenient text = versionOf text :=
    fun text heq => (parseLenient_eq (h text (.inr (.inr heq)))).1
  clear h
  unfold SemverRange.apply RawEvent.events
  rw [foldl_append, foldl_append]
  cases introduced with
  | none =>
    cases fixed with
    | none =>
      cases lastAffected with
      | none => rfl
      | some last => simp [SemverRange.keep, hlast]
    | some fix =>
      cases lastAffected with
      | none => simp [SemverRange.keep, hfixed]
      | some last => simp [SemverRange.keep, hfixed, hlast]
  | some intro =>
    rw [Option.map_some, Option.toList_some, foldl_cons, foldl_nil, keep_introduced (hintroduced intro rfl)]
    cases fixed with
    | none =>
      cases lastAffected with
      | none => rfl
      | some last => simp [SemverRange.keep, hlast]
    | some fix =>
      cases lastAffected with
      | none => simp [SemverRange.keep, hfixed]
      | some last => simp [SemverRange.keep, hfixed, hlast]

theorem fold_eq {r : RawRange} (h : ∀ e ∈ r.events, e.WellFormed) : r.fold = r.flat.foldl SemverRange.keep {} := by
  obtain ⟨kind, events⟩ := r
  have hfold : ∀ range : SemverRange,
      events.foldl SemverRange.apply range = (events.flatMap RawEvent.events).foldl SemverRange.keep range := by
    induction events with
    | nil => exact fun _ => rfl
    | cons e events ih =>
      intro range
      rw [foldl_cons, flatMap_cons, foldl_append, apply_eq (h e mem_cons_self)]
      exact ih (fun x hx => h x (mem_cons_of_mem _ hx)) _
  exact hfold {}

theorem lastListed_snoc (p : Event → Bool) (events : List Event) (e : Event)
    : lastListed p (events ++ [e]) = if p e then some e else lastListed p events := by
  unfold lastListed
  rw [reverse_append, reverse_singleton, singleton_append, find?_cons]
  cases p e with
  | true => rfl
  | false => rfl

def Versioned (events : List Event) : Prop :=
  ∀ e ∈ events, e.kind ≠ .introduced → e.version.isSome

theorem keep_fields (events : List Event)
    : (events.foldl SemverRange.keep {}).introduced = (start? events).bind Event.version
        ∧ (events.foldl SemverRange.keep {}).fixed = (lastListed (fun e => e.kind = .fixed) events).bind Event.version
        ∧ (events.foldl SemverRange.keep {}).lastAffected
          = (lastListed (fun e => e.kind = .lastAffected) events).bind Event.version := by
  induction events using reverseRecOn with
  | nil => exact ⟨rfl, rfl, rfl⟩
  | append_singleton events e ih =>
    obtain ⟨hintroduced, hfixed, hlast⟩ := ih
    unfold start? at hintroduced ⊢
    rw [foldl_append, foldl_cons, foldl_nil, lastListed_snoc, lastListed_snoc, lastListed_snoc]
    generalize events.foldl SemverRange.keep {} = range at hintroduced hfixed hlast ⊢
    unfold SemverRange.keep
    cases hkind : e.kind with
    | introduced =>
      cases hversion : e.version with
      | none => simp [hintroduced, hfixed, hlast]
      | some x => simp [hversion, hfixed, hlast]
    | fixed => simp [hintroduced, hlast]
    | lastAffected => simp [hintroduced, hfixed]

theorem lastListed_some {p : Event → Bool} {e : Event} (h : lastListed p events = some e) : e ∈ events ∧ p e = true := by
  unfold lastListed at h
  exact ⟨mem_reverse.mp (mem_of_find?_eq_some h), find?_some h⟩

theorem passed_iff {e : Event} {x : Version} (hkind : e.kind ≠ .lastAffected) (hversion : e.version = some x)
    : e.Past v ↔ v.compare x ≠ .lt := by
  unfold Event.Past Event.Passed
  rw [hversion]
  cases h : e.kind with
  | introduced => exact Iff.rfl
  | fixed => exact Iff.rfl
  | lastAffected => exact absurd h hkind

theorem passed_lastAffected_iff {e : Event} {x : Version} (hkind : e.kind = .lastAffected)
    (hversion : e.version = some x) : e.Past v ↔ v.compare x = .gt := by
  unfold Event.Past Event.Passed
  rw [hversion, hkind]

def SemverRange.beforeEnd (range : SemverRange) (v : Version) : Bool :=
  match range.fixed, range.lastAffected with
  | some fixed, _ => v.compare fixed = .lt
  | none, some last => v.compare last ≠ .gt
  | none, none => true

theorem contains_eq (range : SemverRange) (v : Version)
    : range.contains v = true
        ↔ (range.introduced.any fun intro => v.compare intro = .lt) = false ∧ range.beforeEnd v = true := by
  unfold SemverRange.contains SemverRange.beforeEnd
  cases range.introduced.any fun intro => v.compare intro = .lt with
  | true => simp
  | false =>
    cases range.fixed with
    | some fixed => simp
    | none =>
      cases range.lastAffected with
      | some last => simp
      | none => simp

theorem contains_iff (hversions : Versioned events)
    : (events.foldl SemverRange.keep {}).contains v = true
        ↔ (∀ e, start? events = some e → e.Past v) ∧ ∀ e, end? events = some e → ¬ e.Past v := by
  obtain ⟨hintroduced, hfixed, hlast⟩ := keep_fields events
  have hstart : ((events.foldl SemverRange.keep {}).introduced.any fun intro => v.compare intro = .lt) = false
      ↔ ∀ e, start? events = some e → e.Past v := by
    rw [hintroduced]
    cases he : start? events with
    | none => simp
    | some e =>
      obtain ⟨-, hp⟩ := lastListed_some he
      simp only [Bool.and_eq_true, decide_eq_true_eq] at hp
      obtain ⟨x, hx⟩ := Option.isSome_iff_exists.mp hp.2
      have hpassed := passed_iff (v := v) (by rw [hp.1]; exact nofun) hx
      simp [hx, hpassed]
  have hend : (events.foldl SemverRange.keep {}).beforeEnd v = true ↔ ∀ e, end? events = some e → ¬ e.Past v := by
    unfold end? SemverRange.beforeEnd
    rw [hfixed, hlast]
    cases hf : lastListed (fun e => e.kind = .fixed) events with
    | some e =>
      obtain ⟨hmem, hp⟩ := lastListed_some hf
      have hkind : e.kind = .fixed := by simpa using hp
      obtain ⟨x, hx⟩ := Option.isSome_iff_exists.mp (hversions e hmem (by rw [hkind]; exact nofun))
      have hpassed := passed_iff (v := v) (by rw [hkind]; exact nofun) hx
      simp [hx, hpassed]
    | none =>
      cases hl : lastListed (fun e => e.kind = .lastAffected) events with
      | none => simp
      | some e =>
        obtain ⟨hmem, hp⟩ := lastListed_some hl
        have hkind : e.kind = .lastAffected := by simpa using hp
        obtain ⟨x, hx⟩ := Option.isSome_iff_exists.mp (hversions e hmem (by rw [hkind]; exact nofun))
        have hpassed := passed_lastAffected_iff (v := v) hkind hx
        simp [hx, hpassed]
  rw [contains_eq, hstart, hend]

theorem contains_iff_affects (hversions : Versioned events)
    : ((events.foldl SemverRange.keep {}).contains v = true ↔ Affects events v) ↔ ¬ Misread events v := by
  rw [contains_iff hversions]
  constructor
  . intro h hmisread
    cases hmisread with
    | before e he hnot haffects => exact hnot ((h.mpr haffects).1 e he)
    | after e he hpassed haffects => exact (h.mpr haffects).2 e he hpassed
    | between hstart hend hnot => exact hnot (h.mp ⟨hstart, hend⟩)
  . intro h
    constructor
    . rintro ⟨hstart, hend⟩
      by_contra hnot
      exact h (.between hstart hend hnot)
    . intro haffects
      constructor
      . intro e he
        by_contra hnot
        exact h (.before e he hnot haffects)
      . intro e he hpassed
        exact h (.after e he hpassed haffects)

end

def Affected.matches (a : Affected) (name version : String) (parsed : Option Version) : Bool :=
  a.package == name && (a.versions.contains version || parsed.any fun v => a.ranges.any fun r => r.contains v)

namespace VulnFeed

end VulnFeed

namespace RawEntry

variable {raw : RawEntry} {name version : String} {v : Version}

-- The versions of the events are as they should be.
def WellFormed (raw : RawEntry) : Prop :=
  ∀ a ∈ raw.affected, ∀ r ∈ a.ranges, r.kind = "SEMVER" → ∀ e ∈ r.events, e.WellFormed

theorem versioned_flat {r : RawRange} (h : ∀ e ∈ r.events, e.WellFormed) : Versioned r.flat := by
  intro e he hkind
  unfold RawRange.flat at he
  obtain ⟨raw, hraw, hmem⟩ := mem_flatMap.mp he
  have hwell := h raw hraw
  unfold RawEvent.events at hmem
  simp only [mem_append, Option.mem_toList, Option.map_eq_some_iff] at hmem
  rcases hmem with (⟨text, -, rfl⟩ | ⟨text, htext, rfl⟩) | ⟨text, htext, rfl⟩
  . exact absurd rfl hkind
  . exact (parseLenient_eq (hwell text (.inr (.inl htext)))).2
  . exact (parseLenient_eq (hwell text (.inr (.inr htext)))).2

theorem contains_iff {r : RawRange} (hwell : raw.WellFormed) (hr : raw.HasRange name r)
    : (r.fold.contains v = true ↔ Affects r.flat v) ↔ ¬ Misread r.flat v := by
  obtain ⟨a, ha, -, hmem, hkind⟩ := hr
  have hevents := hwell a ha r hmem hkind
  rw [fold_eq hevents]
  exact contains_iff_affects (versioned_flat hevents)

end RawEntry

def reopened : RawEntry :=
  { id := "RUSTSEC-2026-0002"
    affected := [{
      package := some { name := "widget-lib" }
      ranges := [{
        kind := "SEMVER"
        events := [
          { introduced := some "0" }, { fixed := some "1.0.0" },
          { introduced := some "2.0.0" }, { fixed := some "2.5.0" }] }] }] }

end Wovyr.Marketplace
