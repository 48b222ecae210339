import Wovyr.Lib.Spelling
import Wovyr.Workflow.Recovery
import Wovyr.Workflow.Refusal

/-!
This module contains when the executions of child workflows can be told apart by the keys under
which they are stored.
-/

namespace Wovyr

open Spelling List

namespace Workflow.Engine

variable {ω : Type} (e : Engine ω) (d : Definition) (id : String)

inductive Reaches : Definition → String → Prop where
  | root : Reaches d id
  | child {d' child : Definition} {s : ExecutionState} {a : ActivityDef} (h : Reaches d' s.executionId)
    (ha : a ∈ d'.spec.activities) (hchild : e.Resolves a child) : Reaches child (childId s a)

def Parent (s : ExecutionState) (a : ActivityDef) : Prop :=
  ∃ d' child, e.Reaches d id d' s.executionId ∧ a ∈ d'.spec.activities ∧ e.Resolves a child

inductive Path : List String → Definition → Prop where
  | nil : Path [] d
  | snoc {names : List String} {d' child : Definition} {a : ActivityDef} (h : Path names d')
    (ha : a ∈ d'.spec.activities) (hchild : e.Resolves a child) : Path (names ++ [a.id]) child

def Leads (names : List String) : Prop :=
  ∃ d', e.Path d names d'

variable {e d id}

theorem childId_spell {s : ExecutionState} {names : List String}
    (h : s.executionId = id ++ spell "::" names) (a : ActivityDef)
    : childId s a = id ++ spell "::" (names ++ [a.id]) := by
  unfold childId
  rw [h, spell_append]
  simp [spell, String.append_assoc]

theorem reaches_iff {d' : Definition} {p : String}
    : e.Reaches d id d' p ↔ ∃ names, e.Path d names d' ∧ p = id ++ spell "::" names := by
  constructor
  . intro h
    induction h with
    | root => exact ⟨[], .nil, by simp [spell]⟩
    | child _ ha hchild ih =>
      obtain ⟨names, hpath, hspell⟩ := ih
      exact ⟨_, .snoc hpath ha hchild, childId_spell hspell _⟩
  . rintro ⟨names, hpath, rfl⟩
    induction hpath with
    | nil =>
      rw [spell, String.append_empty]
      exact .root
    | @snoc names d' child a _ ha hchild ih =>
      let s := initialState d' (id ++ spell "::" names) .null
      have hs : childId s a = id ++ spell "::" (names ++ [a.id]) := childId_spell rfl a
      rw [← hs]
      exact .child (s := s) ih ha hchild

theorem Parent.leads {s : ExecutionState} {a : ActivityDef} (h : e.Parent d id s a)
    : ∃ names, s.executionId = id ++ spell "::" names ∧ e.Leads d (names ++ [a.id]) := by
  obtain ⟨d', child, hreaches, ha, hchild⟩ := h
  obtain ⟨names, hpath, hspell⟩ := (reaches_iff).mp hreaches
  exact ⟨names, hspell, child, .snoc hpath ha hchild⟩

theorem Leads.parent {names : List String} (h : e.Leads d names)
    : names = [] ∨ ∃ before s a, names = before ++ [a.id] ∧ e.Leads d before ∧ e.Parent d id s a
        ∧ s.executionId = id ++ spell "::" before := by
  obtain ⟨child, hpath⟩ := h
  cases hpath with
  | nil => exact .inl rfl
  | @snoc before d' _ a hbefore ha hchild =>
    let s := initialState d' (id ++ spell "::" before) .null
    exact .inr ⟨before, s, a, rfl, ⟨d', hbefore⟩, ⟨d', child, (reaches_iff).mpr ⟨before, hbefore, rfl⟩, ha, hchild⟩,
      rfl⟩

variable (e d)

/--
Where two ways down part, the stored name of one activity that begins with the stored name of another one is never
gone on with by what is below the other one, and different ways down have different stored names.
-/
structure Apart : Prop where
  legible : Legible (e.backend.key "::") fun keys =>
    ∃ names, e.Leads d names ∧ names.map e.backend.key = keys
  distinct : ∀ names names', e.Leads d names → e.Leads d names' →
    names.map e.backend.key = names'.map e.backend.key → names = names'

variable {e d}

theorem key_spell (names : List String)
    : e.backend.key (id ++ spell "::" names)
        = e.backend.key id ++ spell (e.backend.key "::") (names.map e.backend.key) := by
  rw [Backend.key_append]
  congr 1
  induction names with
  | nil =>
    rw [spell, map_nil, spell]
    cases e.backend <;> rfl
  | cons name names ih =>
    rw [spell, map_cons, spell, Backend.key_append, Backend.key_append, ih]

theorem apart_iff
    : (∀ names names', e.Leads d names → e.Leads d names' →
        e.backend.key (id ++ spell "::" names) = e.backend.key (id ++ spell "::" names') →
        names = names')
        ↔ Apart e d := by
  have hsep : e.backend.key "::" ≠ "" := by cases e.backend <;> decide
  simp only [key_spell, String.append_right_inj]
  constructor
  . intro hinj
    refine ⟨(spell_inj_iff hsep).mp ?_, ?_⟩
    . rintro _ _ ⟨names, hleads, rfl⟩ ⟨names', hleads', rfl⟩ heq
      rw [hinj names names' hleads hleads' heq]
    . intro names names' hleads hleads' heq
      exact hinj names names' hleads hleads' (congrArg _ heq)
  . intro hapart names names' hleads hleads' heq
    exact hapart.distinct names names' hleads hleads'
      ((spell_inj_iff hsep).mpr hapart.legible _ _ ⟨names, hleads, rfl⟩ ⟨names', hleads', rfl⟩ heq)

theorem Apart.reaches_inj (h : Apart e d) {d' d'' : Definition} {p q : String} (hp : e.Reaches d id d' p)
    (hq : e.Reaches d id d'' q) (hkey : e.backend.key p = e.backend.key q) : p = q := by
  obtain ⟨names, hpath, rfl⟩ := (reaches_iff).mp hp
  obtain ⟨names', hpath', rfl⟩ := (reaches_iff).mp hq
  rw [(apart_iff).mpr h names names' ⟨_, hpath⟩ ⟨_, hpath'⟩ hkey]

theorem Parent.reaches {s : ExecutionState} {a : ActivityDef} (h : e.Parent d id s a)
    : ∃ child, e.Reaches d id child (childId s a) := by
  obtain ⟨d', child, hreaches, ha, hchild⟩ := h
  exact ⟨child, .child hreaches ha hchild⟩

theorem Parent.eq_of_childId (h : Apart e d) {s t : ExecutionState} {a b : ActivityDef} (hs : e.Parent d id s a)
    (ht : e.Parent d id t b) (hkey : e.backend.key (childId s a) = e.backend.key (childId t b))
    : s.executionId = t.executionId ∧ a.id = b.id := by
  obtain ⟨names, hspell, hleads⟩ := hs.leads
  obtain ⟨names', hspell', hleads'⟩ := ht.leads
  rw [childId_spell hspell, childId_spell hspell'] at hkey
  obtain ⟨rfl, hid⟩ := append_inj' ((apart_iff).mpr h _ _ hleads hleads' hkey) rfl
  exact ⟨hspell.trans hspell'.symm, (cons.inj hid).1⟩

-- What is stored are executions that can come to be below the root.
structure Rooted (e : Engine ω) (d : Definition) (id : String) (w : World ω) : Prop where
  keyed : w.WellKeyed e
  stored : ∀ (k : String) (s : ExecutionState), w.checkpoints[k]? = some s → ∃ d', e.Reaches d id d' s.executionId

theorem Rooted.latest (h : Apart e d) {w : World ω} (hw : Rooted e d id w) {d' : Definition} {p : String}
    (hp : e.Reaches d id d' p) {t : ExecutionState} (ht : w.latest e p = some t) : t.executionId = p := by
  obtain ⟨d'', hreaches⟩ := hw.stored _ t ht
  exact h.reaches_inj hreaches hp (hw.keyed.latest ht)

theorem Rooted.save {w : World ω} (hw : Rooted e d id w) {d' : Definition} {s : ExecutionState}
    (hs : e.Reaches d id d' s.executionId) : Rooted e d id (w.save e s) := by
  refine ⟨hw.keyed.save s, ?_⟩
  intro k t ht
  unfold World.save at ht
  rcases Map.of_insert ht with ⟨-, rfl⟩ | ht
  . exact ⟨d', hs⟩
  . exact hw.stored k t ht

def rootedContract (e : Engine ω) (d : Definition) (id : String) : Contract e where
  inv := Rooted e d id
  le w w' := w.calls ⊆ w'.calls
  refl _ _ h := h
  trans := World.calls_trans
  good _ d' s := e.Reaches d id d' s.executionId
  stable _ _ _ _ _ h := h
  calls _ _ h := h
  edit _ _ _ _ _ h hedit := hedit.executionId_eq ▸ h
  tick _ _ _ _ hinv := ⟨⟨hinv.keyed, hinv.stored⟩, fun _ h => h⟩
  append _ _ _ _ hinv _ := ⟨⟨hinv.keyed, hinv.stored⟩, fun _ h => h⟩
  save _ _ _ hinv h := ⟨hinv.save h, fun _ h => h⟩
  react _ _ _ _ _ _ hinv _ _ := ⟨⟨hinv.keyed, hinv.stored⟩, subset_append_left _ _⟩

theorem rootedContract_closed (h : Apart e d) : (rootedContract e d id).Closed where
  status _ _ _ _ _ hs := hs
  skip _ _ _ _ hs := hs
  child w d' s a resolver childName child hinv hs ha htype hresolver hname hchild _ := by
    obtain ⟨w', -, hfound⟩ := hchild
    have hreaches : e.Reaches d id child (childId s a) :=
      .child hs (Definition.activity_mem ha) ⟨htype, resolver, _, childName, hresolver, hname, hfound⟩
    refine ⟨hreaches, ?_⟩
    intro t ht
    show e.Reaches d id child t.executionId
    rw [Rooted.latest h hinv hreaches ht]
    exact hreaches

theorem rooted_acts (h : Apart e d) (x : ω) (as : List (Act ω))
    (has : ∀ a ∈ as, e.Reaches d id a.definition a.executionId) : Rooted e d id (e.acts x as) := by
  induction as using reverseRecOn with
  | nil =>
    refine ⟨fun k t ht => ?_, fun k t ht => ?_⟩
    . simp [acts] at ht
    . simp [acts] at ht
  | append_singleton as a ih =>
    have hw := ih fun b hb => has b (mem_append_left _ hb)
    have ha := has a (mem_append_right _ (mem_singleton_self a))
    have hload (w : World ω) (t : ExecutionState) (hinv : Rooted e d id w) (ht : w.latest e a.executionId = some t)
        : e.Reaches d id a.definition t.executionId := by
      rw [Rooted.latest h hinv ha ht]
      exact ha
    rw [acts, foldl_append, foldl_cons, foldl_nil]
    refine (Contract.perform_keeps (rootedContract_closed h) (fun _ _ _ _ => ha) hload
      (fun w t hinv ht => World.WellKeyed.latest hinv.keyed ht) ?_ a.process.gas
      ((e.acts x as).boot a.process) ⟨hw.keyed, hw.stored⟩ trivial).1
    exact fun w t key payload _ hinv ht => ⟨a.definition, hload w t hinv ht⟩

end Engine

/--
The activities below an execution that stand for workflows have child executions that are stored apart if and only if
the names on the ways down are, and then, in every run, what such an activity finds stored for its child is an
execution with the id of its child, which is the id for no other activity.
-/
theorem childId_apart_iff {ω : Type} (e : Engine ω) (d : Definition) (id : String)
    : ((∀ s a t b, e.Parent d id s a → e.Parent d id t b →
          e.backend.key (Engine.childId s a) = e.backend.key (Engine.childId t b) →
          s.executionId = t.executionId ∧ a.id = b.id)
        ↔ e.Apart d)
      ∧ (e.Apart d → ∀ (x : ω) (as : List (Act ω)), (∀ act ∈ as, e.Reaches d id act.definition act.executionId) →
          ∀ s a t, e.Parent d id s a → (e.acts x as).latest e (Engine.childId s a) = some t →
          t.executionId = Engine.childId s a ∧ ∀ s' b, e.Parent d id s' b → Engine.childId s' b = t.executionId →
            s'.executionId = s.executionId ∧ b.id = a.id) := by
  refine ⟨⟨?_, fun h s a t b hs ht hkey => hs.eq_of_childId h ht hkey⟩, ?_⟩
  . intro hinj
    rw [← @Engine.apart_iff _ e d id]
    intro names
    induction names using reverseRecOn with
    | nil =>
      intro names' _ hleads' heq
      obtain rfl | ⟨before', t, b, rfl, -⟩ := @Engine.Leads.parent _ e d id _ hleads'
      . rfl
      . have hlength := congrArg String.length heq
        simp [Backend.key_length, spell_append, spell] at hlength
    | append_singleton names name ih =>
      intro names' hleads hleads' heq
      obtain hnil | ⟨before, s, a, hnames, hbefore, hs, hspell⟩ := @Engine.Leads.parent _ e d id _ hleads
      . simp at hnil
      obtain ⟨rfl, hname⟩ := append_inj' hnames rfl
      cases hname
      obtain rfl | ⟨before', t, b, rfl, hbefore', ht, hspell'⟩ := @Engine.Leads.parent _ e d id _ hleads'
      . have hlength := congrArg String.length heq
        simp [Backend.key_length, spell_append, spell] at hlength
      have hsame := hinj s a t b hs ht (by
        rw [Engine.childId_spell hspell, Engine.childId_spell hspell', heq])
      rw [ih before' hbefore hbefore' (by rw [← hspell, ← hspell', hsame.1]), hsame.2]
  . intro h x as has s a t hs ht
    obtain ⟨child, hreaches⟩ := hs.reaches
    have hid := Engine.Rooted.latest h (Engine.rooted_acts h x as has) hreaches ht
    refine ⟨hid, ?_⟩
    intro s' b hs' heq
    exact hs'.eq_of_childId h hs (by rw [heq, hid])

namespace Identity

def leaf : Definition where
  metadata := { name := "leaf" }
  spec := { activities := [{ id := "report", activityType := "function" }] }

def middle : Definition where
  metadata := { name := "middle" }
  spec := { activities := [{ id := "y", activityType := "workflow", name := some "leaf" }] }

def survey : Definition where
  metadata := { name := "survey" }
  spec := {
    activities := [
      { id := "x", activityType := "workflow", name := some "middle" },
      { id := "x::y", activityType := "workflow", name := some "leaf" }] }

def bureau : Engine Unit :=
  { Saga.carrier with
    backend := .memory
    subworkflows := some fun _ name =>
      if name = "leaf" then some leaf else if name = "middle" then some middle else none }

def started (d : Definition) (id : String) : ExecutionState :=
  Engine.initialState d id .null

-- Each of its activities has a report made.
def rounds : Definition where
  metadata := { name := "rounds" }
  spec := {
    activities := [
      { id := "x", activityType := "workflow", name := some "leaf" },
      { id := "y", activityType := "workflow", name := some "leaf" }] }

def archive : Engine Unit :=
  { bureau with backend := .file }

theorem path_rounds {names : List String} {d : Definition} (h : archive.Path rounds names d)
    : (names = [] ∧ d = rounds) ∨ ((names = ["x"] ∨ names = ["y"]) ∧ d = leaf) := by
  induction h with
  | nil => exact .inl ⟨rfl, rfl⟩
  | @snoc _ _ child _ _ ha hchild ih =>
    obtain ⟨htype, resolver, x, name, hresolver, hname, hfound⟩ := hchild
    rcases ih with ⟨rfl, rfl⟩ | ⟨-, rfl⟩
    . cases hresolver
      have hleaf (hname : name = "leaf") : some leaf = some child := by
        subst hname
        exact hfound
      rcases mem_pair.mp ha with rfl | rfl
      . exact .inr ⟨.inl rfl, (Option.some.inj (hleaf (Option.some.inj hname).symm)).symm⟩
      . exact .inr ⟨.inr rfl, (Option.some.inj (hleaf (Option.some.inj hname).symm)).symm⟩
    . rw [mem_singleton.mp ha] at htype
      exact absurd htype (by decide)

theorem apart_rounds : archive.Apart rounds := by
  have hleads {names : List String} (h : archive.Leads rounds names)
      : names = [] ∨ names = ["x"] ∨ names = ["y"] :=
    h.elim fun d hpath => (path_rounds hpath).imp (·.1) (·.1)
  have hone {before after : List String} {name : String}
      (h : ∃ names, archive.Leads rounds names ∧ names.map archive.backend.key = before ++ name :: after)
      : name.length = 1 := by
    obtain ⟨names, hnames, heq⟩ := h
    obtain rfl | rfl | rfl := hleads hnames <;> cases before <;> simp_all
    . rw [← heq.1, Backend.key_length]
      rfl
    . rw [← heq.1, Backend.key_length]
      rfl
  refine ⟨?_, ?_⟩
  . intro before name rest after after' hrest hpath hpath'
    have hlength := hone hpath'
    rw [String.length_append, hone hpath] at hlength
    exact absurd (String.length_eq_zero_iff.mp (by omega)) hrest
  . intro names names' hnames hnames' heq
    obtain rfl | rfl | rfl := hleads hnames <;> obtain rfl | rfl | rfl := hleads hnames' <;>
      first | rfl | exact absurd heq (by decide)

-- The process stops between the start of the second report and its end, and another one goes on.
def made : World Unit :=
  archive.acts () [⟨rounds, "run-1", .run .null, { executor := (), gas := 99, writes := 23 }⟩,
    ⟨rounds, "run-1", .resume, { executor := (), gas := 99, writes := 99 }⟩]

end Identity

open Identity

theorem childId_apart_rounds
    : (made.latest archive "run-1::y").map (·.executionId) = some "run-1::y"
        ∧ (made.latest archive "run-1").map ExecutionState.completedOrder = some ["x", "y"] := by
  refine ⟨?_, by decide +kernel⟩
  obtain ⟨t, ht⟩ : ∃ t, made.latest archive "run-1::y" = some t :=
    Option.isSome_iff_exists.mp (by decide +kernel)
  have hparent : archive.Parent rounds "run-1" (started rounds "run-1")
      { id := "y", activityType := "workflow", name := some "leaf" } :=
    ⟨rounds, leaf, .root, mem_cons_of_mem _ mem_cons_self, rfl, _, (), "leaf", rfl, rfl,
      if_pos rfl⟩
  have hroot (act : Act Unit) (hact : act.definition = rounds ∧ act.executionId = "run-1")
      : archive.Reaches rounds "run-1" act.definition act.executionId := by
    rw [hact.1, hact.2]
    exact .root
  have hown := (childId_apart_iff archive rounds "run-1").2 apart_rounds () _
    (forall_mem_cons.mpr ⟨hroot _ ⟨rfl, rfl⟩, forall_mem_singleton.mpr (hroot _ ⟨rfl, rfl⟩)⟩) _ _ t
    hparent ht
  rw [ht, Option.map_some, hown.1]
  decide

-- The report is made once, for an activity it was not asked for by as well.
theorem childId_shared
    : survey.validate bureau.platform = .ok ()
        ∧ middle.validate bureau.platform = .ok ()
        ∧ leaf.validate bureau.platform = .ok ()
        ∧ (∃ s a t b, bureau.Parent survey "run-1" s a
          ∧ bureau.Parent survey "run-1" t b
          ∧ Engine.childId s a = Engine.childId t b
          ∧ s.executionId ≠ t.executionId ∧ a.id ≠ b.id)
        ∧ (bureau.acts () [⟨survey, "run-1", .run .null,
            { executor := (), gas := 99, writes := 99 }⟩]).calls.length = 1
        ∧ ((bureau.acts () [⟨survey, "run-1", .run .null,
            { executor := (), gas := 99, writes := 99 }⟩]).latest bureau "run-1").map
              ExecutionState.completedOrder = some ["x", "x::y"] := by
  refine ⟨by decide +kernel, by decide +kernel, by decide +kernel, ?_, by decide +kernel, by decide +kernel⟩
  refine ⟨started middle "run-1::x", _, started survey "run-1", _,
    ⟨middle, leaf, ?_, mem_cons_self, ?_⟩,
    ⟨survey, leaf, .root, mem_cons_of_mem _ mem_cons_self, ?_⟩, ?_, ?_, ?_⟩
  . have hchild : Engine.childId (started survey "run-1")
        { id := "x", activityType := "workflow", name := some "middle" } = "run-1::x" := by
      decide
    show bureau.Reaches survey "run-1" middle "run-1::x"
    rw [← hchild]
    refine .child (s := started survey "run-1") .root mem_cons_self ⟨rfl, ?_⟩
    exact ⟨_, (), "middle", rfl, rfl, if_neg (by decide)⟩
  . exact ⟨rfl, _, (), "leaf", rfl, rfl, if_pos rfl⟩
  . exact ⟨rfl, _, (), "leaf", rfl, rfl, if_pos rfl⟩
  . decide
  . decide
  . decide

end Wovyr.Workflow
