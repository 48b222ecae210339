import Wovyr.Workflow.Descent

/-!
This module contains how deep executions can go. A definition may refer to itself, and only the depth of its
executions keeps them from having children without end.
-/

namespace Wovyr.Workflow.Depth

variable {ω : Type} (e : Engine ω) (root : String) (w₀ : World ω)

def Shallow (id : String) : Prop :=
  ∀ n, Nested root n id → n ≤ e.maxSubworkflowDepth

def Allowed (id : String) : Prop :=
  Shallow e root id ∨ (w₀.checkpoints[e.backend.key id]?).isSome = true

structure Bounded (w : World ω) : Prop where
  checkpoints : ∀ (k : String) (s : ExecutionState), w.checkpoints[k]? = some s → Allowed e root w₀ s.executionId
  events : ∀ k : String, w.events[k]? ≠ w₀.events[k]? → ∃ id, e.backend.key id = k ∧ Allowed e root w₀ id
  calls : ∀ c ∈ w.calls, c ∈ w₀.calls ∨ Allowed e root w₀ c.executionId

variable {e root w₀}

theorem shallow_root : Shallow e root root := by
  have hlength {n : Nat} {id : String} (h : Nested root n id) : root.length + 2 * n ≤ id.length := by
    induction h with
    | root => exact Nat.le_refl _
    | child h activity ih =>
      rw [String.length_append, String.length_append]
      have hsep : "::".length = 2 := by decide
      omega
  intro n h
  have hroot := hlength h
  omega

theorem shallow_of_separators {id : String} (h : Engine.separators id.toList ≤ e.maxSubworkflowDepth)
    : Shallow e root id :=
  fun _ hnested => hnested.le_separators.trans h

variable (e root w₀)

def contract : Contract e where
  inv w := w.WellKeyed e ∧ Bounded e root w₀ w
  le w w' := w.calls ⊆ w'.calls
  refl _ _ h := h
  trans := World.calls_trans
  good _ _ s := Allowed e root w₀ s.executionId
  stable _ _ _ _ _ h := h
  calls _ _ h := h
  edit _ _ _ _ _ h hedit := hedit.executionId_eq ▸ h
  tick _ _ _ _ hinv := ⟨⟨hinv.1, hinv.2.checkpoints, hinv.2.events, hinv.2.calls⟩, fun _ h => h⟩
  append w d s event hinv h := by
    refine ⟨⟨hinv.1, hinv.2.checkpoints, ?_, hinv.2.calls⟩, fun _ h => h⟩
    intro k hk
    by_cases hkey : e.backend.key s.executionId = k
    . exact ⟨s.executionId, hkey, h⟩
    . apply hinv.2.events k
      unfold World.append at hk
      rw [Map.getElem?_insert_of_ne _ _ hkey] at hk
      exact hk
  save w d s hinv h := by
    refine ⟨⟨hinv.1.save s, ?_, hinv.2.events, hinv.2.calls⟩, fun _ h => h⟩
    intro k t ht
    unfold World.save at ht
    rcases Map.of_insert ht with ⟨-, rfl⟩ | ht
    . exact h
    . exact hinv.2.checkpoints k t ht
  react w d s rollback a ctx hinv h _ := by
    refine ⟨⟨hinv.1, hinv.2.checkpoints, hinv.2.events, ?_⟩, fun _ h => List.mem_append_left _ h⟩
    intro c hc
    cases List.mem_append.mp hc with
    | inl hold => exact hinv.2.calls c hold
    | inr hnew =>
      rw [List.mem_singleton.mp hnew]
      exact .inr h

variable {e root w₀}

theorem contract_closed : (contract e root w₀).Closed where
  status _ _ _ _ _ h := h
  skip _ _ _ _ h := h
  child w d s a resolver childName child hinv _ _ _ _ _ _ hdepth := by
    refine ⟨.inl (shallow_of_separators hdepth), ?_⟩
    exact fun t ht => hinv.2.checkpoints _ t ht

theorem bounded_self (hkeyed : w₀.WellKeyed e) : Bounded e root w₀ w₀ := by
  refine ⟨?_, fun k hk => absurd rfl hk, fun c hc => .inl hc⟩
  intro k s hs
  right
  rw [hkeyed k s hs, hs]
  rfl

theorem bounded_runWith (hkeyed : w₀.WellKeyed e) (d : Definition) (input : Value) (gas writes : Nat)
    : Bounded e root w₀ (e.runWith (e.drive gas) d root input (World.durable.refill w₀ writes)).2 := by
  have hclosed : (contract e root w₀).Closed := contract_closed
  have hrun := Contract.runWith_keeps (d := d) hclosed (Contract.drive_keeps hclosed gas) root input
  have hself : Bounded e root w₀ w₀ := bounded_self hkeyed
  have hinv : (contract e root w₀).inv (World.durable.refill w₀ writes) :=
    ⟨hkeyed, hself.checkpoints, hself.events, hself.calls⟩
  exact (hrun _ hinv (.inl shallow_root)).1.2

end Depth

section

variable {ω : Type} {e : Engine ω}

theorem failOnce_fails {s : ExecutionState} {id : String} {w : World ω} (hhas : (s.activity? id).isSome = true)
    (hwrites : 2 ≤ w.writes) (msg : String)
    : ∃ t w', e.failOnce s id msg w = (.ok (t, .failed s!"activity `{id}` failed: {msg}"), w')
        ∧ (t.activity? id).map (·.state) = some .failed ∧ w'.latest e s.executionId = some t
        ∧ w'.calls = w.calls := by
  obtain ⟨record, hrecord⟩ := Option.isSome_iff_exists.mp hhas
  obtain ⟨n, hn⟩ : ∃ n, w.writes = n + 2 := ⟨w.writes - 2, by omega⟩
  obtain ⟨t, ht⟩ : ∃ t, t = s.setRecord id
    { record with attempts := record.attempts + 1, state := .failed, lastError := some msg } := ⟨_, rfl⟩
  have hid : t.executionId = s.executionId := ht ▸ rfl
  have hrun : e.failOnce s id msg w
      = (.ok ({ t with version := t.version + 1 }, .failed s!"activity `{id}` failed: {msg}"),
        World.save e { ({ w with writes := n + 1 } : World ω).append e t.executionId (.activityFailed id msg) with
          writes := n } { t with version := t.version + 1 }) := by
    obtain ⟨executor, events, checkpoints, timers, calls, writes, picks⟩ := w
    dsimp only at hn
    subst hn ht
    unfold Engine.failOnce Engine.terminalActivityFailure Engine.recordOf
    rw [hrecord]
    rfl
  refine ⟨_, _, hrun, ?_, ?_, rfl⟩
  . show (t.activity? id).map (·.state) = some .failed
    rw [ht, ExecutionState.activity?_setRecord_self]
    rfl
  . unfold World.latest World.save
    rw [Map.getElem?_insert, ← hid]
    exact if_pos rfl

theorem tooDeep_fails (drive : Definition → ExecutionState → Action ω (RunOutcome × ExecutionState))
    {s : ExecutionState} {a : ActivityDef} {w : World ω} {resolver : ω → String → Option Definition}
    {childName : String} {child : Definition} (hresolver : e.subworkflows = some resolver)
    (hname : a.name = some childName) (hchild : resolver w.executor childName = some child)
    (hdeep : e.maxSubworkflowDepth < Engine.separators (Engine.childId s a).toList)
    (hhas : (s.activity? a.id).isSome = true) (hwrites : 2 ≤ w.writes)
    : ∃ msg t w', e.runSubworkflow drive s a w = (.ok (t, .failed msg), w')
        ∧ (t.activity? a.id).map (·.state) = some .failed ∧ w'.latest e s.executionId = some t
        ∧ w'.calls = w.calls := by
  unfold Engine.runSubworkflow
  simp only [hresolver, hname]
  rw [Prog.bind_of_ok (show Prog.gets (fun w : World ω => resolver w.executor childName) w = (.ok (some child), w) by
    rw [← hchild]
    rfl)]
  simp only [if_pos hdeep]
  obtain ⟨t, w', hrun, hrest⟩ := failOnce_fails (e := e) hhas hwrites _
  exact ⟨_, t, w', hrun, hrest⟩

structure Depth.Sound (e : Engine ω) (root : String) (w : World ω) (d : Definition) : Prop where
  answers : Scope.Answering e
  handled : d.Handled
  children : ∀ a child, e.Resolves a child → child.Handled
  whole : ∀ (k : String) t a child, w.checkpoints[k]? = some t → root.length < k.length →
    t.status.isTerminal = false → e.Resolves a child → Engine.pinned child t = true → Whole child t

theorem runWith_ends {w : World ω} (hkeyed : w.WellKeyed e) (d : Definition) (root : String) (input : Value)
    : ∃ gas writes o w', (∀ g, gas ≤ g → ∀ k,
        e.runWith (e.drive g) d root input (World.durable.refill w (writes + k)) = (o, World.durable.refill w' k))
        ∧ (Depth.Sound e root w d → o ≠ .halted) := by
  let S : Scope := {
    key := e.backend.key root
    pending := fun k t => w.checkpoints[k]? = some t ∧ root.length < k.length ∧ t.status.isTerminal = false
    before := w.store
    cut := ¬Depth.Sound e root w d }
  have hsound (hcut : ¬S.cut) : Depth.Sound e root w d := Classical.byContradiction hcut
  have hsure (hcut : ¬S.cut) : S.Sure e := by
    refine ⟨(hsound hcut).answers, (hsound hcut).children, ?_⟩
    rintro k t a child ⟨ht, hlength, hopen⟩
    exact (hsound hcut).whole k t a child ht hlength hopen
  have hdrive (s : ExecutionState) (hid : s.executionId = root) (hwhole : Whole d s) : S.Drives e d s := by
    refine Scope.drive_completes w.checkpoints.keys ?_
      ⟨by rw [hid]; rfl, hsure, fun hcut => (hsound hcut).handled, fun _ => hwhole⟩
    rintro k t ⟨ht, -⟩
    rw [Std.ExtTreeMap.mem_keys]
    exact Std.ExtTreeMap.isSome_getElem?_iff_mem.mp (Option.isSome_of_eq_some ht)
  have hholds : S.Holds e w.store := by
    refine ⟨hkeyed, ?_, fun _ _ _ => rfl⟩
    intro k t ht hlength hopen
    rw [show S.key = e.backend.key root from rfl, Backend.key_length] at hlength
    exact ⟨ht, hlength, hopen⟩
  have hcovers : S.Covers e root := rfl
  have hrun := Scope.runWith_completes input hcovers hdrive
  obtain ⟨gas, writes, ⟨o, w'⟩, hends, -, -, hcut⟩ := hrun w hholds.loose hholds
  exact ⟨gas, writes, o, w', hends, fun hs ho => hcut ho hs⟩

-- However definitions refer to each other, a run ends, without going too deep, and an activity that would is no
-- error of the engine.
theorem recursion_ends (e : Engine ω) (w : World ω) (hkeyed : w.WellKeyed e) (d : Definition) (root : String)
    (input : Value)
    : (∃ gas writes o w', (∀ g, gas ≤ g → ∀ k,
          e.runWith (e.drive g) d root input (World.durable.refill w (writes + k)) = (o, World.durable.refill w' k))
          ∧ (Depth.Sound e root w d → o ≠ .halted))
        ∧ (∀ gas writes,
          Depth.Bounded e root w (e.runWith (e.drive gas) d root input (World.durable.refill w writes)).2)
        ∧ ∀ (drive : Definition → ExecutionState → Action ω (RunOutcome × ExecutionState)) s a u resolver childName
            child,
          e.subworkflows = some resolver → a.name = some childName → resolver u.executor childName = some child →
          e.maxSubworkflowDepth < Engine.separators (Engine.childId s a).toList
            ∨ ¬Depth.Shallow e root (Engine.childId s a) →
          (s.activity? a.id).isSome = true → 2 ≤ u.writes →
          ∃ msg t u', e.runSubworkflow drive s a u = (.ok (t, .failed msg), u')
            ∧ (t.activity? a.id).map (·.state) = some .failed ∧ u'.latest e s.executionId = some t
            ∧ u'.calls = u.calls := by
  refine ⟨runWith_ends hkeyed d root input, Depth.bounded_runWith hkeyed d input, ?_⟩
  intro drive s a u resolver childName child hresolver hname hchild hdeep hhas hwrites
  refine tooDeep_fails drive hresolver hname hchild ?_ hhas hwrites
  cases hdeep with
  | inl hcount => exact hcount
  | inr hnot =>
    apply Classical.byContradiction
    exact fun hle => hnot (Depth.shallow_of_separators (Nat.le_of_not_lt hle))

end

namespace Depth

def again : Definition where
  metadata := { name := "again" }
  spec := { activities := [{ id := "down:", activityType := "workflow", name := some "again" }] }

def engine : Engine Unit where
  platform := .integral
  backend := .file
  execute _ _ := { executor := (), progress := [], reply := .output .null }
  nowMillis _ := 0
  timers := false
  subworkflows := some fun _ _ => some again
  maxSubworkflowDepth := 3

end Depth

theorem recursion_ends_again
    : ∃ gas writes o w', (∀ g, gas ≤ g → ∀ k,
        Depth.engine.runWith (Depth.engine.drive g) Depth.again "root" .null
          (World.durable.refill { executor := (), writes := 0 } (writes + k)) = (o, World.durable.refill w' k))
        ∧ o ≠ .halted := by
  have hhandled : Depth.again.Handled := by
    intro a ha handler hhandler
    rw [List.mem_singleton.mp ha] at hhandler
    cases hhandler
  have hkeyed : ({ executor := (), writes := 0 } : World Unit).WellKeyed Depth.engine := by
    intro k s hs
    simp at hs
  obtain ⟨⟨gas, writes, o, w', hends, hsound⟩, -⟩ :=
    recursion_ends Depth.engine { executor := (), writes := 0 } hkeyed Depth.again "root" .null
  refine ⟨gas, writes, o, w', hends, hsound ⟨nofun, hhandled, ?_, ?_⟩⟩
  . rintro a child ⟨-, resolver, x, name, hresolver, -, hchild⟩
    cases hresolver
    cases hchild
    exact hhandled
  . intro k t a child ht
    simp at ht

end Wovyr.Workflow
