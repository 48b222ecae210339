import Wovyr.Workflow.Drive

/-!
This module contains the footprint of an execution: the keys of the stores under which the engine
can write when it drives the execution and its children.
-/

namespace Wovyr.Workflow.Backend

theorem key_append (backend : Backend) (x y : String)
    : backend.key (x ++ y) = backend.key x ++ backend.key y := by
  cases backend with
  | memory => simp [key, keyChars]
  | file => simp [key, keyChars, String.ofList_append]

theorem key_length (backend : Backend) (x : String) : (backend.key x).length = x.length := by
  cases backend with
  | memory => simp [key, keyChars]
  | file => simp [key, keyChars, String.length_toList]

end Backend

section

variable {ω : Type} (e : Engine ω)

namespace World

-- Every checkpoint lies under the key of its own execution.
def WellKeyed (w : World ω) : Prop :=
  ∀ k s, w.checkpoints[k]? = some s → e.backend.key s.executionId = k

variable {e}

theorem WellKeyed.save {w : World ω} (h : w.WellKeyed e) (s : ExecutionState)
    : (w.save e s).WellKeyed e := by
  intro k t ht
  unfold World.save at ht
  rcases Map.of_insert ht with ⟨hk, rfl⟩ | ht
  . exact hk
  . exact h k t ht

theorem WellKeyed.latest {w : World ω} (h : w.WellKeyed e) {executionId : String}
    {s : ExecutionState} (hs : w.latest e executionId = some s)
    : e.backend.key s.executionId = e.backend.key executionId :=
  h _ s hs

end World

def Footprint (root k : String) : Prop :=
  k = root ∨ (e.subworkflows.isSome = true ∧ ∃ t, k = root ++ e.backend.key "::" ++ t)

structure Untouched (outside : String → Prop) (w w' : World ω) : Prop where
  checkpoints : ∀ k, outside k → w'.checkpoints[k]? = w.checkpoints[k]?
  events : ∀ k, outside k → w'.events[k]? = w.events[k]?
  calls : w.calls ⊆ w'.calls

variable {e}

theorem Footprint.childId {root : String} {s : ExecutionState} {a : ActivityDef}
    (hresolver : e.subworkflows.isSome = true) (h : Footprint e root (e.backend.key s.executionId))
    : Footprint e root (e.backend.key (Engine.childId s a)) := by
  unfold Engine.childId
  rw [Backend.key_append, Backend.key_append]
  cases h with
  | inl h =>
    rw [h]
    exact .inr ⟨hresolver, _, rfl⟩
  | inr h =>
    obtain ⟨-, t, ht⟩ := h
    rw [ht]
    refine .inr ⟨hresolver, t ++ e.backend.key "::" ++ e.backend.key a.id, ?_⟩
    simp only [String.append_assoc]

theorem Footprint.length_le {root k : String} (h : Footprint e root k) : root.length ≤ k.length := by
  cases h with
  | inl h => rw [h]
  | inr h =>
    obtain ⟨-, t, ht⟩ := h
    rw [ht]
    simp only [String.length_append]
    omega

theorem untouched_save {root : String} {w : World ω} {s : ExecutionState}
    (h : Footprint e root (e.backend.key s.executionId))
    : Untouched (fun k => ¬Footprint e root k) w (w.save e s) := by
  refine ⟨?_, fun _ _ => rfl, fun _ h => h⟩
  intro k hk
  apply Map.getElem?_insert_of_ne
  intro heq
  exact hk (heq ▸ h)

theorem untouched_append {root : String} {w : World ω} {s : ExecutionState} {event : WorkflowEvent}
    (h : Footprint e root (e.backend.key s.executionId))
    : Untouched (fun k => ¬Footprint e root k) w (w.append e s.executionId event) := by
  refine ⟨fun _ _ => rfl, ?_, fun _ h => h⟩
  intro k hk
  apply Map.getElem?_insert_of_ne
  intro heq
  exact hk (heq ▸ h)

def footprintContract (e : Engine ω) (root : String) : Contract e where
  inv w := w.WellKeyed e
  le := Untouched fun k => ¬Footprint e root k
  refl _ := ⟨fun _ _ => rfl, fun _ _ => rfl, fun _ h => h⟩
  trans _ _ _ h h' :=
    ⟨fun k hk => (h'.checkpoints k hk).trans (h.checkpoints k hk),
      fun k hk => (h'.events k hk).trans (h.events k hk), fun _ hc => h'.calls (h.calls hc)⟩
  good _ _ s := Footprint e root (e.backend.key s.executionId)
  stable _ _ _ _ _ h := h
  calls _ _ h := h.calls
  edit _ _ _ _ _ h hedit := hedit.executionId_eq ▸ h
  tick _ _ _ _ hinv := ⟨hinv, fun _ _ => rfl, fun _ _ => rfl, fun _ h => h⟩
  append _ _ _ _ hinv h := ⟨hinv, untouched_append h⟩
  save _ _ s hinv h := ⟨hinv.save s, untouched_save h⟩
  react _ _ _ _ _ _ hinv _ _ :=
    ⟨hinv, fun _ _ => rfl, fun _ _ => rfl, fun _ h => List.mem_append_left _ h⟩

theorem footprintContract_closed (root : String) : (footprintContract e root).Closed where
  status _ _ _ _ _ h := h
  skip _ _ _ _ h := h
  child w d s a resolver childName child hinv h _ _ hresolver _ _ _ := by
    have hchild : Footprint e root (e.backend.key (Engine.childId s a)) :=
      Footprint.childId (by rw [hresolver]; rfl) h
    refine ⟨hchild, ?_⟩
    intro t ht
    unfold footprintContract
    dsimp only
    rw [World.WellKeyed.latest hinv ht]
    exact hchild

theorem footprint_latest {d : Definition} {executionId : String} {w : World ω} {t : ExecutionState}
    (hinv : w.WellKeyed e) (ht : w.latest e executionId = some t)
    : (footprintContract e (e.backend.key executionId)).good w d t :=
  .inl (World.WellKeyed.latest hinv ht)

section

variable (d : Definition) (executionId : String)

open Keeping

theorem start_footprint (input : Value)
    : (footprintContract e (e.backend.key executionId)).Keeps (fun _ => True)
        (e.start d executionId input) (fun _ _ => True) := by
  have hstart := Contract.start_keeps (d := d) (footprintContract_closed (e := e)
    (e.backend.key executionId)) executionId input
  exact Keeps.post (Keeps.pre (fun _ _ _ => .inl rfl) hstart) fun _ _ _ => trivial

theorem resume_footprint (gas : Nat)
    : (footprintContract e (e.backend.key executionId)).Keeps (fun _ => True)
        (e.resume gas d executionId) (fun _ _ => True) := by
  have hresume := Contract.resume_keeps (d := d) (P := fun _ => True) (footprintContract_closed (e := e)
    (e.backend.key executionId)) (fun w t hinv _ ht _ => footprint_latest hinv ht) gas
  exact Keeps.post hresume fun _ _ _ => trivial

theorem deliver_footprint (gas : Nat) (key : String) (payload : Value)
    : (footprintContract e (e.backend.key executionId)).Keeps (fun _ => True)
        (e.deliver gas d executionId key payload) (fun _ _ => True) := by
  refine Keeps.post (Contract.deliver_keeps (footprintContract_closed _) ?_ ?_ gas)
    fun _ _ _ => trivial
  . intro w t hinv ht
    exact World.WellKeyed.latest hinv ht
  . intro w t hinv _ ht
    have hkey : e.backend.key t.executionId = e.backend.key executionId :=
      World.WellKeyed.latest hinv ht
    exact ⟨⟨d, .inl hkey⟩, fun _ _ _ _ => .inl hkey⟩

theorem cancel_footprint
    : (footprintContract e (e.backend.key executionId)).Keeps (fun _ => True)
        (e.cancel executionId) (fun _ _ => True) := by
  have hcancel := Contract.cancel_keeps
    (d := { metadata := { name := "" }, spec := { activities := [] } }) (P := fun _ => True) (footprintContract_closed (e := e) (e.backend.key executionId))
    (fun w t hinv _ ht => footprint_latest hinv ht)
  exact Keeps.post hcancel fun _ _ _ => trivial

end

end

end Wovyr.Workflow
