import Wovyr.Workflow.Operation

/-!
This module contains how an invariant of single executions, each with its log, its checkpoint and the
state that is under way, becomes one of everything that is stored.
-/

namespace Wovyr.Workflow

inductive Turn (d : Definition) (s : ExecutionState) : WorkflowState → WorkflowEvent → Prop where
  | finish (h : s.status = .running) (hcomplete : Engine.forwardComplete d s = some true)
    : Turn d s .completed .workflowCompleted
  | fail (h : s.status = .running) (msg : String) : Turn d s .failed (.workflowFailed msg)
  | rollback (h : s.status = .failed) : Turn d s .compensating .compensationStarted
  | settle (h : s.status = .compensating) : Turn d s .failed .compensationCompleted

def WorkflowEvent.isCompletion : WorkflowEvent → Bool
  | .activityCompleted .. => true
  | _ => false

theorem Turn.isCompletion {d : Definition} {s : ExecutionState} {target : WorkflowState}
    {event : WorkflowEvent} (h : Turn d s target event) : event.isCompletion = false := by
  cases h <;> rfl

theorem isCompletion_of_isNeutral {event : WorkflowEvent} (h : event.isNeutral = true)
    : event.isCompletion = false := by
  cases event <;> first | rfl | cases h

/--
What holds of the checkpoint of an execution beside its log, and of the state that is under way beside
both of them.
-/
structure Account {ω : Type} (e : Engine ω) where
  heir : Definition → String → Prop
  takes : Definition → Value → Prop
  stored : List WorkflowEvent → ExecutionState → Prop
  live : Layer → List WorkflowEvent → Option ExecutionState → Definition → ExecutionState → Prop
  may : Option ExecutionState → ActivityContext → Prop
  child : ∀ d s a child, heir d (e.backend.key s.executionId) → d.Sane → d.activity a.id = some a →
    e.Resolves a child →
    heir child (e.backend.key (Engine.childId s a)) ∧ child.Sane ∧ takes child a.inputs
  begins : ∀ log d id input version, heir d (e.backend.key id) → d.Sane → takes d input →
    live .rest log (some { Engine.initialState d id input with status := .running, version }) d
      { Engine.initialState d id input with status := .running, version }
  loads : ∀ log d s, heir d (e.backend.key s.executionId) → d.Sane → stored log s →
    s.status.isTerminal = false → live .rest log (some s) d s
  stores : ∀ log p d s, heir d (e.backend.key s.executionId) → live .rest log p d s →
    stored log s ∧ live .rest log (some s) d s
  dress : ∀ l log p d s vars version, live l log p d s → Dressed s.vars vars →
    live l log p d { s with vars, version }
  move : ∀ l l' log p d s t, heir d (e.backend.key s.executionId) → d.Sane → s.status ≠ .completed →
    live l log p d s → Move e d s l l' t → live l' log p d t
  note : ∀ l log p d s event, live l log p d s → event.isNeutral = true → l.isOwing = false →
    live l (log ++ [event]) p d s
  pay : ∀ log p d s event, live (.owing event) log p d s → live .rest (log ++ [event]) p d s
  grows : ∀ log s event, stored log s → event.isCompletion = false → stored (log ++ [event]) s
  paid : ∀ log q d s event, heir d (e.backend.key q.executionId) → live (.owing event) log (some q) d s →
    stored log q → stored (log ++ [event]) q
  turn : ∀ log p d s target event, live .rest log p d s → Turn d s target event →
    live .rest (log ++ [event]) p d { s with status := target }
  undo : ∀ log p d s activity id r attempts output, live .rest log p d s → d.Sane →
    s.status ≠ .completed → id ∈ d.compensationTargets → s.activity? id = some r → e.Answers output →
    live (.owing (.compensationStepCompleted activity id)) log p d
      ((s.setRecord id { r with state := .completed, attempts, output := some output }).setVariable id output)
  calls : ∀ l log p d s context, live l log p d s → d.Sane → Callable d s context → may p context

namespace Account

variable {ω : Type} {e : Engine ω} (A : Account e)

def Stored (st : Store) : Prop :=
  ∀ k s, st.checkpoints[k]? = some s →
    e.backend.key s.executionId = k ∧ A.stored (st.events[k]?.getD []) s

structure Good (ph : Phase) (l : Layer) (st : Store) (d : Definition) (s : ExecutionState) : Prop where
  inv : A.Stored st
  sane : d.Sane
  heir : A.heir d (e.backend.key s.executionId)
  unfinished : ph ≠ .done → s.status ≠ .completed
  live : A.live l (st.history e s.executionId) (st.latest e s.executionId) d s

variable {A} {ph : Phase} {l : Layer} {st : Store} {d : Definition} {s : ExecutionState}

theorem Stored.append (h : A.Stored st) {id : String} {event : WorkflowEvent}
    (hevent : ∀ q, st.latest e id = some q → A.stored (st.history e id) q →
      A.stored (st.history e id ++ [event]) q)
    : A.Stored (st.append e id event) := by
  intro k q hq
  obtain ⟨hkey, hstored⟩ := h k q hq
  refine ⟨hkey, ?_⟩
  unfold Store.append
  dsimp only
  rw [Map.getElem?_insert]
  split
  next heq =>
    subst heq
    exact hevent q hq hstored
  next => exact hstored

theorem Stored.save (h : A.Stored st) (hs : A.stored (st.history e s.executionId) s)
    : A.Stored (st.save e s) := by
  intro k q hq
  unfold Store.save at hq
  rcases Map.of_insert hq with ⟨heq, rfl⟩ | hq
  . exact ⟨heq, heq ▸ hs⟩
  . exact h k q hq

theorem Stored.latest (h : A.Stored st) {id : String} {q : ExecutionState} (hq : st.latest e id = some q)
    : e.backend.key q.executionId = e.backend.key id ∧ A.stored (st.history e id) q :=
  h _ q hq

theorem history_append_self (st : Store) (id : String) (event : WorkflowEvent)
    : (st.append e id event).history e id = st.history e id ++ [event] := by
  rw [Store.history_append, if_pos rfl]

theorem Good.append {ph' : Phase} {l' : Layer} {s' : ExecutionState} {event : WorkflowEvent}
    (h : A.Good ph l st d s)
    (hstored : ∀ q, st.latest e s.executionId = some q → A.stored (st.history e s.executionId) q →
      A.stored (st.history e s.executionId ++ [event]) q)
    (hid : s'.executionId = s.executionId) (hstatus : ph' ≠ .done → s'.status ≠ .completed)
    (hlive : A.live l' (st.history e s.executionId ++ [event]) (st.latest e s.executionId) d s')
    : A.Good ph' l' (st.append e s.executionId event) d s' where
  inv := h.inv.append hstored
  sane := h.sane
  heir := hid ▸ h.heir
  unfinished := hstatus
  live := by
    rw [hid, history_append_self]
    exact hlive

theorem Good.turn {ph' : Phase} {target : WorkflowState} {event : WorkflowEvent}
    (h : A.Good ph .rest st d s) (hturn : Turn d s target event)
    (hstatus : ph' ≠ .done → target ≠ .completed)
    : A.Good ph' .rest (st.append e s.executionId event) d { s with status := target } :=
  h.append (fun _ _ hq => A.grows _ _ _ hq hturn.isCompletion) (Eq.refl s.executionId)
    hstatus (A.turn _ _ _ _ _ _ h.live hturn)

theorem Good.elsewhere {st' : Store} (h : A.Good ph l st d s) (hinv : A.Stored st')
    (hhistory : st'.history e s.executionId = st.history e s.executionId)
    (hlatest : st'.latest e s.executionId = st.latest e s.executionId) : A.Good ph l st' d s where
  inv := hinv
  sane := h.sane
  heir := h.heir
  unfinished := h.unfinished
  live := by
    rw [hhistory, hlatest]
    exact h.live

theorem Good.save (h : A.Good ph .rest st d s) : A.Good ph .rest (st.save e s) d s := by
  obtain ⟨hstored, hlive⟩ := A.stores _ _ _ _ h.heir h.live
  refine ⟨h.inv.save hstored, h.sane, h.heir, h.unfinished, ?_⟩
  rw [Store.latest_save, if_pos rfl]
  exact hlive

theorem begin_good (hinv : A.Stored st) {id : String} {input : Value} {version : Nat} (hsane : d.Sane)
    (hheir : A.heir d (e.backend.key id)) (htakes : A.takes d input)
    : A.Good .onward .rest
        (st.save e { Engine.initialState d id input with status := .running, version }) d
        { Engine.initialState d id input with status := .running, version } := by
  have hlive := A.begins (st.history e id) d id input version hheir hsane htakes
  generalize hs : { Engine.initialState d id input with status := .running, version } = s at hlive ⊢
  have hid : s.executionId = id := by
    rw [← hs]
    rfl
  have hstatus : s.status = .running := by
    rw [← hs]
  clear hs
  subst hid
  refine ⟨hinv.save (A.stores _ _ _ _ hheir hlive).1, hsane, hheir, ?_, ?_⟩
  . rw [hstatus]
    nofun
  . rw [Store.latest_save, if_pos rfl]
    exact hlive

theorem ne_of_length {x y : String} (h : x.length < y.length) : y ≠ x := by
  rintro rfl
  exact Nat.lt_irrefl _ h

def course (A : Account e) : Course e where
  inv := A.Stored
  may st call := call.rollback = false → A.may (st.latest e call.executionId) call.context
  fault _ := True
  whole _ := True
  vacant _ _ := True
  heir d id := d.Sane ∧ A.heir d (e.backend.key id)
  takes d _ input := A.takes d input
  good := A.Good
  safe _ _ _ _ _ h := h.inv
  sane _ _ _ _ _ h := h.sane
  onward l st d s := by
    constructor
    . exact fun h => ⟨{ h with unfinished := fun _ => h.unfinished nofun }, trivial⟩
    . exact fun h => { h.1 with unfinished := fun _ => h.1.unfinished nofun }
  ended _ _ _ _ _ := trivial
  other _ _ := trivial
  refused _ _ _ _ _ _ := trivial
  dress _ _ _ _ _ _ _ h hvars := { h with live := A.dress _ _ _ _ _ _ _ h.live hvars }
  move _ _ _ _ _ _ h hmove := by
    have hlive := A.move _ _ _ _ _ _ _ h.heir h.sane (h.unfinished nofun) h.live hmove
    refine ⟨h.inv, h.sane, ?_, ?_, ?_⟩
    . rw [hmove.executionId_eq]
      exact h.heir
    . rw [hmove.status_eq]
      exact h.unfinished
    . rw [hmove.executionId_eq]
      exact hlive
  note _ _ _ _ _ _ h hevent hl :=
    h.append (fun _ _ hq => A.grows _ _ _ hq (isCompletion_of_isNeutral hevent)) rfl h.unfinished
      (A.note _ _ _ _ _ _ h.live hevent hl)
  pay _ _ _ _ _ h := by
    refine h.append ?_ rfl h.unfinished (A.pay _ _ _ _ _ h.live)
    intro q hq hstored
    have hlive := h.live
    rw [hq] at hlive
    apply A.paid _ _ _ _ _ _ hlive hstored
    rw [(h.inv.latest hq).1]
    exact h.heir
  save _ _ _ _ h := h.save
  finish _ _ _ h hstatus hcomplete := h.turn (.finish hstatus hcomplete) fun hdone => absurd rfl hdone
  fail _ _ _ msg h hstatus := h.turn (.fail hstatus msg) nofun
  fall _ _ _ h hstatus := { h with unfinished := fun _ => by rw [hstatus]; nofun }
  turn _ _ _ h hstatus := h.turn (.rollback hstatus) nofun
  settle _ _ _ h hstatus := h.turn (.settle hstatus) nofun
  undo _ _ _ _ _ _ _ _ h hid hr hanswer :=
    ⟨h.inv, h.sane, h.heir, h.unfinished,
      A.undo _ _ _ _ _ _ _ _ _ h.live h.sane (h.unfinished nofun) hid hr hanswer⟩
  calls _ _ _ _ _ _ h hcall := fun _ => A.calls _ _ _ _ _ _ h.live h.sane hcall
  undoes _ _ _ _ _ _ := nofun
  keyed _ _ _ hinv hlatest := (hinv.latest hlatest).1
  vacates _ _ _ _ _ := trivial
  opens _ _ _ _ hinv _ _ _ hevent :=
    ⟨hinv.append fun _ _ hq => A.grows _ _ _ hq (isCompletion_of_isNeutral hevent), trivial, trivial⟩
  begins _ _ _ _ _ hinv _ _ hheir htakes := begin_good hinv hheir.1 hheir.2 htakes
  loads st _ id s hinv _ hheir hlatest hstatus := by
    obtain ⟨hkey, hstored⟩ := hinv.latest hlatest
    have hheir' := hheir.2
    rw [← hkey] at hheir'
    have hhistory := @Store.history_congr _ _ st _ _ hkey
    have hlatest' : st.latest e s.executionId = some s := by
      unfold Store.latest
      rw [hkey]
      exact hlatest
    refine ⟨hinv, hheir.1, hheir', ?_, ?_⟩
    . rintro - hcompleted
      rw [hcompleted] at hstatus
      cases hstatus
    . rw [hhistory, hlatest']
      exact A.loads _ _ _ hheir' hheir.1 hstored hstatus
  child _ _ _ _ _ h ha hchild := by
    obtain ⟨hheir, hsane, htakes⟩ := A.child _ _ _ _ h.heir h.sane ha hchild
    exact ⟨⟨hsane, hheir⟩, htakes⟩
  apart _ _ s _ _ h hlt hinv := by
    apply h.elsewhere hinv
    . rw [Store.history_append, if_neg (ne_of_length hlt)]
    . rfl
  aside _ _ s _ h hlt hinv := by
    apply h.elsewhere hinv
    . rfl
    . rw [Store.latest_save, if_neg (ne_of_length hlt)]

structure Fits (A : Account e) (a : Act ω) : Prop where
  sane : a.definition.Sane
  heir : A.heir a.definition (e.backend.key a.executionId)
  input : ∀ input, a.operation.input = some input → A.takes a.definition input
  delivery : ∀ key payload, a.operation.delivery = some (key, payload) → ∀ log t,
    e.backend.key t.executionId = e.backend.key a.executionId → A.stored log t →
    A.stored log (t.setVariable key payload)
  cancel : a.operation = .cancel → ∀ log t version, A.stored log t → t.status = .running →
    A.stored (log ++ [.workflowCancelled]) { t.cancelled with version }

theorem Stored.cancels (hcancel : ∀ log t version, A.stored log t → t.status = .running →
      A.stored (log ++ [.workflowCancelled]) { t.cancelled with version }) (id : String)
    : Course.Cancels A.course id := by
  intro st t hinv _ hlatest _
  obtain ⟨hkey, hstored⟩ := Stored.latest hinv hlatest
  have happended : A.Stored (st.append e t.executionId .workflowCancelled) :=
    Stored.append hinv fun _ _ hq => A.grows _ _ _ hq rfl
  refine ⟨fun _ => trivial, ?_⟩
  intro hstatus
  refine ⟨happended, ?_⟩
  intro version
  refine ⟨Stored.save happended ?_, trivial⟩
  show A.stored ((st.append e t.executionId .workflowCancelled).history e t.executionId) _
  rw [history_append_self, Store.history_congr hkey]
  exact hcancel _ t version hstored hstatus

theorem act_keeps {a : Act ω} (h : A.Fits a)
    : A.course.Keeps (fun _ => True) (a.program e)
        (fun r st => (∃ ph, A.Good ph .rest st a.definition r.2) ∨ st.latest e a.executionId = some r.2) := by
  apply Course.perform_keeps (K := A.course) ⟨h.sane, h.heir⟩
  . exact fun input hinput => ⟨h.input input hinput, fun _ _ _ => trivial⟩
  . intro key payload hdelivery st t hinv _ hlatest
    obtain ⟨hkey, hstored⟩ := Stored.latest hinv hlatest
    rw [← Store.history_congr hkey] at hstored
    exact ⟨Stored.save hinv (h.delivery key payload hdelivery _ t hkey hstored), trivial⟩
  . exact fun hoperation => Stored.cancels (h.cancel hoperation) a.executionId

theorem Stored.act {a : Act ω} {w : World ω} (hinv : A.Stored w.store) (h : A.Fits a)
    : A.Stored (e.act w a).2.store :=
  Watch.Keeps.inv_stop (W := A.course.watch) (act_keeps h) (s := w.boot a.process) hinv trivial
    a.process.writes

theorem Stored.calls {a : Act ω} {w : World ω} (hinv : A.Stored w.store) (h : A.Fits a)
    : ∀ call ∈ e.latestCalls w a, call.rollback = false →
      A.may ((e.act w a).2.latest e call.executionId) call.context :=
  Watch.Keeps.may_recent (W := A.course.watch) (act_keeps h) (s := w.boot a.process) hinv trivial
    a.process.writes

theorem stored_acts (x : ω) {as : List (Act ω)} (h : ∀ a ∈ as, A.Fits a)
    : A.Stored (e.acts x as).store := by
  have hrun : ∀ (w : World ω), A.Stored w.store →
      A.Stored (as.foldl (fun w a => (e.act w a).2) w).store := by
    induction as with
    | nil => exact fun _ hw => hw
    | cons a as ih =>
      intro w hw
      exact ih (fun b hb => h b (List.mem_cons_of_mem _ hb)) _ (hw.act (h a List.mem_cons_self))
  apply hrun
  intro k s hs
  simp [World.store] at hs

end Wovyr.Workflow.Account
