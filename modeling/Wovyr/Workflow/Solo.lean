import Wovyr.Lib.Tasks
import Wovyr.Workflow.Engine

/-!
This module contains what tasks come to on their own, and that this is what they come to in a batch or
a fan-out, in whichever order they go on.
-/

namespace Wovyr.Workflow

open List

section

variable {ω : Type} (e : Engine ω)

def Engine.after (x : ω) (contexts : List ActivityContext) : ω :=
  contexts.foldl (fun x context => (e.execute x context).executor) x

/--
The executor answers a call by its context alone, and what else the engine looks up does not depend on
the order of the calls that were made before.
-/
structure Engine.Orderless : Prop where
  execute : ∀ x y context, (e.execute x context).progress = (e.execute y context).progress
    ∧ (e.execute x context).reply = (e.execute y context).reply
  clock : ∀ x contexts contexts', contexts.Perm contexts' →
    e.nowMillis (e.after x contexts) = e.nowMillis (e.after x contexts')
  resolver : ∀ resolver, e.subworkflows = some resolver → ∀ x contexts contexts', contexts.Perm contexts' →
    resolver (e.after x contexts) = resolver (e.after x contexts')

def Task.next (task : Task) : ActivityContext :=
  task.activity.context task.vars (task.attempt + 1)

inductive Solo (kind : String) : Task ⊕ IsolatedOutcome → List ActivityContext × IsolatedOutcome → Prop where
  | done (outcome : IsolatedOutcome) : Solo kind (.inr outcome) ([], outcome)
  | step {task : Task} {slot : Task ⊕ IsolatedOutcome} {contexts : List ActivityContext}
    {outcome : IsolatedOutcome} (x : ω)
    (h : e.settle task (task.attempt + 1) (e.execute x task.next).reply kind = .ok slot)
    (hrest : Solo kind slot (contexts, outcome)) : Solo kind (.inl task) (task.next :: contexts, outcome)

structure Called (contexts : List ActivityContext) (w w' : World ω) : Prop where
  store : w'.events = w.events ∧ w'.checkpoints = w.checkpoints
  timers : w'.timers = w.timers
  writes : w'.writes = w.writes
  executor : w'.executor = e.after w.executor contexts

end

section

variable {ω : Type} {e : Engine ω} {kind : String}

theorem Solo.rightUnique (he : e.Orderless) : Relator.RightUnique (Solo e kind) := by
  intro slot r r' h h'
  induction h generalizing r' with
  | done outcome =>
    cases h'
    rfl
  | @step task slot contexts outcome x h _ ih =>
    cases h' with
    | @step _ slot' contexts' outcome' y h' hrest' =>
      rw [(he.execute y x task.next).2, h] at h'
      cases h'
      cases ih hrest'
      rfl

theorem Called.refl (w : World ω) : Called e [] w w :=
  ⟨⟨rfl, rfl⟩, rfl, rfl, rfl⟩

theorem Called.trans {contexts contexts' : List ActivityContext} {w w' w'' : World ω}
    (h : Called e contexts w w') (h' : Called e contexts' w' w'') : Called e (contexts ++ contexts') w w'' := by
  refine ⟨⟨h'.store.1.trans h.store.1, h'.store.2.trans h.store.2⟩, h'.timers.trans h.timers,
    h'.writes.trans h.writes, ?_⟩
  rw [h'.executor, h.executor]
  unfold Engine.after
  rw [foldl_append]

theorem Called.after_pick {contexts : List ActivityContext} {w w' : World ω}
    (h : Called e contexts { w with picks := w.picks.tail } w') : Called e contexts w w' :=
  ⟨h.store, h.timers, h.writes, h.executor⟩

theorem Called.react (w : World ω) (executionId : String) (rollback : Bool) (context : ActivityContext)
    : Called e [context] w (w.react e executionId rollback context) :=
  ⟨⟨rfl, rfl⟩, rfl, rfl, rfl⟩

theorem pick_apply (n : Nat) (w : World ω)
    : (Engine.pick n : Action ω Nat) w = (.ok (w.picks.headD 0 % n), { w with picks := w.picks.tail }) :=
  rfl

theorem advance_apply (executionId : String) (task : Task) (w : World ω)
    : e.advance executionId kind task w
        =
      Prog.ofExcept (e.settle task (task.attempt + 1) (e.execute w.executor task.next).reply kind)
        (w.react e executionId false task.next) :=
  rfl

theorem advance_step {executionId : String} {task : Task} {w w' : World ω} {slot : Task ⊕ IsolatedOutcome}
    (h : e.advance executionId kind task w = (.ok slot, w'))
    : Called e [task.next] w w'
        ∧ ∀ contexts outcome, Solo e kind slot (contexts, outcome)
          → Solo e kind (.inl task) (task.next :: contexts, outcome) := by
  rw [advance_apply] at h
  cases hsettle : e.settle task (task.attempt + 1) (e.execute w.executor task.next).reply kind with
  | error err =>
    rw [hsettle] at h
    cases h
  | ok slot' =>
    rw [hsettle] at h
    cases h
    exact ⟨.react w executionId false task.next, fun _ _ hrest => .step w.executor hsettle hrest⟩

theorem advance_ok (he : e.Orderless) (executionId : String) {task : Task} {w : World ω}
    {contexts : List ActivityContext} {outcome : IsolatedOutcome}
    (h : Solo e kind (.inl task) (contexts, outcome))
    : ∃ slot contexts' w', contexts = task.next :: contexts' ∧ Solo e kind slot (contexts', outcome)
        ∧ e.advance executionId kind task w = (.ok slot, w') := by
  cases h with
  | @step _ slot contexts' _ x h hrest =>
    refine ⟨slot, contexts', w.react e executionId false task.next, rfl, hrest, ?_⟩
    rw [advance_apply, (he.execute w.executor x task.next).2, h]
    rfl

theorem advance_called (executionId : String) (task : Task) (w : World ω)
    : Called e [task.next] w (e.advance executionId kind task w).2 := by
  rw [advance_apply]
  cases e.settle task (task.attempt + 1) (e.execute w.executor task.next).reply kind <;>
    exact .react w executionId false task.next

end

theorem forall₂_cut {α β : Type} {R : α → β → Prop} {as bs : List α} {rs : List β}
    (h : Forall₂ R (as ++ bs) rs)
    : ∃ as' bs', rs = as' ++ bs' ∧ Forall₂ R as as' ∧ Forall₂ R bs bs' := by
  induction as generalizing rs with
  | nil => exact ⟨[], rs, rfl, .nil, h⟩
  | cons a as ih =>
    obtain ⟨a', rest, ha, hrest, rfl⟩ := forall₂_cons_left_iff.mp h
    obtain ⟨as', bs', rfl, has, hbs⟩ := ih hrest
    exact ⟨a' :: as', bs', rfl, .cons ha has, hbs⟩

theorem forall₂_split {α β : Type} {R : α → β → Prop} {as bs : List α} {x : α} {rs : List β}
    (h : Forall₂ R (as ++ x :: bs) rs)
    : ∃ as' r bs', rs = as' ++ r :: bs' ∧ Forall₂ R as as' ∧ R x r ∧ Forall₂ R bs bs' := by
  obtain ⟨as', rest, rfl, has, hrest⟩ := forall₂_cut h
  obtain ⟨r, bs', hx, hbs, rfl⟩ := forall₂_cons_left_iff.mp hrest
  exact ⟨as', r, bs', rfl, has, hx, hbs⟩

theorem forall₂_left {α β : Type} {R : α → β → Prop} {as : List α} {rs : List β} (h : Forall₂ R as rs)
    {a : α} (ha : a ∈ as) : ∃ r ∈ rs, R a r := by
  induction h with
  | nil => cases ha
  | @cons b r as rs hr _ ih =>
    cases mem_cons.mp ha with
    | inl heq => exact ⟨r, mem_cons_self, heq ▸ hr⟩
    | inr ha =>
      obtain ⟨r', hr', h'⟩ := ih ha
      exact ⟨r', mem_cons_of_mem _ hr', h'⟩

theorem forall₂_right {α β : Type} {R : α → β → Prop} {as : List α} {rs : List β} (h : Forall₂ R as rs)
    {r : β} (hr : r ∈ rs) : ∃ a ∈ as, R a r :=
  forall₂_left h.flip hr

theorem forall₂_join {α β : Type} {R : α → β → Prop} {as bs : List α} {as' bs' : List β}
    (has : Forall₂ R as as') (hbs : Forall₂ R bs bs') : Forall₂ R (as ++ bs) (as' ++ bs') :=
  rel_append has hbs

section

variable {ω : Type} {e : Engine ω}

abbrev Report : Type := List ActivityContext × IsolatedOutcome

def Alone (e : Engine ω) (slots : List (Task ⊕ IsolatedOutcome)) (reports : List Report) : Prop :=
  Forall₂ (Solo e "activity") slots reports

def callsOf (reports : List Report) : List ActivityContext :=
  (reports.map (·.1)).flatten

theorem callsOf_append (reports reports' : List Report)
    : callsOf (reports ++ reports') = callsOf reports ++ callsOf reports' := by
  unfold callsOf
  rw [map_append, flatten_append]

theorem callsOf_cons (report : Report) (reports : List Report)
    : callsOf (report :: reports) = report.1 ++ callsOf reports :=
  rfl

theorem callsOf_middle (reports reports' : List Report) (context : ActivityContext)
    (contexts : List ActivityContext) (outcome : IsolatedOutcome)
    : (callsOf (reports ++ (context :: contexts, outcome) :: reports')).Perm
        (context :: callsOf (reports ++ (contexts, outcome) :: reports')) := by
  rw [callsOf_append, callsOf_append, callsOf_cons, callsOf_cons, cons_append]
  exact perm_middle

theorem race_cases (executionId : String) (gas : Nat) (slots : List (Task ⊕ IsolatedOutcome))
    : (∃ outcomes, slots = outcomes.map .inr ∧ e.race executionId (gas + 1) slots = pure outcomes)
      ∨ ∀ w, ∃ i task, slots[i]? = some (.inl task)
          ∧ e.race executionId (gas + 1) slots w
              = (e.advance executionId "activity" task >>= fun slot => e.race executionId gas (slots.set i slot))
                  { w with picks := w.picks.tail } := by
  rw [Engine.race]
  generalize hrunning : (range slots.length).filter
    (fun i => (slots[i]?.bind Sum.getLeft?).isSome) = running
  split
  next hnil =>
    subst hnil
    left
    refine ⟨slots.filterMap Sum.getRight?, ?_, rfl⟩
    have hdone (slot : Task ⊕ IsolatedOutcome) (hslot : slot ∈ slots) : slot.getLeft? = none := by
      obtain ⟨i, hi, rfl⟩ := mem_iff_getElem.mp hslot
      have hnot := filter_eq_nil_iff.mp hrunning i (mem_range.mpr hi)
      rw [getElem?_eq_getElem hi, Option.bind_some, Option.not_isSome_iff_eq_none] at hnot
      exact hnot
    clear hrunning
    induction slots with
    | nil => rfl
    | cons slot slots ih =>
      cases slot with
      | inl task => cases hdone _ mem_cons_self
      | inr outcome =>
        exact congrArg (cons _) (ih fun slot hslot => hdone slot (mem_cons_of_mem _ hslot))
  next hne =>
    right
    intro w
    have hlt : w.picks.headD 0 % running.length < running.length :=
      Nat.mod_lt _ (length_pos_iff.mpr hne)
    obtain ⟨i, hi⟩ : ∃ i, running[w.picks.headD 0 % running.length]? = some i :=
      ⟨_, getElem?_eq_getElem hlt⟩
    have hmem := mem_of_getElem? hi
    rw [← hrunning, mem_filter] at hmem
    obtain ⟨task, htask⟩ := Option.isSome_iff_exists.mp hmem.2
    obtain ⟨slot, hslot, hleft⟩ := Option.bind_eq_some_iff.mp htask
    rw [Sum.getLeft?_eq_some_iff] at hleft
    subst hleft
    refine ⟨i, task, hslot, ?_⟩
    rw [Prog.bind_of_ok (pick_apply running.length w)]
    simp only [hi, Option.bind_some, hslot, Sum.getLeft?_inl, Option.map_some]

theorem race_called (executionId : String) (gas : Nat) (slots : List (Task ⊕ IsolatedOutcome)) (w : World ω)
    : ∃ contexts, Called e contexts w (e.race executionId gas slots w).2 := by
  induction gas generalizing slots w with
  | zero => exact ⟨[], .refl w⟩
  | succ gas ih =>
    cases race_cases (e := e) executionId gas slots with
    | inl hdone =>
      obtain ⟨outcomes, -, heq⟩ := hdone
      rw [heq]
      exact ⟨[], .refl w⟩
    | inr hround =>
      obtain ⟨i, task, -, heq⟩ := hround w
      have hcalled : Called e [task.next] w
          (e.advance executionId "activity" task { w with picks := w.picks.tail }).2 :=
        Called.after_pick (advance_called executionId task { w with picks := w.picks.tail })
      rw [heq, Prog.bind_apply]
      generalize e.advance executionId "activity" task { w with picks := w.picks.tail } = x at hcalled
      obtain ⟨o, w'⟩ := x
      cases o with
      | ok slot =>
        obtain ⟨contexts, hrest⟩ := ih (slots.set i slot) w'
        exact ⟨_, hcalled.trans hrest⟩
      | err err => exact ⟨_, hcalled⟩
      | halted => exact ⟨_, hcalled⟩

theorem race_sound {executionId : String} {gas : Nat} {slots : List (Task ⊕ IsolatedOutcome)} {w w' : World ω}
    {outcomes : List IsolatedOutcome} (h : e.race executionId gas slots w = (.ok outcomes, w'))
    : ∃ reports contexts, Alone e slots reports ∧ outcomes = reports.map (·.2)
        ∧ Called e contexts w w' ∧ contexts.Perm (callsOf reports) ∧ contexts.length < gas := by
  induction gas generalizing slots w with
  | zero => cases h
  | succ gas ih =>
    cases race_cases (e := e) executionId gas slots with
    | inl hdone =>
      obtain ⟨outcomes', rfl, heq⟩ := hdone
      rw [heq] at h
      cases h
      refine ⟨outcomes.map fun outcome => ([], outcome), [], ?_, ?_, .refl _, ?_, Nat.succ_pos gas⟩
      . unfold Alone
        rw [forall₂_map_left_iff, forall₂_map_right_iff, forall₂_same]
        exact fun outcome _ => .done outcome
      . rw [map_map]
        exact (map_id _).symm
      . have hnone : callsOf (outcomes.map fun outcome => ([], outcome)) = [] := by
          unfold callsOf
          rw [map_map, flatten_eq_nil_iff]
          intro contexts hmem
          obtain ⟨outcome, -, rfl⟩ := mem_map.mp hmem
          rfl
        rw [hnone]
    | inr hround =>
      obtain ⟨i, task, hi, heq⟩ := hround w
      rw [heq, Prog.bind_apply] at h
      cases hadvance : e.advance executionId "activity" task { w with picks := w.picks.tail } with
      | mk o v =>
        rw [hadvance] at h
        cases o with
        | err err => cases h
        | halted => cases h
        | ok slot =>
          obtain ⟨hcalled, hstep⟩ := advance_step hadvance
          obtain ⟨reports, contexts, halone, houtcomes, hcalled', hperm, hlength⟩ := ih h
          obtain ⟨as, bs, hslots, hset, -⟩ := Tasks.split hi
          rw [hset] at halone
          obtain ⟨as', ⟨contexts', outcome⟩, bs', rfl, has, hslot, hbs⟩ := forall₂_split halone
          refine ⟨as' ++ (task.next :: contexts', outcome) :: bs', task.next :: contexts, ?_, ?_,
            (hcalled.after_pick).trans hcalled', ?_, Nat.succ_lt_succ hlength⟩
          . unfold Alone
            rw [hslots]
            exact forall₂_join has (.cons (hstep contexts' outcome hslot) hbs)
          . rw [houtcomes, map_append, map_append]
            rfl
          . exact (hperm.cons task.next).trans (callsOf_middle as' bs' task.next contexts' outcome).symm

theorem race_complete (he : e.Orderless) {executionId : String} {gas : Nat}
    {slots : List (Task ⊕ IsolatedOutcome)} {w : World ω} {reports : List Report} (h : Alone e slots reports)
    (hgas : (callsOf reports).length < gas)
    : ∃ outcomes w', e.race executionId gas slots w = (.ok outcomes, w') := by
  induction gas generalizing slots w reports with
  | zero => cases hgas
  | succ gas ih =>
    cases race_cases (e := e) executionId gas slots with
    | inl hdone =>
      obtain ⟨outcomes, -, heq⟩ := hdone
      exact ⟨outcomes, w, by rw [heq]; rfl⟩
    | inr hround =>
      obtain ⟨i, task, hi, heq⟩ := hround w
      obtain ⟨as, bs, hslots, hset, -⟩ := Tasks.split hi
      unfold Alone at h
      rw [hslots] at h
      obtain ⟨as', ⟨contexts, outcome⟩, bs', rfl, has, htask, hbs⟩ := forall₂_split h
      obtain ⟨slot, contexts', w', rfl, hrest, hadvance⟩ := advance_ok he executionId
        (w := { w with picks := w.picks.tail }) htask
      have hperm := (callsOf_middle as' bs' task.next contexts' outcome).length_eq
      have halone : Alone e (slots.set i slot) (as' ++ (contexts', outcome) :: bs') := by
        unfold Alone
        rw [hset]
        exact forall₂_join has (.cons hrest hbs)
      have hless : (callsOf (as' ++ (contexts', outcome) :: bs')).length < gas := by
        rw [hperm, length_cons] at hgas
        omega
      obtain ⟨outcomes, w'', hrace⟩ := ih (w := w') halone hless
      refine ⟨outcomes, w'', ?_⟩
      rw [heq, Prog.bind_of_ok hadvance]
      exact hrace

open Engine (FanOut)

abbrev ItemReport : Type := Nat × Report

def itemsOf (reports : List ItemReport) : List (Nat × IsolatedOutcome) :=
  reports.map fun report => (report.1, report.2.2)

def itemCalls (reports : List ItemReport) : List ActivityContext :=
  callsOf (reports.map (·.2))

def ItemSolo (e : Engine ω) (x : Nat × (Task ⊕ IsolatedOutcome)) (report : ItemReport) : Prop :=
  x.1 = report.1 ∧ Solo e "for_each item" x.2 report.2

def ItemsAlone (e : Engine ω) (launch : Nat → Nat × (Task ⊕ IsolatedOutcome)) (f : FanOut)
    (reports : List ItemReport) : Prop :=
  Forall₂ (ItemSolo e) (f.inFlight ++ f.queue.map launch) reports

structure Flows (f : FanOut) : Prop where
  budget : f.overBudget = none
  window : f.inFlight = [] → f.queue = []

section

variable {spec : ForEachSpec} {launch : Nat → Nat × (Task ⊕ IsolatedOutcome)} {f : FanOut}

structure Unbudgeted (spec : ForEachSpec) : Prop where
  cost : spec.maxTotalCostUsd = none
  tokens : spec.maxTotalTokens = none

theorem exceeds_unbudgeted (p : Platform) (usage : ActivityUsage) (h : Unbudgeted spec)
    : usage.exceeds p spec.maxTotalCostUsd spec.maxTotalTokens = none := by
  unfold ActivityUsage.exceeds
  rw [h.cost, h.tokens]
  rfl

theorem join_flows (launch : Nat → Nat × (Task ⊕ IsolatedOutcome)) (p : Platform) (hspec : Unbudgeted spec) (h : Flows f) (k index : Nat)
    (outcome : IsolatedOutcome)
    : Flows (f.join p spec launch k index outcome)
        ∧ (f.join p spec launch k index outcome).joined = f.joined ++ [(index, outcome)]
        ∧ (f.join p spec launch k index outcome).inFlight
            ++ (f.join p spec launch k index outcome).queue.map launch
          = f.inFlight.eraseIdx k ++ f.queue.map launch := by
  unfold FanOut.join
  dsimp only
  rw [exceeds_unbudgeted p _ hspec, h.budget]
  cases hqueue : f.queue with
  | nil => exact ⟨⟨rfl, fun _ => rfl⟩, rfl, rfl⟩
  | cons next queue =>
    refine ⟨⟨rfl, ?_⟩, rfl, ?_⟩
    . intro hnil
      exact absurd hnil (append_ne_nil_of_right_ne_nil _ (cons_ne_nil _ _))
    . exact append_assoc (f.inFlight.eraseIdx k) [launch next] (queue.map launch)

theorem fanOut_cases (e : Engine ω) (spec : ForEachSpec) (launch : Nat → Nat × (Task ⊕ IsolatedOutcome))
    (executionId : String) (gas : Nat) (f : FanOut)
    : (f.inFlight = [] ∧ e.fanOut executionId spec launch (gas + 1) f = pure f)
      ∨ ∀ w, ∃ k index,
          (∃ task, f.inFlight[k]? = some (index, .inl task)
            ∧ e.fanOut executionId spec launch (gas + 1) f w
                = (e.advance executionId "for_each item" task >>= fun slot =>
                    e.fanOut executionId spec launch gas { f with inFlight := f.inFlight.set k (index, slot) })
                    { w with picks := w.picks.tail })
          ∨ (∃ outcome, f.inFlight[k]? = some (index, .inr outcome)
            ∧ e.fanOut executionId spec launch (gas + 1) f w
                = e.fanOut executionId spec launch gas (f.join e.platform spec launch k index outcome)
                    { w with picks := w.picks.tail }) := by
  rw [Engine.fanOut]
  split
  next hnil => exact .inl ⟨hnil, rfl⟩
  next hne =>
    right
    intro w
    have hlt : w.picks.headD 0 % f.inFlight.length < f.inFlight.length :=
      Nat.mod_lt _ (length_pos_iff.mpr hne)
    obtain ⟨⟨index, slot⟩, hslot⟩ : ∃ x, f.inFlight[w.picks.headD 0 % f.inFlight.length]? = some x :=
      ⟨_, getElem?_eq_getElem hlt⟩
    refine ⟨w.picks.headD 0 % f.inFlight.length, index, ?_⟩
    rw [Prog.bind_of_ok (pick_apply f.inFlight.length w), hslot]
    cases slot with
    | inl task => exact .inl ⟨task, rfl, rfl⟩
    | inr outcome => exact .inr ⟨outcome, rfl, rfl⟩

theorem fanOut_called (executionId : String) (gas : Nat) (f : FanOut) (w : World ω)
    : ∃ contexts, Called e contexts w (e.fanOut executionId spec launch gas f w).2 := by
  induction gas generalizing f w with
  | zero => exact ⟨[], .refl w⟩
  | succ gas ih =>
    cases fanOut_cases e spec launch executionId gas f with
    | inl hdone =>
      rw [hdone.2]
      exact ⟨[], .refl w⟩
    | inr hround =>
      obtain ⟨k, index, hstep⟩ := hround w
      cases hstep with
      | inl hattempt =>
        obtain ⟨task, -, heq⟩ := hattempt
        have hcalled : Called e [task.next] w
            (e.advance executionId "for_each item" task { w with picks := w.picks.tail }).2 :=
          Called.after_pick (advance_called executionId task { w with picks := w.picks.tail })
        rw [heq, Prog.bind_apply]
        generalize e.advance executionId "for_each item" task { w with picks := w.picks.tail } = x at hcalled
        obtain ⟨o, w'⟩ := x
        cases o with
        | ok slot =>
          obtain ⟨contexts, hrest⟩ := ih { f with inFlight := f.inFlight.set k (index, slot) } w'
          exact ⟨_, hcalled.trans hrest⟩
        | err err => exact ⟨_, hcalled⟩
        | halted => exact ⟨_, hcalled⟩
      | inr hjoin =>
        obtain ⟨outcome, -, heq⟩ := hjoin
        rw [heq]
        obtain ⟨contexts, hrest⟩ := ih (f.join e.platform spec launch k index outcome)
          { w with picks := w.picks.tail }
        exact ⟨contexts, hrest.after_pick⟩

theorem itemCalls_middle (reports reports' : List ItemReport) (index : Nat) (context : ActivityContext)
    (contexts : List ActivityContext) (outcome : IsolatedOutcome)
    : (itemCalls (reports ++ (index, context :: contexts, outcome) :: reports')).Perm
        (context :: itemCalls (reports ++ (index, contexts, outcome) :: reports')) := by
  unfold itemCalls
  rw [map_append, map_append]
  exact callsOf_middle _ _ context contexts outcome

theorem itemCalls_done (reports reports' : List ItemReport) (index : Nat) (outcome : IsolatedOutcome)
    : itemCalls (reports ++ (index, [], outcome) :: reports') = itemCalls (reports ++ reports') := by
  unfold itemCalls
  rw [map_append, map_append, callsOf_append, callsOf_append]
  rfl

theorem fanOut_sound (hspec : Unbudgeted spec) {executionId : String} {gas : Nat} {f f' : FanOut} {w w' : World ω}
    (hf : Flows f) (h : e.fanOut executionId spec launch gas f w = (.ok f', w'))
    : ∃ reports contexts, ItemsAlone e launch f reports ∧ f'.overBudget = none
        ∧ f'.joined.Perm (f.joined ++ itemsOf reports)
        ∧ Called e contexts w w' ∧ contexts.Perm (itemCalls reports)
        ∧ contexts.length + reports.length < gas := by
  induction gas generalizing f w with
  | zero => cases h
  | succ gas ih =>
    cases fanOut_cases e spec launch executionId gas f with
    | inl hdone =>
      obtain ⟨hnil, heq⟩ := hdone
      rw [heq] at h
      cases h
      refine ⟨[], [], ?_, hf.budget, ?_, .refl _, .refl _, Nat.succ_pos gas⟩
      . unfold ItemsAlone
        rw [hnil, hf.window hnil]
        exact .nil
      . rw [show itemsOf [] = [] from rfl, append_nil]
    | inr hround =>
      obtain ⟨k, index, hstep⟩ := hround w
      cases hstep with
      | inl hattempt =>
        obtain ⟨task, hk, heq⟩ := hattempt
        rw [heq, Prog.bind_apply] at h
        cases hadvance : e.advance executionId "for_each item" task { w with picks := w.picks.tail } with
        | mk o v =>
          rw [hadvance] at h
          cases o with
          | err err => cases h
          | halted => cases h
          | ok slot =>
            obtain ⟨hcalled, hsolo⟩ := advance_step hadvance
            obtain ⟨as, bs, hslots, hset, -⟩ := Tasks.split hk
            have hwindow : f.inFlight.set k (index, slot) = [] → f.queue = [] := by
              rw [hset]
              intro hnil
              cases (append_eq_nil_iff.mp hnil).2
            obtain ⟨reports, contexts, halone, hbudget, hjoined, hcalled', hperm, hlength⟩ :=
              ih (f := { f with inFlight := f.inFlight.set k (index, slot) }) ⟨hf.budget, hwindow⟩ h
            unfold ItemsAlone at halone
            rw [hset, append_assoc, cons_append] at halone
            obtain ⟨as', ⟨index', contexts', outcome⟩, bs', rfl, has, hslot, hbs⟩ := forall₂_split halone
            obtain ⟨rfl, hslot⟩ := hslot
            refine ⟨as' ++ (index, task.next :: contexts', outcome) :: bs', task.next :: contexts, ?_, hbudget,
              ?_, hcalled.after_pick.trans hcalled', ?_, ?_⟩
            . unfold ItemsAlone
              rw [hslots, append_assoc, cons_append]
              exact forall₂_join has (.cons ⟨rfl, hsolo contexts' outcome hslot⟩ hbs)
            . apply hjoined.trans
              unfold itemsOf
              rw [map_append, map_append]
              rfl
            . exact (hperm.cons task.next).trans (itemCalls_middle as' bs' index task.next contexts' outcome).symm
            . simp only [length_cons, length_append] at hlength ⊢
              omega
      | inr hjoin =>
        obtain ⟨outcome, hk, heq⟩ := hjoin
        rw [heq] at h
        obtain ⟨as, bs, hslots, -, herase⟩ := Tasks.split hk
        obtain ⟨hflows, hjoined, hrest⟩ := join_flows launch e.platform hspec hf k index outcome
        obtain ⟨reports, contexts, halone, hbudget, hperm, hcalled, hcalls, hlength⟩ := ih hflows h
        unfold ItemsAlone at halone
        rw [hrest, herase, append_assoc] at halone
        obtain ⟨as', bs', rfl, has, hbs⟩ := forall₂_cut halone
        refine ⟨as' ++ (index, [], outcome) :: bs', contexts, ?_, hbudget, ?_, hcalled.after_pick, ?_, ?_⟩
        . unfold ItemsAlone
          rw [hslots, append_assoc, cons_append]
          exact forall₂_join has (.cons ⟨rfl, .done outcome⟩ hbs)
        . apply hperm.trans
          rw [hjoined, append_assoc]
          apply List.Perm.append_left
          unfold itemsOf
          rw [map_append, map_append, map_cons, singleton_append]
          exact perm_middle.symm
        . rw [itemCalls_done]
          exact hcalls
        . simp only [length_cons, length_append] at hlength ⊢
          omega

theorem fanOut_complete (he : e.Orderless) (hspec : Unbudgeted spec) {executionId : String} {gas : Nat}
    {f : FanOut} {w : World ω} {reports : List ItemReport} (hf : Flows f) (h : ItemsAlone e launch f reports)
    (hgas : (itemCalls reports).length + reports.length < gas)
    : ∃ f' w', e.fanOut executionId spec launch gas f w = (.ok f', w') := by
  induction gas generalizing f w reports with
  | zero => cases hgas
  | succ gas ih =>
    cases fanOut_cases e spec launch executionId gas f with
    | inl hdone => exact ⟨f, w, by rw [hdone.2]; rfl⟩
    | inr hround =>
      obtain ⟨k, index, hstep⟩ := hround w
      unfold ItemsAlone at h
      cases hstep with
      | inl hattempt =>
        obtain ⟨task, hk, heq⟩ := hattempt
        obtain ⟨as, bs, hslots, hset, -⟩ := Tasks.split hk
        rw [hslots, append_assoc, cons_append] at h
        obtain ⟨as', ⟨index', contexts, outcome⟩, bs', rfl, has, ⟨rfl, htask⟩, hbs⟩ := forall₂_split h
        obtain ⟨slot, contexts', w', rfl, hrest, hadvance⟩ := advance_ok he executionId
          (w := { w with picks := w.picks.tail }) htask
        have hperm := (itemCalls_middle as' bs' index task.next contexts' outcome).length_eq
        have hwindow : f.inFlight.set k (index, slot) = [] → f.queue = [] := by
          rw [hset]
          intro hnil
          cases (append_eq_nil_iff.mp hnil).2
        have halone : ItemsAlone e launch { f with inFlight := f.inFlight.set k (index, slot) }
            (as' ++ (index, contexts', outcome) :: bs') := by
          unfold ItemsAlone
          rw [hset, append_assoc, cons_append]
          exact forall₂_join has (.cons ⟨rfl, hrest⟩ hbs)
        have hless : (itemCalls (as' ++ (index, contexts', outcome) :: bs')).length
            + (as' ++ (index, contexts', outcome) :: bs').length < gas := by
          dsimp only at hgas
          simp only [length_cons, length_append] at hgas hperm ⊢
          omega
        obtain ⟨f', w'', hfan⟩ := ih (f := { f with inFlight := f.inFlight.set k (index, slot) }) (w := w')
          ⟨hf.budget, hwindow⟩ halone hless
        exact ⟨f', w'', by rw [heq, Prog.bind_of_ok hadvance]; exact hfan⟩
      | inr hjoin =>
        obtain ⟨outcome, hk, heq⟩ := hjoin
        obtain ⟨as, bs, hslots, -, herase⟩ := Tasks.split hk
        rw [hslots, append_assoc, cons_append] at h
        obtain ⟨as', ⟨index', contexts, outcome'⟩, bs', rfl, has, ⟨rfl, hdone⟩, hbs⟩ := forall₂_split h
        cases hdone with
        | done =>
          obtain ⟨hflows, -, hrest⟩ := join_flows launch e.platform hspec hf k index outcome
          rw [itemCalls_done] at hgas
          have halone : ItemsAlone e launch (f.join e.platform spec launch k index outcome) (as' ++ bs') := by
            unfold ItemsAlone
            rw [hrest, herase, append_assoc]
            exact forall₂_join has hbs
          have hless : (itemCalls (as' ++ bs')).length + (as' ++ bs').length < gas := by
            simp only [length_cons, length_append] at hgas ⊢
            omega
          obtain ⟨f', w', hfan⟩ := ih (w := { w with picks := w.picks.tail }) hflows halone hless
          exact ⟨f', w', by rw [heq]; exact hfan⟩

end

end

end Wovyr.Workflow
