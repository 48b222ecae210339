import Wovyr.Lib.Likeness
import Wovyr.Workflow.Course
import Wovyr.Workflow.Solo

/-!
This module contains the proof that the order in which the tasks of a batch or of a fan-out go on and
end makes no difference to an execution.
-/

namespace Wovyr.Workflow

open Engine List

section

variable {ω : Type} (e : Engine ω)

/--
Two worlds in which the same has been written, and in which the executor was asked the same, in one order
or another.
-/
structure Alike (w w' : World ω) : Prop where
  store : w.store = w'.store
  timers : w.timers = w'.timers
  writes : w.writes = w'.writes
  executor : ∃ x contexts contexts', contexts.Perm contexts' ∧ w.executor = e.after x contexts
    ∧ w'.executor = e.after x contexts'

def Engine.likeness : Likeness (World ω) where
  like := Alike e
  cut w w' := w.store = w'.store ∧ w.timers = w'.timers
  cut_of_like _ _ h := ⟨h.store, h.timers⟩

def Engine.Repeats {α : Type} (m : Action ω α) : Prop :=
  e.likeness.Repeats m

def Definition.Unbudgeted (p : Platform) (d : Definition) : Prop :=
  ∀ a ∈ d.spec.activities, isForEach a.activityType = true → ∀ spec, ForEachSpec.parse p a = .ok spec →
    Workflow.Unbudgeted spec

end

namespace Alike

variable {ω : Type} {e : Engine ω} {w w' v v' : World ω}

theorem called {contexts contexts' : List ActivityContext} (h : Alike e w w') (hv : Called e contexts w v)
    (hv' : Called e contexts' w' v') (hperm : contexts.Perm contexts') : Alike e v v' := by
  obtain ⟨x, before, before', hbefore, hw, hw'⟩ := h.executor
  have hstore {contexts : List ActivityContext} {w v : World ω} (h : Called e contexts w v) : v.store = w.store := by
    unfold World.store
    rw [h.store.1, h.store.2]
  refine ⟨?_, ?_, ?_, x, before ++ contexts, before' ++ contexts', hbefore.append hperm, ?_, ?_⟩
  . rw [hstore hv, hstore hv', h.store]
  . rw [hv.timers, hv'.timers, h.timers]
  . rw [hv.writes, hv'.writes, h.writes]
  . rw [hv.executor, hw]
    exact (foldl_append ..).symm
  . rw [hv'.executor, hw']
    exact (foldl_append ..).symm

theorem clock (he : e.Orderless) (h : Alike e w w') : e.nowMillis w.executor = e.nowMillis w'.executor := by
  obtain ⟨x, contexts, contexts', hperm, hw, hw'⟩ := h.executor
  rw [hw, hw']
  exact he.clock x contexts contexts' hperm

theorem resolver (he : e.Orderless) {resolver : ω → String → Option Definition}
    (hresolver : e.subworkflows = some resolver) (h : Alike e w w')
    : resolver w.executor = resolver w'.executor := by
  obtain ⟨x, contexts, contexts', hperm, hw, hw'⟩ := h.executor
  rw [hw, hw']
  exact he.resolver resolver hresolver x contexts contexts' hperm

theorem latest (h : Alike e w w') (executionId : String) : w.latest e executionId = w'.latest e executionId :=
  congrArg (fun st : Store => st.checkpoints[e.backend.key executionId]?) h.store

end Alike

namespace Engine.Repeats

open Engine (FanOut)

variable {ω : Type} {e : Engine ω} {α β : Type} {d : Definition} {s : ExecutionState}

theorem pure (a : α) : e.Repeats (pure a : Action ω α) :=
  Likeness.Repeats.pure a

theorem fail (err : Error) : e.Repeats (Prog.fail err : Action ω α) :=
  Likeness.Repeats.fail err

theorem halt : e.Repeats (Prog.halt : Action ω α) :=
  Likeness.Repeats.halt

theorem bind {m : Action ω α} {f : α → Action ω β} (hm : e.Repeats m) (hf : ∀ a, e.Repeats (f a))
    : e.Repeats (m >>= f) :=
  Likeness.Repeats.bind hm hf

theorem ofOption (o : Option α) : e.Repeats (Prog.ofOption o : Action ω α) :=
  Likeness.Repeats.ofOption o

theorem ofExcept (x : Except Error α) : e.Repeats (Prog.ofExcept x : Action ω α) :=
  Likeness.Repeats.ofExcept x

theorem recordOf (id : String) : e.Repeats (recordOf s id : Action ω ActivityRecord) :=
  ofOption _

theorem latest (executionId : String) : e.Repeats (e.latest executionId) :=
  Likeness.Repeats.gets _ fun _ _ h => h.latest executionId

theorem persist {f : World ω → World ω} (hexecutor : ∀ w, (f w).executor = w.executor)
    (hwrites : ∀ w, (f w).writes = w.writes)
    (hf : ∀ w w' : World ω, w.store = w'.store → w.timers = w'.timers →
      (f w).store = (f w').store ∧ (f w).timers = (f w').timers)
    : e.Repeats (Engine.persist f) := by
  intro w w' h
  unfold Engine.persist
  rw [← h.writes]
  split
  . exact .broken nofun nofun ⟨h.store, h.timers⟩
  . obtain ⟨hstore, htimers⟩ :=
      hf { w with writes := w.writes - 1 } { w' with writes := w.writes - 1 } h.store h.timers
    refine .ok rfl ⟨hstore, htimers, ?_, ?_⟩
    . rw [hwrites, hwrites]
    . rw [hexecutor, hexecutor]
      exact h.executor

theorem emit (event : WorkflowEvent) : e.Repeats (e.emit s event) := by
  unfold Engine.emit
  apply bind
  . refine persist (fun _ => rfl) (fun _ => rfl) ?_
    intro w w' hstore htimers
    exact ⟨congrArg (fun st : Store => st.append e s.executionId event) hstore, htimers⟩
  . exact fun _ => pure _

theorem emitAll (events : List WorkflowEvent) : e.Repeats (e.emitAll s events) := by
  induction events generalizing s with
  | nil => exact pure s
  | cons event events ih =>
    unfold emitAll
    exact bind (emit event) fun _ => ih

theorem checkpoint : e.Repeats (e.checkpoint s) := by
  unfold Engine.checkpoint
  refine persist (fun _ => rfl) (fun _ => rfl) ?_
  intro w w' hstore htimers
  exact ⟨congrArg (fun st : Store => st.save e s) hstore, htimers⟩

theorem saved (a : α) : e.Repeats (do e.checkpoint s; return a) :=
  bind checkpoint fun _ => pure a

theorem transition (target : WorkflowState) (event : WorkflowEvent)
    : e.Repeats (e.transition s target event) := by
  unfold Engine.transition
  split
  . exact emit event
  . exact fail _

theorem callExecutor (he : e.Orderless) (executionId : String) (rollback : Bool) (context : ActivityContext)
    : e.Repeats (e.callExecutor executionId rollback context) := by
  intro w w' h
  have hrun (w : World ω) : e.callExecutor executionId rollback context w
      = (.ok ((e.execute w.executor context).progress, (e.execute w.executor context).reply),
          w.react e executionId rollback context) := rfl
  rw [hrun, hrun, (he.execute w.executor w'.executor context).1, (he.execute w.executor w'.executor context).2]
  exact .ok rfl (h.called (.react w executionId rollback context) (.react w' executionId rollback context)
    (.refl _))

/--
A program repeats itself, up to what belongs together, if what it comes to is told by a report, and the
reports there can be all make the same calls.
-/
theorem of_reports {ρ : Type} {m : Action ω α} {S : ρ → α → Prop} (calls : ρ → List ActivityContext)
    {Q : α → α → Prop} (hcalled : ∀ w, ∃ contexts, Called e contexts w (m w).2)
    (hsound : ∀ w a w', m w = (.ok a, w') →
      ∃ report contexts, S report a ∧ Called e contexts w w' ∧ contexts.Perm (calls report))
    (hcomplete : ∀ report a, S report a → ∀ w, ∃ a' w', m w = (.ok a', w'))
    (hunique : ∀ report report' a a', S report a → S report' a' →
      (calls report).Perm (calls report') ∧ Q a a')
    : e.likeness.Tallies Q m m := by
  intro w w' h
  have hcut : e.likeness.cut (m w).2 (m w').2 := by
    obtain ⟨contexts, hw⟩ := hcalled w
    obtain ⟨contexts', hw'⟩ := hcalled w'
    refine ⟨?_, ?_⟩
    . show World.store _ = World.store _
      unfold World.store
      rw [hw.store.1, hw.store.2, hw'.store.1, hw'.store.2]
      exact h.store
    . rw [hw.timers, hw'.timers, h.timers]
  have hback {w : World ω} {a : α} {v : World ω} (hm : m w = (.ok a, v)) (w' : World ω)
      : ∃ a' v', m w' = (.ok a', v') := by
    obtain ⟨report, -, hreport, -, -⟩ := hsound w a v hm
    exact hcomplete report a hreport w'
  by_cases hok : ∃ a v, m w = (.ok a, v)
  . obtain ⟨a, v, hm⟩ := hok
    obtain ⟨a', v', hm'⟩ := hback hm w'
    obtain ⟨report, contexts, hreport, hv, hperm⟩ := hsound w a v hm
    obtain ⟨report', contexts', hreport', hv', hperm'⟩ := hsound w' a' v' hm'
    obtain ⟨hcalls, hQ⟩ := hunique report report' a a' hreport hreport'
    rw [hm, hm']
    exact .ok hQ (h.called hv hv' ((hperm.trans hcalls).trans hperm'.symm))
  . refine .broken ?_ ?_ hcut
    . exact fun a ha => hok ⟨a, _, Prod.ext ha rfl⟩
    . intro a ha
      obtain ⟨a', v', hm⟩ := hback (Prod.ext ha rfl : m w' = (.ok a, (m w').2)) w
      exact hok ⟨a', v', hm⟩

theorem race (he : e.Orderless) (executionId : String) (gas : Nat) (slots : List (Task ⊕ IsolatedOutcome))
    : e.Repeats (e.race executionId gas slots) := by
  apply of_reports callsOf
    (S := fun reports outcomes => Alone e slots reports ∧ outcomes = reports.map (·.2)
      ∧ (callsOf reports).length < gas) (race_called executionId gas slots)
  . intro w outcomes w' h
    obtain ⟨reports, contexts, halone, houtcomes, hcalled, hperm, hlength⟩ := race_sound h
    exact ⟨reports, contexts, ⟨halone, houtcomes, hperm.length_eq ▸ hlength⟩, hcalled, hperm⟩
  . rintro reports outcomes ⟨halone, -, hlength⟩ w
    exact race_complete he halone hlength
  . rintro reports reports' outcomes outcomes' ⟨halone, rfl, -⟩ ⟨halone', rfl, -⟩
    cases (Solo.rightUnique he).forall₂ halone halone'
    exact ⟨.refl _, rfl⟩

theorem sorted_eq {joined joined' items : List (Nat × IsolatedOutcome)} (h : joined.Perm items)
    (h' : joined'.Perm items) (hnodup : (items.map (·.1)).Nodup)
    : joined.mergeSort (fun x y => x.1 ≤ y.1) = joined'.mergeSort (fun x y => x.1 ≤ y.1) := by
  have hsorted (xs : List (Nat × IsolatedOutcome))
      : (xs.mergeSort fun x y => decide (x.1 ≤ y.1)).Pairwise fun x y => x.1 ≤ y.1 := by
    refine List.Pairwise.imp ?_ (pairwise_mergeSort ?_ ?_ xs)
    . exact fun hle => of_decide_eq_true hle
    . intro x y z hxy hyz
      exact decide_eq_true (Nat.le_trans (of_decide_eq_true hxy) (of_decide_eq_true hyz))
    . intro x y
      simp only [Bool.or_eq_true, decide_eq_true_eq]
      exact Nat.le_total x.1 y.1
  have hitems := (mergeSort_perm joined fun x y => x.1 ≤ y.1).trans h
  have hitems' := (mergeSort_perm joined' fun x y => x.1 ≤ y.1).trans h'
  refine List.Perm.eq_of_pairwise ?_ (hsorted joined) (hsorted joined') (hitems.trans hitems'.symm)
  intro x y hx hy hxy hyx
  exact inj_on_of_nodup_map hnodup (hitems.mem_iff.mp hx) (hitems'.mem_iff.mp hy) (Nat.le_antisymm hxy hyx)

def Settles (f f' : FanOut) : Prop :=
  f.overBudget = none ∧ f'.overBudget = none
    ∧ f.joined.mergeSort (fun x y => x.1 ≤ y.1) = f'.joined.mergeSort (fun x y => x.1 ≤ y.1)

theorem indices_of_itemsAlone {launch : Nat → Nat × (Task ⊕ IsolatedOutcome)} {f : FanOut}
    {reports : List ItemReport} (h : ItemsAlone e launch f reports)
    : (itemsOf reports).map (·.1) = (f.inFlight ++ f.queue.map launch).map (·.1) := by
  unfold ItemsAlone at h
  unfold itemsOf
  rw [map_map]
  generalize f.inFlight ++ f.queue.map launch = slots at h ⊢
  induction h with
  | nil => rfl
  | cons hx _ ih => rw [map_cons, map_cons, ih, hx.1]; rfl

theorem fanOut (he : e.Orderless) {spec : ForEachSpec} (hspec : Unbudgeted spec)
    {launch : Nat → Nat × (Task ⊕ IsolatedOutcome)} {f : FanOut} (hf : Flows f) (hjoined : f.joined = [])
    (hnodup : ((f.inFlight ++ f.queue.map launch).map (·.1)).Nodup) (executionId : String) (gas : Nat)
    : e.likeness.Tallies Settles (e.fanOut executionId spec launch gas f)
        (e.fanOut executionId spec launch gas f) := by
  apply of_reports itemCalls
    (S := fun reports f' => ItemsAlone e launch f reports ∧ f'.overBudget = none
      ∧ f'.joined.Perm (itemsOf reports) ∧ (itemCalls reports).length + reports.length < gas)
    (fanOut_called executionId gas f)
  . intro w f' w' h
    obtain ⟨reports, contexts, halone, hbudget, hperm, hcalled, hcalls, hlength⟩ := fanOut_sound hspec hf h
    rw [hjoined, nil_append] at hperm
    exact ⟨reports, contexts, ⟨halone, hbudget, hperm, hcalls.length_eq ▸ hlength⟩, hcalled, hcalls⟩
  . rintro reports f' ⟨halone, -, -, hlength⟩ w
    exact fanOut_complete he hspec hf halone hlength
  . rintro reports reports' f' f'' ⟨halone, hbudget, hperm, -⟩ ⟨halone', hbudget', hperm', -⟩
    have hunique : Relator.RightUnique (ItemSolo e) := by
      rintro x ⟨i, report⟩ ⟨j, report'⟩ ⟨rfl, h⟩ ⟨rfl, h'⟩
      cases Solo.rightUnique he h h'
      rfl
    cases hunique.forall₂ halone halone'
    rw [← indices_of_itemsAlone halone] at hnodup
    exact ⟨.refl _, hbudget, hbudget', sorted_eq hperm hperm' hnodup⟩

theorem applySkips (n : Nat) : e.Repeats (e.applySkips d n s) := by
  induction n generalizing s with
  | zero => exact pure s
  | succ n ih =>
    unfold applySkips
    apply bind (ofOption _)
    intro found
    cases found with
    | none => exact pure s
    | some id => exact bind (emit _) fun _ => bind checkpoint fun _ => ih

theorem terminalActivityFailure (id : String) (attempt : Nat) (msg : String)
    : e.Repeats (e.terminalActivityFailure s id attempt msg) := by
  unfold Engine.terminalActivityFailure
  exact bind (recordOf id) fun _ => bind (emit _) fun _ => saved _

theorem failOnce (id msg : String) : e.Repeats (e.failOnce s id msg) := by
  unfold Engine.failOnce
  exact bind (recordOf id) fun _ => terminalActivityFailure id _ msg

theorem completeActivity (id : String) (record : ActivityRecord) (output : Value)
    : e.Repeats (e.completeActivity s id record output) := by
  unfold Engine.completeActivity
  exact bind (emit _) fun _ => saved _

theorem runAttempts (he : e.Orderless) (a : ActivityDef) (policy : RetryPolicy) (gas : Nat)
    : e.Repeats (e.runAttempts a policy gas s) := by
  induction gas generalizing s with
  | zero => exact halt
  | succ gas ih =>
    unfold runAttempts
    apply bind (recordOf a.id)
    intro record
    apply bind (emit _)
    intro t
    apply bind (callExecutor he _ _ _)
    rintro ⟨progress, reply⟩
    apply bind (emitAll _)
    intro u
    apply bind (recordOf a.id)
    intro record'
    cases reply with
    | panic reason => exact halt
    | output output =>
      dsimp only
      split
      . exact terminalActivityFailure _ _ _
      . exact completeActivity _ _ _
    | error err =>
      cases err with
      | interrupted msg => exact saved _
      | permanent msg => exact terminalActivityFailure _ _ _
      | retryable msg =>
        dsimp only
        split
        . exact terminalActivityFailure _ _ _
        . exact bind (emit _) fun _ => bind checkpoint fun _ => ih

theorem registerTimer (he : e.Orderless) (a : ActivityDef) (spec : WaitSpec)
    : e.Repeats (e.registerTimer s a spec) := by
  unfold Engine.registerTimer
  split
  . split
    . exact pure s
    . split
      . apply bind (Likeness.Repeats.gets _ fun _ _ h => h.clock he)
        intro now
        apply bind
        . refine persist (fun _ => rfl) (fun _ => rfl) ?_
          intro w w' hstore htimers
          exact ⟨hstore, congrArg (fun timers => filter _ timers ++ [_]) htimers⟩
        . exact fun _ => emit _
      . exact fail _
  . exact pure s

theorem clearTimer (spec : WaitSpec) : e.Repeats (e.clearTimer s spec) := by
  unfold Engine.clearTimer
  split
  . split
    . apply bind
      . refine persist (fun _ => rfl) (fun _ => rfl) ?_
        intro w w' hstore htimers
        exact ⟨hstore, congrArg (filter _) htimers⟩
      . exact fun _ => pure _
    . exact pure _
  . exact pure s

theorem runWait (he : e.Orderless) (a : ActivityDef) : e.Repeats (e.runWait s a) := by
  unfold Engine.runWait
  apply bind (ofExcept _)
  intro spec
  split
  . exact bind (recordOf a.id) fun _ => bind (clearTimer spec) fun _ => bind (emit _) fun _ => saved _
  . exact bind (registerTimer he a spec) fun _ => bind (emit _) fun _ => saved _

theorem completeForEach (id : String) (outputs : List Value)
    : e.Repeats (e.completeForEach s id outputs) := by
  unfold Engine.completeForEach
  split
  . exact failOnce id _
  . exact bind (recordOf id) fun _ => completeActivity id _ _

theorem commitFailure (outcome : IsolatedOutcome) (msg : String)
    : e.Repeats (e.commitFailure s outcome msg) := by
  unfold Engine.commitFailure
  exact bind (recordOf _) fun _ => bind (emit _) fun _ => saved _

theorem commitInterrupt (outcome : IsolatedOutcome) : e.Repeats (e.commitInterrupt s outcome) :=
  saved _

theorem commitItem (v : Verdicts) (index : Nat) (outcome : IsolatedOutcome)
    : e.Repeats (e.commitItem s v index outcome) := by
  unfold Engine.commitItem
  apply bind (emitAll _)
  intro t
  cases outcome.result with
  | completed output => exact bind (recordOf _) fun _ => bind (emit _) fun _ => saved _
  | failed msg => exact bind (commitFailure outcome msg) fun _ => pure _
  | interrupted msg => exact bind (commitInterrupt outcome) fun _ => pure _

theorem commitItems (v : Verdicts) (outcomes : List (Nat × IsolatedOutcome))
    : e.Repeats (e.commitItems s v outcomes) := by
  induction outcomes generalizing s v with
  | nil => exact pure _
  | cons x outcomes ih =>
    unfold commitItems
    apply bind (commitItem v x.1 x.2)
    rintro ⟨t, v'⟩
    exact ih v'

theorem finishForEach (a : ActivityDef) (items : List Value) (f : FanOut) (v : Verdicts)
    : e.Repeats (e.finishForEach s a items f v) := by
  unfold Engine.finishForEach
  split
  . exact failOnce _ _
  . exact failOnce _ _
  . exact saved _
  . exact completeForEach _ _

theorem finishForEach_congr (a : ActivityDef) (items : List Value) {f f' : FanOut} (v : Verdicts)
    (h : f.overBudget = none) (h' : f'.overBudget = none)
    : e.finishForEach s a items f v = e.finishForEach s a items f' v := by
  unfold Engine.finishForEach
  rw [h, h']
  cases v.failure with
  | some msg => rfl
  | none =>
    cases v.interrupt with
    | some x => rfl
    | none => rfl

theorem runItems (he : e.Orderless) {a : ActivityDef} {spec : ForEachSpec} (hspec : Unbudgeted spec)
    (hwindow : 0 < spec.maxConcurrent) (gas : Nat) (items : List Value)
    : e.Repeats (e.runItems d gas s a spec items) := by
  unfold Engine.runItems
  generalize addInstances a.id (range items.length) s = t
  generalize (spec.body.retry.or d.spec.retry).getD {} = policy
  dsimp only
  have hindices (pending : List Nat)
      : ((pending.take spec.maxConcurrent).map (launch t a spec policy items)
          ++ (pending.drop spec.maxConcurrent).map (launch t a spec policy items)).map (·.1) = pending := by
    rw [← map_append, take_append_drop, map_map]
    exact map_id pending
  apply Likeness.Tallies.bind (Q := Settles)
  . apply fanOut he hspec _ rfl
    . rw [hindices]
      exact List.Nodup.filter _ nodup_range
    . refine ⟨rfl, ?_⟩
      intro hnil
      rw [map_eq_nil_iff, take_eq_nil_iff] at hnil
      cases hnil with
      | inl hzero => omega
      | inr hnone => rw [hnone, drop_nil]
  . rintro f f' ⟨hf, hf', hsorted⟩
    rw [← hsorted]
    apply Likeness.Tallies.bind (Q := Eq) (commitItems _ _)
    rintro ⟨u, v⟩ _ rfl
    dsimp only
    rw [finishForEach_congr a items v hf' hf]
    exact finishForEach a items f v

theorem runForEach (he : e.Orderless) {a : ActivityDef}
    (ha : ∀ spec, ForEachSpec.parse e.platform a = .ok spec → Unbudgeted spec) (gas : Nat)
    : e.Repeats (e.runForEach d gas s a) := by
  unfold Engine.runForEach
  cases hspec : ForEachSpec.parse e.platform a with
  | error err => exact fail err
  | ok spec =>
    rw [Prog.ofExcept, Prog.pure_bind]
    cases e.forEachItems s a spec with
    | error msg => exact failOnce _ _
    | ok found =>
      obtain ⟨isNew, items⟩ := found
      have hrest (t : ExecutionState) : e.Repeats
          (if items = [] then e.completeForEach (t.removeVariable (forEachMarker a.id)) a.id []
            else e.runItems d gas t a spec items) := by
        split
        . exact completeForEach _ _
        . exact runItems he (ha spec hspec) (ForEachSpec.maxConcurrent_pos hspec) gas items
      cases isNew with
      | false => exact hrest s
      | true => exact bind checkpoint fun _ => hrest _

theorem commitActivity (v : Verdicts) (outcome : IsolatedOutcome)
    : e.Repeats (e.commitActivity s v outcome) := by
  unfold Engine.commitActivity
  apply bind (emitAll _)
  intro t
  cases outcome.result with
  | completed output => exact bind (recordOf _) fun _ => bind (completeActivity _ _ _) fun _ => pure _
  | failed msg => exact bind (commitFailure outcome msg) fun _ => pure _
  | interrupted msg => exact bind (commitInterrupt outcome) fun _ => pure _

theorem commitActivities (v : Verdicts) (outcomes : List IsolatedOutcome)
    : e.Repeats (e.commitActivities s v outcomes) := by
  induction outcomes generalizing s v with
  | nil => exact pure _
  | cons outcome outcomes ih =>
    unfold commitActivities
    apply bind (commitActivity v outcome)
    rintro ⟨t, v'⟩
    exact ih v'

theorem runReadyBatch (he : e.Orderless) (gas : Nat) (batch : List String)
    : e.Repeats (e.runReadyBatch d gas s batch) := by
  unfold Engine.runReadyBatch
  apply bind (ofOption _)
  intro tasks
  apply bind (race he _ gas tasks)
  intro outcomes
  apply bind (commitActivities _ _)
  rintro ⟨t, v⟩
  dsimp only
  split
  . exact pure _
  . exact pure _
  . exact pure _

theorem runCompensation (he : e.Orderless) (a : ActivityDef) (policy : RetryPolicy) (gas attempts : Nat)
    : e.Repeats (e.runCompensation a policy gas attempts s) := by
  induction gas generalizing attempts with
  | zero => exact halt
  | succ gas ih =>
    unfold Engine.runCompensation
    apply bind (callExecutor he _ _ _)
    rintro ⟨progress, reply⟩
    dsimp only
    split
    . exact halt
    . exact bind (recordOf a.id) fun _ => pure _
    . split
      . exact ih _
      . exact pure _
    . exact pure _

theorem rollback (he : e.Orderless) (gas : Nat) (error : String) (plan : List (String × String))
    : e.Repeats (e.rollback d gas error plan s) := by
  induction plan generalizing s with
  | nil =>
    unfold rollback
    exact bind (transition _ _) fun _ => saved _
  | cons x plan ih =>
    unfold rollback
    apply bind (ofOption _)
    intro a
    apply bind (runCompensation he a _ gas 0)
    rintro ⟨t, result⟩
    cases result with
    | ok => exact bind (emit _) fun _ => bind checkpoint fun _ => ih
    | error compErr => exact bind (emit _) fun _ => saved _

theorem markFailed (error : String) : e.Repeats (e.markFailed s error) := by
  unfold Engine.markFailed
  split
  . exact bind (transition _ _) fun _ => saved _
  . exact pure s

theorem compensate (he : e.Orderless) (gas : Nat) (error : String)
    : e.Repeats (e.compensate d gas s error) := by
  unfold Engine.compensate
  apply bind (markFailed error)
  intro t
  split
  . exact pure _
  . apply bind (transition _ _)
    intro u
    apply bind checkpoint
    intro _
    apply bind (rollback he gas error _)
    rintro ⟨v, outcome⟩
    exact pure _

theorem interrupt (activity msg : String) : e.Repeats (e.interrupt s activity msg) := by
  unfold Engine.interrupt
  exact bind (emit _) fun _ => saved _

theorem finish : e.Repeats (e.finish s) := by
  unfold Engine.finish
  exact bind (transition _ _) fun _ => saved _

theorem start (executionId : String) (input : Value) : e.Repeats (e.start d executionId input) := by
  unfold Engine.start
  apply bind (emit _)
  intro created
  apply bind (transition _ _)
  intro validated
  apply bind (transition _ _)
  intro scheduled
  apply bind (transition _ _)
  exact fun _ => saved _

section

variable {drive : Definition → ExecutionState → Action ω (RunOutcome × ExecutionState)}

def Drives (e : Engine ω) (drive : Definition → ExecutionState → Action ω (RunOutcome × ExecutionState))
    : Prop :=
  ∀ d s, d.Unbudgeted e.platform → e.Repeats (drive d s)

theorem runWith (hdrive : Drives e drive) (hd : d.Unbudgeted e.platform) (executionId : String)
    (input : Value) : e.Repeats (e.runWith drive d executionId input) := by
  unfold Engine.runWith
  exact bind (start executionId input) fun t => hdrive d t hd

theorem resumeWith (hdrive : Drives e drive) (hd : d.Unbudgeted e.platform) (executionId : String)
    : e.Repeats (e.resumeWith drive d executionId) := by
  unfold Engine.resumeWith
  apply bind (latest executionId)
  intro found
  cases found with
  | none => exact fail _
  | some t =>
    apply bind (ofExcept _)
    intro _
    split
    . exact pure _
    . exact pure _
    . exact pure _
    . exact hdrive d t hd

theorem settleChild (a : ActivityDef) (childName : String) (outcome : RunOutcome) (child : ExecutionState)
    : e.Repeats (e.settleChild s a childName outcome child) := by
  unfold Engine.settleChild
  cases outcome with
  | completed => exact bind (recordOf a.id) fun _ => completeActivity _ _ _
  | failed msg => exact failOnce _ _
  | compensated msg => exact failOnce _ _
  | interrupted msg => exact saved _

theorem runSubworkflow (he : e.Orderless) (hdrive : Drives e drive) {a : ActivityDef}
    (ha : ∀ child, e.Resolves a child → child.Unbudgeted e.platform) (htype : a.activityType = "workflow")
    : e.Repeats (e.runSubworkflow drive s a) := by
  unfold Engine.runSubworkflow
  cases hresolver : e.subworkflows with
  | none => exact fail _
  | some resolver =>
    cases hname : a.name with
    | none => exact fail _
    | some childName =>
      dsimp only
      apply Likeness.Tallies.bind
        (Q := fun found found' => found = found' ∧ ∃ x, resolver x childName = found)
      . intro w w' h
        have hsame : resolver w.executor = resolver w'.executor := h.resolver he hresolver
        exact .ok ⟨congrFun hsame childName, w.executor, rfl⟩ h
      rintro found _ ⟨rfl, x, hfound⟩
      cases found with
      | none => exact fail _
      | some child =>
        dsimp only
        split
        . exact failOnce _ _
        . have hchild := ha child ⟨htype, resolver, x, childName, hresolver, hname, hfound⟩
          apply bind
          . unfold runChild
            apply bind (latest _)
            intro found
            cases found with
            | none => exact runWith hdrive hchild _ _
            | some t => exact resumeWith hdrive hchild _
          . rintro ⟨outcome, childState⟩
            exact settleChild _ _ _ _

theorem driveOne (he : e.Orderless) (hdrive : Drives e drive) (hd : d.Unbudgeted e.platform)
    (hchildren : ∀ a child, e.Resolves a child → child.Unbudgeted e.platform) (gas : Nat)
    : e.Repeats (e.driveOne drive d gas s) := by
  unfold Engine.driveOne
  apply bind (ofOption _)
  intro ready
  cases ready with
  | none => exact compensate he gas _
  | some id =>
    apply bind
    . unfold runActivity
      cases ha : d.activity id with
      | none => exact halt
      | some a =>
        show e.Repeats (if a.activityType = "wait" then _ else _)
        split
        . exact runWait he a
        . split
          next htype => exact runSubworkflow he hdrive (hchildren a) htype
          . split
            next hforEach => exact runForEach he (hd a (Definition.activity_mem ha) hforEach) gas
            . exact runAttempts he a _ gas
    . rintro ⟨t, step⟩
      cases step with
      | completed => exact hdrive d t hd
      | failed msg => exact compensate he gas msg
      | interrupted msg => exact interrupt id msg

end

theorem drive (he : e.Orderless) (hchildren : ∀ a child, e.Resolves a child → child.Unbudgeted e.platform)
    (gas : Nat) : Drives e (e.drive gas) := by
  induction gas with
  | zero => exact fun _ _ _ => halt
  | succ gas ih =>
    intro d s hd
    unfold Engine.drive
    apply bind (applySkips _)
    intro t
    apply bind (ofOption _)
    intro complete
    split
    . exact finish
    . apply bind (ofOption _)
      intro batch
      split
      . apply bind (runReadyBatch he gas batch)
        rintro ⟨u, step⟩
        cases step with
        | allSettled => exact ih d u hd
        | failed msg => exact compensate he gas msg
        | interrupted activity msg => exact interrupt activity msg
      . exact driveOne he ih hd hchildren gas

end Engine.Repeats

structure SameRun {ω α : Type} (r r' : Outcome Error α × World ω) : Prop where
  result : ∀ a, r.1 = .ok a ↔ r'.1 = .ok a
  store : r.2.store = r'.2.store
  timers : r.2.timers = r'.2.timers

/--
Whichever way the tasks of the batches and the fan-outs go on and end, a run comes to the same outcome and
the same state, and logs, checkpoints and schedules the same.
-/
theorem run_orderless {ω : Type} {e : Engine ω} {d : Definition} (he : e.Orderless)
    (hd : d.Unbudgeted e.platform) (hchildren : ∀ a child, e.Resolves a child → child.Unbudgeted e.platform)
    (gas : Nat) (executionId : String) (input : Value) (w : World ω) (picks picks' : List Nat)
    : SameRun (e.runWith (e.drive gas) d executionId input { w with picks })
        (e.runWith (e.drive gas) d executionId input { w with picks := picks' }) := by
  have halike : Alike e { w with picks } { w with picks := picks' } :=
    ⟨rfl, rfl, rfl, w.executor, [], [], .refl _, rfl, rfl⟩
  obtain ⟨hresult, hstore, htimers⟩ :=
    (Engine.Repeats.runWith (Engine.Repeats.drive he hchildren gas) hd executionId input).ok_iff halike
  exact ⟨hresult, hstore, htimers⟩

namespace Orderless

def striking : Engine Nat where
  platform := Platform.integral
  backend := .memory
  execute n context := ⟨n + 1, [], .output (.string context.id)⟩
  nowMillis n := n
  timers := true
  subworkflows := none

def counted : Definition where
  metadata := { name := "ballot" }
  spec := {
    activities := [⟨"count", "function", none, .null, none, none⟩, ⟨"recount", "function", none, .null, none, none⟩] }

def opened : World Nat := { executor := 0, writes := 20 }

def counts (picks : List Nat) : Outcome Error (RunOutcome × ExecutionState) × World Nat :=
  striking.runWith (striking.drive 9) counted "ballot-1" .null { opened with picks }

theorem after_striking (n : Nat) (contexts : List ActivityContext)
    : striking.after n contexts = n + contexts.length := by
  induction contexts generalizing n with
  | nil => rfl
  | cons context contexts ih =>
    have hstep : striking.after n (context :: contexts) = striking.after (n + 1) contexts := rfl
    rw [hstep, ih, length_cons]
    omega

theorem orderless_striking : striking.Orderless where
  execute _ _ _ := ⟨rfl, rfl⟩
  clock n contexts contexts' h := by
    show striking.after n contexts = striking.after n contexts'
    rw [after_striking, after_striking, h.length_eq]
  resolver _ h := by cases h

theorem unbudgeted_counted : counted.Unbudgeted striking.platform := by
  intro a ha hforEach
  exfalso
  revert a
  decide

end Orderless

theorem run_orderless_ballot
    : (Orderless.counts []).2.calls.map (·.context.id) = ["count", "recount"]
        ∧ (Orderless.counts [1]).2.calls.map (·.context.id) = ["recount", "count"]
        ∧ SameRun (Orderless.counts []) (Orderless.counts [1]) := by
  have hchildren (a : ActivityDef) (child : Definition) (h : Orderless.striking.Resolves a child)
      : child.Unbudgeted Orderless.striking.platform := by
    obtain ⟨-, resolver, x, name, hresolver, -⟩ := h
    cases hresolver
  refine ⟨by decide +kernel, by decide +kernel, ?_⟩
  exact run_orderless Orderless.orderless_striking Orderless.unbudgeted_counted hchildren 9 "ballot-1" .null
    Orderless.opened [] [1]

end Wovyr.Workflow
