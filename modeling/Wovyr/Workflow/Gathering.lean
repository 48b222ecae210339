import Mathlib.Data.List.Sort
import Wovyr.Workflow.Retries
import Wovyr.Workflow.Solo

/-!
This module contains what becomes of the items of a fan-out that has no budget, over any number of
drives.
-/

namespace Wovyr.Workflow

open List Engine Durable.Quiet IsolatedOutcome ExecutionState

def Reply.isOutput : Reply → Bool
  | .output _ => true
  | _ => false

def outputsOf (id : String) (calls : List Call) : List Call :=
  calls.filter fun call => call.context.id == id && call.reply.isOutput

theorem outputsOf_append (id : String) (calls calls' : List Call)
    : outputsOf id (calls ++ calls') = outputsOf id calls ++ outputsOf id calls' :=
  filter_append ..

section

variable {ω : Type} (e : Engine ω)

inductive Served (executionId kind : String) : Task ⊕ IsolatedOutcome → List Call → IsolatedOutcome → Prop where
  | done (outcome : IsolatedOutcome) : Served executionId kind (.inr outcome) [] outcome
  | step {task : Task} {slot : Task ⊕ IsolatedOutcome} {reply : Reply} {calls : List Call}
    {outcome : IsolatedOutcome} (h : e.settle task (task.attempt + 1) reply kind = .ok slot)
    (hrest : Served executionId kind slot calls outcome)
    : Served executionId kind (.inl task) (⟨executionId, false, task.next, reply⟩ :: calls) outcome

def Gave (executionId : String) (vars : Variables) (outputs : List Call) : IsolatedResult → Prop
  | .completed v =>
    ∃ call, outputs = [call] ∧ call.executionId = executionId ∧ call.context.vars = vars
      ∧ call.reply = .output v
  | _ => outputs = []

end

section

variable {ω : Type} {e : Engine ω} {executionId kind : String}

theorem settle_cases {task : Task} {attempt : Nat} {reply : Reply} {slot : Task ⊕ IsolatedOutcome}
    (h : e.settle task attempt reply kind = .ok slot)
    : (∃ v outcome, reply = .output v ∧ slot = .inr outcome ∧ outcome.id = task.activity.id
          ∧ outcome.result = .completed v)
        ∨ (reply.isOutput = false
          ∧ ((∃ outcome, slot = .inr outcome ∧ outcome.id = task.activity.id
              ∧ ∀ v, outcome.result ≠ .completed v)
            ∨ ∃ task', slot = .inl task' ∧ task'.activity = task.activity ∧ task'.vars = task.vars)) := by
  unfold settle at h
  cases reply with
  | panic reason => cases h
  | output v =>
    cases h
    exact .inl ⟨v, _, rfl, rfl, rfl, rfl⟩
  | error err =>
    right
    refine ⟨rfl, ?_⟩
    cases err with
    | permanent msg =>
      cases h
      exact .inl ⟨_, rfl, rfl, nofun⟩
    | interrupted msg =>
      cases h
      exact .inl ⟨_, rfl, rfl, nofun⟩
    | retryable msg =>
      dsimp only at h
      split at h
      . cases h
        exact .inl ⟨_, rfl, rfl, nofun⟩
      . cases h
        exact .inr ⟨_, rfl, rfl, rfl⟩

theorem gave_nil {vars : Variables} {result : IsolatedResult} (h : ∀ v, result ≠ .completed v)
    : Gave executionId vars [] result := by
  cases result with
  | completed v => exact absurd rfl (h v)
  | failed msg => rfl
  | interrupted msg => rfl

theorem Served.gave {task : Task} {calls : List Call} {outcome : IsolatedOutcome}
    (h : Served e executionId kind (.inl task) calls outcome)
    : outcome.id = task.activity.id ∧ (∀ call ∈ calls, call.context.id = task.activity.id)
        ∧ Gave executionId task.vars (calls.filter (·.reply.isOutput)) outcome.result := by
  generalize hslot : Sum.inl task = slot at h
  induction h generalizing task with
  | done outcome => cases hslot
  | @step task' slot reply calls outcome hsettle hrest ih =>
    cases hslot
    rcases settle_cases hsettle with ⟨v, outcome', rfl, rfl, hid, hresult⟩
      | ⟨hreply, ⟨outcome', rfl, hid, hresult⟩ | ⟨task', rfl, hactivity, hvars⟩⟩
    . cases hrest
      refine ⟨hid, ?_, ?_⟩
      . intro call hcall
        rw [mem_singleton.mp hcall]
        rfl
      . rw [hresult]
        exact ⟨_, rfl, rfl, rfl, rfl⟩
    . cases hrest
      refine ⟨hid, ?_, ?_⟩
      . intro call hcall
        rw [mem_singleton.mp hcall]
        rfl
      . rw [filter_cons_of_neg (by simp [hreply])]
        exact gave_nil hresult
    . obtain ⟨hid, hcalls, hgave⟩ := ih rfl
      rw [hactivity] at hid hcalls
      rw [hvars] at hgave
      refine ⟨hid, ?_, ?_⟩
      . intro call hcall
        cases mem_cons.mp hcall with
        | inl heq =>
          rw [heq]
          rfl
        | inr hcall => exact hcalls call hcall
      . rw [filter_cons_of_neg (by simp [hreply])]
        exact hgave

theorem advance_served {task : Task} {slot : Task ⊕ IsolatedOutcome} {w w' : World ω}
    (h : e.advance executionId kind task w = (.ok slot, w'))
    : ∃ reply, w'.calls = w.calls ++ [⟨executionId, false, task.next, reply⟩]
        ∧ e.settle task (task.attempt + 1) reply kind = .ok slot := by
  rw [advance_apply] at h
  obtain ⟨hsettle, rfl⟩ := Prog.of_ofExcept_ok h
  exact ⟨_, rfl, hsettle⟩

end

structure Told where
  index : Nat
  calls : List Call
  outcome : IsolatedOutcome

def Told.item (r : Told) : Nat × IsolatedOutcome :=
  (r.index, r.outcome)

section

open Engine (FanOut)

variable {ω : Type} {e : Engine ω} {executionId : String} {spec : ForEachSpec}
  {launch : Nat → Nat × (Task ⊕ IsolatedOutcome)}

def Tells (e : Engine ω) (executionId : String) (x : Nat × (Task ⊕ IsolatedOutcome)) (r : Told) : Prop :=
  x.1 = r.index ∧ Served e executionId "for_each item" x.2 r.calls r.outcome

theorem flatMap_middle (rs rs' : List Told) (index : Nat) (call : Call) (calls : List Call)
    (outcome : IsolatedOutcome)
    : ((rs ++ ⟨index, call :: calls, outcome⟩ :: rs').flatMap Told.calls).Perm
        (call :: (rs ++ ⟨index, calls, outcome⟩ :: rs').flatMap Told.calls) := by
  simp only [flatMap_append, flatMap_cons, cons_append]
  exact perm_middle

theorem fanOut_served (hspec : Unbudgeted spec) {gas : Nat} {f f' : FanOut} {w w' : World ω}
    (hf : Flows f) (h : e.fanOut executionId spec launch gas f w = (.ok f', w'))
    : f'.overBudget = none ∧ ∃ rs new, Forall₂ (Tells e executionId) (f.inFlight ++ f.queue.map launch) rs
        ∧ f'.joined.Perm (f.joined ++ rs.map Told.item)
        ∧ w'.calls = w.calls ++ new ∧ new.Perm (rs.flatMap Told.calls) := by
  induction gas generalizing f w with
  | zero => cases h
  | succ gas ih =>
    cases fanOut_cases e spec launch executionId gas f with
    | inl hdone =>
      obtain ⟨hnil, heq⟩ := hdone
      rw [heq] at h
      cases h
      refine ⟨hf.budget, [], [], ?_, ?_, ?_, .refl _⟩
      . rw [hnil, hf.window hnil]
        exact .nil
      . rw [map_nil, append_nil]
      . rw [append_nil]
    | inr hround =>
      obtain ⟨k, index, ⟨task, hk, heq⟩ | ⟨outcome, hk, heq⟩⟩ := hround w
      . rw [heq] at h
        obtain ⟨slot, v, hadvance, hrest⟩ := Prog.of_bind_ok h
        obtain ⟨reply, hcalls, hsettle⟩ := advance_served hadvance
        obtain ⟨as, bs, hslots, hset, -⟩ := Tasks.split hk
        have hwindow : f.inFlight.set k (index, slot) = [] → f.queue = [] := by
          rw [hset]
          intro hnil
          cases (append_eq_nil_iff.mp hnil).2
        obtain ⟨hbudget, rs, new, htold, hjoined, hnew, hperm⟩ :=
          ih (f := { f with inFlight := f.inFlight.set k (index, slot) }) ⟨hf.budget, hwindow⟩ hrest
        dsimp only at htold
        rw [hset, append_assoc, cons_append] at htold
        obtain ⟨as', ⟨index', calls', outcome⟩, bs', rfl, has, ⟨hindex, hserved⟩, hbs⟩ :=
          forall₂_split htold
        cases hindex
        refine ⟨hbudget, as' ++ ⟨index, ⟨executionId, false, task.next, reply⟩ :: calls', outcome⟩ :: bs',
          ⟨executionId, false, task.next, reply⟩ :: new, ?_, ?_, ?_, ?_⟩
        . rw [hslots, append_assoc, cons_append]
          exact forall₂_join has (.cons ⟨rfl, .step hsettle hserved⟩ hbs)
        . rw [map_append] at hjoined ⊢
          exact hjoined
        . rw [hnew, hcalls, append_assoc]
          rfl
        . exact (hperm.cons _).trans (flatMap_middle as' bs' index _ calls' outcome).symm
      . rw [heq] at h
        obtain ⟨as, bs, hslots, -, herase⟩ := Tasks.split hk
        obtain ⟨hflows, hjoined, hrest⟩ := join_flows launch e.platform hspec hf k index outcome
        obtain ⟨hbudget, rs, new, htold, hperm, hnew, hcalls⟩ := ih hflows h
        rw [hrest, herase, append_assoc] at htold
        obtain ⟨as', bs', rfl, has, hbs⟩ := forall₂_cut htold
        refine ⟨hbudget, as' ++ ⟨index, [], outcome⟩ :: bs', new, ?_, ?_, hnew, ?_⟩
        . rw [hslots, append_assoc, cons_append]
          exact forall₂_join has (.cons ⟨rfl, .done outcome⟩ hbs)
        . apply hperm.trans
          rw [hjoined, append_assoc]
          apply List.Perm.append_left
          rw [map_append, map_append, map_cons, singleton_append]
          exact perm_middle.symm
        . rw [flatMap_append, flatMap_cons, nil_append, ← flatMap_append]
          exact hcalls

end

structure Within (ids : List String) (s t : ExecutionState) : Prop where
  executionId : t.executionId = s.executionId
  vars : t.vars = s.vars
  others : ∀ id, id ∉ ids → t.activity? id = s.activity? id

def Entered (t : ExecutionState) (outcome : IsolatedOutcome) : Prop :=
  ∃ record, t.activity? outcome.id = some record ∧ record.state = outcome.state
    ∧ ∀ v, outcome.result = .completed v → record.output = some v

def itemId (x : Nat × IsolatedOutcome) : String :=
  x.2.id

structure Clears (v v' : Verdicts) (outcomes : List IsolatedOutcome) : Prop where
  failure : v'.failure = none → v.failure = none ∧ ∀ outcome ∈ outcomes, outcome.state ≠ .failed
  interrupt : v'.interrupt = none → v.interrupt = none ∧ ∀ outcome ∈ outcomes, outcome.state ≠ .ready

namespace Within

variable {ids : List String} {s t u : ExecutionState}

theorem refl (s : ExecutionState) : Within [] s s :=
  ⟨rfl, rfl, fun _ _ => rfl⟩

theorem setRecord (s : ExecutionState) (id : String) (r : ActivityRecord) (version : Nat)
    : Within [id] s { s.setRecord id r with version } := by
  refine ⟨rfl, rfl, ?_⟩
  intro id' hid
  exact activity?_setRecord_of_ne s r fun heq => hid (heq ▸ mem_singleton_self _)

theorem trans {ids' : List String} (h : Within ids s t) (h' : Within ids' t u) : Within (ids ++ ids') s u := by
  refine ⟨h'.executionId.trans h.executionId, h'.vars.trans h.vars, ?_⟩
  intro id hid
  rw [mem_append, not_or] at hid
  exact (h'.others id hid.2).trans (h.others id hid.1)

theorem again {id : String} (h : Within [id] s t) (h' : Within [id] t u) : Within [id] s u := by
  refine ⟨h'.executionId.trans h.executionId, h'.vars.trans h.vars, ?_⟩
  exact fun id' hid => (h'.others id' hid).trans (h.others id' hid)

end Within

section

variable {ω : Type} {e : Engine ω} {s : ExecutionState}

open Calls

theorem commitItem_quiet {outcome : IsolatedOutcome} {record : ActivityRecord} (v : Verdicts)
    (index : Nat) (hrecord : s.activity? outcome.id = some record)
    : World.durable.Quiet (e.commitItem s v index outcome) fun r =>
        Within [outcome.id] s r.1 ∧ Entered r.1 outcome ∧ Clears v r.2 [outcome] := by
  unfold commitItem
  rw [setActivity_eq hrecord]
  apply bind (emitAll_logs _)
  rintro u ⟨version, rfl⟩
  have hwithin := Within.setRecord s outcome.id { record with state := .running } version
  have hrunning := activity?_setRecord_self s outcome.id { record with state := .running }
  generalize hu : { s.setRecord outcome.id { record with state := .running } with version } = u at hwithin ⊢
  replace hrunning : u.activity? outcome.id = some { record with state := .running } := hu ▸ hrunning
  cases hresult : outcome.result with
  | completed output =>
    dsimp only
    apply recordOf_logs hrunning
    apply bind (emit_logs _)
    rintro t rfl
    apply bind checkpoint_logs
    intro _ _
    apply Durable.Quiet.pure
    refine ⟨hwithin.again (.setRecord u outcome.id _ _), ?_, ?_⟩
    . refine ⟨_, activity?_setRecord_self u outcome.id _, ?_, ?_⟩
      . simp [state, hresult]
      . intro v' hv
        rw [hresult] at hv
        cases hv
        rfl
    . constructor <;> simp +contextual [state, hresult]
  | failed msg =>
    dsimp only
    apply bind (commitFailure_quiet hrunning msg)
    rintro t ⟨version', rfl⟩
    apply Durable.Quiet.pure
    refine ⟨hwithin.again (.setRecord u outcome.id _ _), ?_, ?_⟩
    . refine ⟨_, activity?_setRecord_self u outcome.id _, ?_, ?_⟩
      . simp [state, hresult]
      . intro v' hv
        rw [hresult] at hv
        cases hv
    . constructor <;> simp +contextual [state, hresult, Engine.Verdicts.fail]
  | interrupted msg =>
    dsimp only
    apply bind (commitInterrupt_quiet hrunning)
    rintro t rfl
    apply Durable.Quiet.pure
    refine ⟨hwithin.again (.setRecord u outcome.id { record with state := .ready } u.version), ?_, ?_⟩
    . refine ⟨_, activity?_setRecord_self u outcome.id _, ?_, ?_⟩
      . simp [state, hresult]
      . intro v' hv
        rw [hresult] at hv
        cases hv
    . constructor <;> simp +contextual [state, hresult, Engine.Verdicts.suspend]

theorem commitItems_quiet {outcomes : List (Nat × IsolatedOutcome)} (v : Verdicts)
    (hnodup : (outcomes.map itemId).Nodup)
    (hrecorded : ∀ x ∈ outcomes, ∃ record, s.activity? x.2.id = some record)
    : World.durable.Quiet (e.commitItems s v outcomes) fun r =>
        Within (outcomes.map itemId) s r.1 ∧ (∀ x ∈ outcomes, Entered r.1 x.2)
          ∧ Clears v r.2 (outcomes.map Prod.snd) := by
  induction outcomes generalizing s v with
  | nil => exact Durable.Quiet.pure _ ⟨.refl s, nofun, fun h => ⟨h, nofun⟩, fun h => ⟨h, nofun⟩⟩
  | cons x outcomes ih =>
    obtain ⟨index, outcome⟩ := x
    obtain ⟨hnotMem, hnodup⟩ := nodup_cons.mp hnodup
    obtain ⟨record, hrecord⟩ := hrecorded _ mem_cons_self
    unfold commitItems
    apply bind (commitItem_quiet v index hrecord)
    rintro ⟨t, v'⟩ ⟨hwithin, hentered, hclears⟩
    have hrest (x : Nat × IsolatedOutcome) (hx : x ∈ outcomes) : t.activity? x.2.id = s.activity? x.2.id := by
      apply hwithin.others
      intro hmem
      apply hnotMem
      show outcome.id ∈ outcomes.map itemId
      rw [← mem_singleton.mp hmem]
      exact mem_map_of_mem (f := itemId) hx
    apply Durable.Logs.post (ih v' hnodup ?_)
    . rintro o new ⟨rfl, h⟩
      refine ⟨rfl, ?_⟩
      intro r hr
      obtain ⟨hwithin', hentered', hclears'⟩ := h r hr
      refine ⟨hwithin.trans hwithin', ?_, ?_, ?_⟩
      . intro x hx
        cases mem_cons.mp hx with
        | inl heq =>
          subst heq
          obtain ⟨record', hrecord', hstate⟩ := hentered
          exact ⟨record', (hwithin'.others _ hnotMem).trans hrecord', hstate⟩
        | inr hx => exact hentered' x hx
      . intro hfailure
        obtain ⟨hnone, hall⟩ := hclears'.failure hfailure
        obtain ⟨hnone', hone⟩ := hclears.failure hnone
        exact ⟨hnone', forall_mem_cons.mpr ⟨hone outcome mem_cons_self, hall⟩⟩
      . intro hinterrupt
        obtain ⟨hnone, hall⟩ := hclears'.interrupt hinterrupt
        obtain ⟨hnone', hone⟩ := hclears.interrupt hnone
        exact ⟨hnone', forall_mem_cons.mpr ⟨hone outcome mem_cons_self, hall⟩⟩
    . intro x hx
      rw [hrest x hx]
      exact hrecorded x (mem_cons_of_mem _ hx)

end

structure Gives (executionId : String) (items : List Value) (i : Nat) (v : Value) (call : Call) : Prop where
  executionId : call.executionId = executionId
  item : ∃ value, items[i]? = some value ∧ call.context.vars["item"]? = some value
  index : call.context.vars["item_index"]? = some (.int i)
  reply : call.reply = .output v

structure Entry (id : String) (items : List Value) (s : ExecutionState) (calls : List Call) (i : Nat) : Prop where
  done : ∀ record, s.activity? (instanceId id i) = some record → record.state = .completed →
    ∃ v call, record.output = some v ∧ outputsOf (instanceId id i) calls = [call]
      ∧ Gives s.executionId items i v call
  undone : (∀ record, s.activity? (instanceId id i) = some record → record.state ≠ .completed) →
    outputsOf (instanceId id i) calls = []

structure Reported (s : ExecutionState) (id : String) (items : List Value) (i : Nat) (r : Told) : Prop where
  index : r.index = i
  outcome : r.outcome.id = instanceId id i
  calls : ∀ call ∈ r.calls, call.context.id = instanceId id i
  gave : Gave s.executionId (itemVars s.vars (items[i]?.getD .null) i)
    (r.calls.filter (·.reply.isOutput)) r.outcome.result

section

variable {ω : Type} {e : Engine ω} {s t : ExecutionState} {id : String} {items : List Value} {i j : Nat}
  {r : Told} {rs : List Told} {pending : List Nat} {calls new : List Call}

theorem Reported.of_tells {a : ActivityDef} {spec : ForEachSpec} {policy : RetryPolicy}
    (h : Tells e s.executionId (launch s a spec policy items i) r) : Reported s a.id items i r := by
  obtain ⟨hindex, hserved⟩ := h
  obtain ⟨hid, hcalls, hgave⟩ := hserved.gave
  exact ⟨hindex.symm, hid, hcalls, hgave⟩

theorem Reported.outputs_self (h : Reported s id items i r)
    : outputsOf (instanceId id i) r.calls = r.calls.filter (·.reply.isOutput) := by
  apply filter_congr
  intro call hcall
  simp [h.calls call hcall]

theorem Reported.outputs_other (h : Reported s id items j r) (hne : i ≠ j)
    : outputsOf (instanceId id i) r.calls = [] := by
  rw [outputsOf, filter_eq_nil_iff]
  intro call hcall
  have hids : instanceId id j ≠ instanceId id i := fun heq => hne (instanceId_inj heq).symm
  simp [h.calls call hcall, hids]

theorem reported_ids (h : Forall₂ (Reported s id items) pending rs)
    : rs.map (·.outcome.id) = pending.map (instanceId id) := by
  induction h with
  | nil => rfl
  | cons hr _ ih => rw [map_cons, map_cons, hr.outcome, ih]

theorem outputs_told (h : Forall₂ (Reported s id items) pending rs) (hnodup : pending.Nodup)
    : (i ∉ pending → outputsOf (instanceId id i) (rs.flatMap Told.calls) = [])
        ∧ ∀ r ∈ rs, r.index = i →
          outputsOf (instanceId id i) (rs.flatMap Told.calls) = r.calls.filter (·.reply.isOutput) := by
  induction h with
  | nil => exact ⟨fun _ => rfl, nofun⟩
  | @cons j r pending rs hr hrs ih =>
    obtain ⟨hnotMem, hnodup⟩ := nodup_cons.mp hnodup
    obtain ⟨hnone, hall⟩ := ih hnodup
    rw [flatMap_cons, outputsOf_append]
    refine ⟨?_, ?_⟩
    . intro hi
      rw [mem_cons, not_or] at hi
      rw [hr.outputs_other hi.1, hnone hi.2]
      rfl
    . intro r' hr' hindex
      cases mem_cons.mp hr' with
      | inl heq =>
        subst heq
        obtain rfl : j = i := hr.index.symm.trans hindex
        rw [hr.outputs_self, hnone hnotMem, append_nil]
      | inr hr' =>
        obtain ⟨k, hk, hreported⟩ := forall₂_right hrs hr'
        obtain rfl : k = i := hreported.index.symm.trans hindex
        have hne : k ≠ j := by
          rintro rfl
          exact hnotMem hk
        rw [hr.outputs_other hne, hall r' hr' hindex]
        rfl

end

section

variable {s t : ExecutionState} {id : String} {items : List Value} {i : Nat} {rs : List Told}
  {pending : List Nat} {calls new : List Call}

theorem perm_outputs (h : new.Perm calls) (id : String) : (outputsOf id new).Perm (outputsOf id calls) :=
  h.filter _

theorem mem_pending_iff {n : Nat}
    : i ∈ pendingItems s id n ↔
        i < n ∧ ∀ record, s.activity? (instanceId id i) = some record → record.state ≠ .completed := by
  unfold pendingItems
  rw [mem_filter, mem_range]
  cases s.activity? (instanceId id i) with
  | none => simp
  | some record => simp

theorem state_eq_completed {outcome : IsolatedOutcome} (h : outcome.state = .completed)
    : ∃ v, outcome.result = .completed v := by
  unfold state at h
  cases hresult : outcome.result with
  | completed v => exact ⟨v, rfl⟩
  | failed msg | interrupted msg =>
    rw [hresult] at h
    cases h

theorem outcome_completed {outcome : IsolatedOutcome} (hfailed : outcome.state ≠ .failed)
    (hready : outcome.state ≠ .ready) : outcome.state = .completed := by
  unfold state at *
  cases hresult : outcome.result with
  | completed v => rfl
  | failed msg =>
    rw [hresult] at hfailed
    exact absurd rfl hfailed
  | interrupted msg =>
    rw [hresult] at hready
    exact absurd rfl hready

theorem gave_of_state {vars : Variables} {executionId : String} {outputs : List Call} {outcome : IsolatedOutcome}
    (h : Gave executionId vars outputs outcome.result) (hstate : outcome.state ≠ .completed) : outputs = [] := by
  unfold state at hstate
  cases hresult : outcome.result with
  | completed v =>
    rw [hresult] at hstate
    exact absurd rfl hstate
  | failed msg | interrupted msg =>
    rw [hresult] at h
    exact h

theorem gives_of_itemVars {call : Call} {executionId : String} {v value : Value} {vars : Variables}
    (hvalue : items[i]? = some value) (hid : call.executionId = executionId)
    (hvars : call.context.vars = itemVars vars value i) (hreply : call.reply = .output v)
    : Gives executionId items i v call := by
  refine ⟨hid, ⟨value, hvalue, ?_⟩, ?_, hreply⟩
  . rw [hvars, itemVars, Map.getElem?_insert_of_ne _ _ (by decide), Map.getElem?_insert, if_pos rfl]
  . rw [hvars, itemVars, Map.getElem?_insert, if_pos rfl]

theorem Entry.commit (hi : i < items.length) (h : Entry id items s calls i)
    (hreported : Forall₂ (Reported s id items) (pendingItems s id items.length) rs)
    (hwithin : Within (rs.map (·.outcome.id)) s t) (hentered : ∀ r ∈ rs, Entered t r.outcome)
    (hnew : new.Perm (rs.flatMap Told.calls)) : Entry id items t (calls ++ new) i := by
  have hnodup : (pendingItems s id items.length).Nodup := nodup_range.filter _
  obtain ⟨hnone, hall⟩ := outputs_told (i := i) hreported hnodup
  by_cases hpending : i ∈ pendingItems s id items.length
  . have hbefore := h.undone ((mem_pending_iff).mp hpending).2
    obtain ⟨r, hr, htold⟩ := forall₂_left hreported hpending
    have houtputs := perm_outputs hnew (instanceId id i)
    rw [hall r hr htold.index] at houtputs
    obtain ⟨record, hrecord, hstate, houtput⟩ := hentered r hr
    rw [htold.outcome] at hrecord
    refine ⟨?_, ?_⟩
    . intro record' hrecord' hcompleted
      cases hrecord.symm.trans hrecord'
      obtain ⟨v, hresult⟩ := state_eq_completed (hstate.symm.trans hcompleted)
      have hgave := htold.gave
      rw [hresult] at hgave
      obtain ⟨call, hone, hid, hvars, hreply⟩ := hgave
      rw [hone, perm_singleton] at houtputs
      refine ⟨v, call, houtput v hresult, ?_, ?_⟩
      . rw [outputsOf_append, hbefore, houtputs, nil_append]
      . have hvars' : call.context.vars = itemVars s.vars items[i] i := by
          rw [hvars, getElem?_eq_getElem hi]
          rfl
        rw [hwithin.executionId]
        exact gives_of_itemVars (getElem?_eq_getElem hi) hid hvars' hreply
    . intro hopen
      have hempty := gave_of_state htold.gave fun heq => hopen record hrecord (hstate.trans heq)
      rw [hempty, perm_nil] at houtputs
      rw [outputsOf_append, hbefore, houtputs]
      rfl
  . have hnothing := (perm_outputs hnew (instanceId id i)).trans (.of_eq (hnone hpending))
    rw [perm_nil] at hnothing
    have hsame : t.activity? (instanceId id i) = s.activity? (instanceId id i) := by
      apply hwithin.others
      intro hmem
      obtain ⟨r, hr, heq⟩ := mem_map.mp hmem
      obtain ⟨j, hj, htold⟩ := forall₂_right hreported hr
      obtain rfl : j = i := instanceId_inj (htold.outcome.symm.trans heq)
      exact hpending hj
    have houtputs : outputsOf (instanceId id i) (calls ++ new) = outputsOf (instanceId id i) calls := by
      rw [outputsOf_append, hnothing, append_nil]
    refine ⟨?_, ?_⟩
    . intro record hrecord hcompleted
      obtain ⟨v, call, houtput, hcall, hgives⟩ := h.done record (hsame ▸ hrecord) hcompleted
      exact ⟨v, call, houtput, houtputs.trans hcall, hwithin.executionId ▸ hgives⟩
    . intro hopen
      exact houtputs.trans (h.undone fun record hrecord => hopen record (hsame ▸ hrecord))

end

theorem instanceId_ne_self (id : String) (i : Nat) : instanceId id i ≠ id := by
  intro h
  have hlength := congrArg String.length h
  simp only [instanceId, String.length_append] at hlength
  have hbracket : "[".length = 1 := rfl
  omega

theorem forEachMarker_ne_self (id : String) : forEachMarker id ≠ id := by
  intro h
  have hlength := congrArg String.length h
  rw [forEachMarker, String.length_append] at hlength
  have hprefix : "__for_each.".length = 11 := rfl
  omega

structure Gathered (id : String) (items outputs : List Value) (t : ExecutionState) (calls : List Call) : Prop where
  length : outputs.length = items.length
  record : ∃ record, t.activity? id = some record ∧ record.state = .completed
    ∧ record.output = some (.array outputs)
  var : t.vars[id]? = some (.array outputs)
  marker : t.vars[forEachMarker id]? = none
  outputs : ∀ i v, outputs[i]? = some v → ∃ call, outputsOf (instanceId id i) calls = [call]
    ∧ Gives t.executionId items i v call

structure Underway (id : String) (items : List Value) (s : ExecutionState) (calls : List Call) : Prop where
  marker : s.vars[forEachMarker id]? = some (.array items)
  entries : ∀ i, i < items.length → Entry id items s calls i

def Round (id : String) (items : List Value) (t : ExecutionState) (calls : List Call) : Step → Prop
  | .completed => ∃ outputs, Gathered id items outputs t calls
  | .interrupted _ => Underway id items t calls
  | .failed _ => True

section

variable {ω : Type} {e : Engine ω} {d : Definition} {a : ActivityDef} {spec : ForEachSpec}
  {items : List Value} {s t : ExecutionState} {step : Step} {calls : List Call} {w w' : World ω}

open Calls

theorem failOnce_round {msg : String} (h : e.failOnce s a.id msg w = (.ok (t, step), w'))
    : w'.calls = w.calls ∧ Round a.id items t calls step := by
  unfold failOnce at h
  obtain ⟨record, v, hfound, hfail⟩ := Prog.of_bind_ok h
  obtain ⟨hrecord, rfl⟩ := Prog.of_ofOption_ok hfound
  obtain ⟨hcalls, -, msg', hstep⟩ := (terminalActivityFailure_quiet hrecord _ _).of_ok hfail
  dsimp only at hstep
  subst hstep
  exact ⟨hcalls, trivial⟩

theorem completeForEach_round (hlength : ∀ i, i < items.length → ∃ v, itemOutput s a.id i = v
      ∧ ∃ call, outputsOf (instanceId a.id i) calls = [call] ∧ Gives s.executionId items i v call)
    (h : e.completeForEach (s.removeVariable (forEachMarker a.id)) a.id
      ((range items.length).map (itemOutput s a.id)) w = (.ok (t, step), w'))
    : w'.calls = w.calls ∧ Round a.id items t calls step := by
  unfold completeForEach at h
  cases hsize : e.checkOutputSize a.id (.array ((range items.length).map (itemOutput s a.id))) with
  | some msg =>
    rw [hsize] at h
    exact failOnce_round h
  | none =>
    rw [hsize] at h
    obtain ⟨record, v, hfound, hcomplete⟩ := Prog.of_bind_ok h
    obtain ⟨-, rfl⟩ := Prog.of_ofOption_ok hfound
    obtain ⟨hcalls, version, heq⟩ := (completeActivity_quiet _ _ _).of_ok hcomplete
    cases heq
    refine ⟨hcalls, (range items.length).map (itemOutput s a.id), ?_, ?_, ?_, ?_, ?_⟩
    . rw [length_map, length_range]
    . exact ⟨_, (activity?_complete _ a.id a.id _ _).trans (if_pos rfl), rfl, rfl⟩
    . show (Std.ExtTreeMap.insert _ _ _)[a.id]? = _
      rw [Map.getElem?_insert, if_pos rfl]
    . show (Std.ExtTreeMap.insert _ _ _)[forEachMarker a.id]? = none
      rw [Map.getElem?_insert_of_ne _ _ (forEachMarker_ne_self a.id).symm]
      show (Std.ExtTreeMap.erase _ _)[forEachMarker a.id]? = none
      rw [Map.getElem?_erase, if_pos rfl]
    . intro i v hv
      rw [getElem?_map] at hv
      obtain ⟨j, hj, rfl⟩ := Option.map_eq_some_iff.mp hv
      obtain ⟨hi, rfl⟩ := List.getElem?_eq_some_iff.mp hj
      rw [getElem_range] at *
      rw [length_range] at hi
      obtain ⟨v, hv, hcall⟩ := hlength i hi
      rw [hv]
      exact hcall

theorem suspend_round {msg : String} (hunderway : Underway a.id items s calls)
    (h : (do e.checkpoint (s.setActivity a.id .ready); return (s.setActivity a.id .ready, .interrupted msg)
      : Action ω (ExecutionState × Step)) w = (.ok (t, step), w'))
    : w'.calls = w.calls ∧ Round a.id items t calls step := by
  obtain ⟨u, v, hsaved, hreturn⟩ := Prog.of_bind_ok h
  cases hreturn
  refine ⟨(of_ok (p := fun _ => True) checkpoint_logs hsaved).1, ?_⟩
  unfold setActivity
  cases hrecord : s.activity? a.id with
  | none => exact hunderway
  | some record =>
    have hsame (i : Nat) : (s.setRecord a.id { record with state := .ready }).activity? (instanceId a.id i)
        = s.activity? (instanceId a.id i) :=
      activity?_setRecord_of_ne s _ (instanceId_ne_self a.id i).symm
    refine ⟨hunderway.marker, ?_⟩
    intro i hi
    obtain ⟨hdone, hundone⟩ := hunderway.entries i hi
    rw [← hsame] at hdone hundone
    exact ⟨hdone, hundone⟩

theorem finishForEach_round {f : FanOut} {v : Verdicts}
    (hunderway : Underway a.id items s calls) (hbudget : f.overBudget = none)
    (hall : v.failure = none → v.interrupt = none → ∀ i, i < items.length →
      ∃ record, s.activity? (instanceId a.id i) = some record ∧ record.state = .completed)
    (h : e.finishForEach s a items f v w = (.ok (t, step), w'))
    : w'.calls = w.calls ∧ Round a.id items t calls step := by
  unfold finishForEach at h
  rw [hbudget] at h
  cases hfailure : v.failure with
  | some msg =>
    rw [hfailure] at h
    exact failOnce_round h
  | none =>
    rw [hfailure] at h
    cases hinterrupt : v.interrupt with
    | some x =>
      obtain ⟨id, msg⟩ := x
      rw [hinterrupt] at h
      exact suspend_round hunderway h
    | none =>
      rw [hinterrupt] at h
      apply completeForEach_round _ h
      intro i hi
      obtain ⟨record, hrecord, hcompleted⟩ := hall hfailure hinterrupt i hi
      obtain ⟨v, call, houtput, hcall, hgives⟩ := (hunderway.entries i hi).done record hrecord hcompleted
      refine ⟨v, ?_, call, hcall, hgives⟩
      unfold itemOutput
      rw [hrecord, Option.bind_some, houtput]
      rfl

theorem runItems_round (hspec : Unbudgeted spec) (hwidth : 1 ≤ spec.maxConcurrent) {gas : Nat}
    (hunderway : Underway a.id items s calls)
    (h : e.runItems d gas s a spec items w = (.ok (t, step), w'))
    : ∃ new, w'.calls = w.calls ++ new ∧ Round a.id items t (calls ++ new) step := by
  unfold runItems at h
  have hkept (i : Nat) (hi : i < items.length)
      : Entry a.id items (addInstances a.id (range items.length) s) calls i := by
    obtain ⟨hdone, hundone⟩ := hunderway.entries i hi
    constructor
    . intro record hrecord hcompleted
      rw [Contract.executionId_addInstances]
      rcases addInstances_new _ s a.id hrecord with hrecord | ⟨-, rfl⟩
      . exact hdone record hrecord hcompleted
      . cases hcompleted
    . intro hopen
      exact hundone fun record hrecord => hopen record (addInstances_kept _ s a.id hrecord)
  have hrecorded (i : Nat) (hi : i < items.length) := addInstances_recorded (range items.length) s a.id
    (mem_range.mpr hi)
  have hmarker := hunderway.marker
  rw [← Contract.vars_addInstances a.id (range items.length) s] at hmarker
  generalize addInstances a.id (range items.length) s = u at h hkept hrecorded hmarker
  dsimp only at h
  generalize (spec.body.retry.or d.spec.retry).getD {} = policy at h
  generalize hpending : pendingItems u a.id items.length = pending at h
  obtain ⟨f, w₁, hfan, h⟩ := Prog.of_bind_ok h
  obtain ⟨⟨u', v⟩, w₂, hcommit, hfinish⟩ := Prog.of_bind_ok h
  have hflows : Flows {
      inFlight := (pending.take spec.maxConcurrent).map (launch u a spec policy items)
      queue := pending.drop spec.maxConcurrent } := by
    refine ⟨rfl, ?_⟩
    intro hnil
    dsimp only at hnil ⊢
    rw [map_eq_nil_iff, take_eq_nil_iff] at hnil
    cases hnil with
    | inl hzero => omega
    | inr hnil => rw [hnil, drop_nil]
  obtain ⟨hbudget, rs, new, htold, hjoined, hnew, hperm⟩ := fanOut_served hspec hflows hfan
  dsimp only at htold hjoined
  rw [← map_append, take_append_drop, forall₂_map_left_iff] at htold
  rw [nil_append] at hjoined
  have hreported : Forall₂ (Reported u a.id items) pending rs := htold.imp fun _ _ => .of_tells
  have hsorted := (mergeSort_perm f.joined fun x y => x.1 ≤ y.1).trans hjoined
  generalize f.joined.mergeSort (fun x y => x.1 ≤ y.1) = outcomes at hcommit hsorted
  have hids : (outcomes.map itemId).Perm (rs.map (·.outcome.id)) := by
    have hmapped := hsorted.map itemId
    rw [map_map] at hmapped
    exact hmapped
  have hnodup : (rs.map (·.outcome.id)).Nodup := by
    rw [reported_ids hreported, ← hpending]
    exact (nodup_range.filter _).map fun _ _ => instanceId_inj
  have hold (x : Nat × IsolatedOutcome) (hx : x ∈ outcomes)
      : ∃ record, u.activity? x.2.id = some record := by
    have hid : itemId x ∈ rs.map (·.outcome.id) := hids.subset (mem_map_of_mem hx)
    rw [reported_ids hreported] at hid
    obtain ⟨i, hi, heq⟩ := mem_map.mp hid
    rw [← hpending] at hi
    have hrecord := hrecorded i ((mem_pending_iff).mp hi).1
    rw [heq] at hrecord
    exact hrecord
  obtain ⟨hcommits, hwithin, hentered, hclears⟩ :=
    (commitItems_quiet {} (hids.nodup_iff.mpr hnodup) hold).of_ok hcommit
  dsimp only at hfinish hwithin hentered hclears
  have hwithin' : Within (rs.map (·.outcome.id)) u u' := by
    refine ⟨hwithin.executionId, hwithin.vars, ?_⟩
    exact fun id hid => hwithin.others id fun hmem => hid (hids.subset hmem)
  have hentered' (r : Told) (hr : r ∈ rs) : Entered u' r.outcome :=
    hentered r.item (hsorted.mem_iff.mpr (mem_map_of_mem hr))
  have hdone : Underway a.id items u' (calls ++ new) := by
    refine ⟨hwithin.vars ▸ hmarker, ?_⟩
    intro i hi
    exact (hkept i hi).commit hi (hpending ▸ hreported) hwithin' hentered' hperm
  have hall (hfailure : v.failure = none) (hinterrupt : v.interrupt = none) (i : Nat) (hi : i < items.length)
      : ∃ record, u'.activity? (instanceId a.id i) = some record ∧ record.state = .completed := by
    by_cases hmem : i ∈ pending
    . obtain ⟨r, hr, htold⟩ := forall₂_left hreported hmem
      obtain ⟨record, hrecord, hstate, -⟩ := hentered' r hr
      have hmem' : r.outcome ∈ outcomes.map Prod.snd :=
        mem_map.mpr ⟨r.item, hsorted.mem_iff.mpr (mem_map_of_mem hr), rfl⟩
      rw [htold.outcome] at hrecord
      refine ⟨record, hrecord, ?_⟩
      rw [hstate]
      exact outcome_completed ((hclears.failure hfailure).2 _ hmem') ((hclears.interrupt hinterrupt).2 _ hmem')
    . obtain ⟨record, hrecord⟩ := hrecorded i hi
      have hid : instanceId a.id i ∉ rs.map (·.outcome.id) := by
        rw [reported_ids hreported, mem_map]
        rintro ⟨j, hj, heq⟩
        exact hmem (instanceId_inj heq ▸ hj)
      refine ⟨record, (hwithin'.others _ hid).trans hrecord, ?_⟩
      rw [← hpending, mem_pending_iff, not_and] at hmem
      by_contra hopen
      apply hmem hi
      intro record' hrecord'
      cases hrecord.symm.trans hrecord'
      exact hopen
  obtain ⟨hlogged, hround⟩ := finishForEach_round hdone hbudget hall hfinish
  exact ⟨new, hlogged.trans (hcommits.trans hnew), hround⟩

structure Fresh (p : Platform) (a : ActivityDef) (spec : ForEachSpec) (items : List Value) (s : ExecutionState)
    : Prop where
  marker : ∀ items', s.vars[forEachMarker a.id]? ≠ some (.array items')
  resolved : Template.resolve p s.vars spec.items = .array items
  records : ∀ i, s.activity? (instanceId a.id i) = none

theorem Fresh.underway (h : Fresh e.platform a spec items s)
    : Underway a.id items (s.setVariable (forEachMarker a.id) (.array items)) [] := by
  refine ⟨?_, ?_⟩
  . show (s.vars.insert (forEachMarker a.id) (.array items))[forEachMarker a.id]? = _
    rw [Map.getElem?_insert, if_pos rfl]
  . intro i _
    refine ⟨?_, fun _ => rfl⟩
    intro record hrecord
    cases (h.records i).symm.trans hrecord

theorem Fresh.found (h : Fresh e.platform a spec items s) {isNew : Bool} {items' : List Value}
    (hfound : e.forEachItems s a spec = .ok (isNew, items')) : isNew = true ∧ items' = items := by
  cases Contract.forEachItems_cases hfound with
  | inl hkept => exact absurd hkept.2 (h.marker items')
  | inr hnew =>
    obtain ⟨hnew, hresolved, -⟩ := hnew
    cases h.resolved.symm.trans hresolved
    exact ⟨hnew, rfl⟩

theorem Underway.found (h : Underway a.id items s calls) : e.forEachItems s a spec = .ok (false, items) := by
  unfold forEachItems
  rw [h.marker]

theorem items_round (hspec : Unbudgeted spec) (hwidth : 1 ≤ spec.maxConcurrent) {gas : Nat}
    (hunderway : Underway a.id items s calls)
    (h : (if items = [] then e.completeForEach (s.removeVariable (forEachMarker a.id)) a.id []
      else e.runItems d gas s a spec items) w = (.ok (t, step), w'))
    : ∃ new, w'.calls = w.calls ++ new ∧ Round a.id items t (calls ++ new) step := by
  by_cases hnil : items = []
  . subst hnil
    rw [if_pos rfl] at h
    obtain ⟨hcalls, hround⟩ : w'.calls = w.calls ∧ Round a.id [] t calls step :=
      completeForEach_round (fun i hi => absurd hi (Nat.not_lt_zero i)) h
    refine ⟨[], ?_, ?_⟩
    . rw [hcalls, append_nil]
    . rw [append_nil]
      exact hround
  . rw [if_neg hnil] at h
    exact runItems_round hspec hwidth hunderway h

structure Carried (id : String) (t s : ExecutionState) : Prop where
  executionId : s.executionId = t.executionId
  marker : s.vars[forEachMarker id]? = t.vars[forEachMarker id]?
  records : ∀ i, s.activity? (instanceId id i) = t.activity? (instanceId id i)

theorem Carried.setVariable (s : ExecutionState) {id key : String} (v : Value) (h : key ≠ forEachMarker id)
    : Carried id s (s.setVariable key v) :=
  ⟨rfl, Map.getElem?_insert_of_ne _ _ h, fun _ => rfl⟩

theorem Carried.trans {id : String} {s t u : ExecutionState} (h : Carried id s t) (h' : Carried id t u)
    : Carried id s u :=
  ⟨h'.executionId.trans h.executionId, h'.marker.trans h.marker, fun i => (h'.records i).trans (h.records i)⟩

-- What an interrupted drive leaves is what the next call for the execution reads.
theorem carried_of_interrupt {activity msg : String} {o : RunOutcome} (id : String)
    (h : e.interrupt t activity msg w = (.ok (o, s), w'))
    : Carried id t s ∧ w'.latest e t.executionId = some s := by
  unfold interrupt at h
  obtain ⟨u, v, hemitted, h⟩ := Prog.of_bind_ok h
  obtain ⟨_, x, hsaved, h⟩ := Prog.of_bind_ok h
  cases h
  have hemit : World.durable.Quiet (e.emit t (.workflowInterrupted activity))
      (fun u => u = { t with version := t.version + 1 }) := emit_logs _
  obtain rfl := (of_ok hemit hemitted).2
  have hlatest := Contract.latest_checkpoint (congrArg Prod.fst hsaved) rfl
  rw [hsaved] at hlatest
  exact ⟨⟨rfl, rfl, fun _ => rfl⟩, hlatest⟩

inductive Encounters (e : Engine ω) (d : Definition) (a : ActivityDef) (spec : ForEachSpec) (items : List Value)
    : ExecutionState → List Call → Prop where
  | first {s : ExecutionState} (h : Fresh e.platform a spec items s) : Encounters e d a spec items s []
  | again {s t s' : ExecutionState} {calls new : List Call} {gas : Nat} {msg : String} {w w' : World ω}
    (h : Encounters e d a spec items s calls)
    (hran : e.runForEach d gas s a w = (.ok (t, .interrupted msg), w')) (hcalls : w'.calls = w.calls ++ new)
    (hcarried : Carried a.id t s') : Encounters e d a spec items s' (calls ++ new)

theorem runForEach_round (hparse : ForEachSpec.parse e.platform a = .ok spec) (hspec : Unbudgeted spec) {gas : Nat}
    (hentry : (Fresh e.platform a spec items s ∧ calls = []) ∨ Underway a.id items s calls)
    (h : e.runForEach d gas s a w = (.ok (t, step), w'))
    : ∃ new, w'.calls = w.calls ++ new ∧ Round a.id items t (calls ++ new) step := by
  have hwidth := ForEachSpec.maxConcurrent_pos hparse
  unfold runForEach at h
  rw [hparse] at h
  obtain ⟨spec', w₁, hspec', h⟩ := Prog.of_bind_ok h
  obtain ⟨heq, rfl⟩ := Prog.of_ofExcept_ok hspec'
  cases heq
  cases hentry with
  | inl hfresh =>
    obtain ⟨hfresh, rfl⟩ := hfresh
    cases hfound : e.forEachItems s a spec with
    | error msg =>
      rw [hfound] at h
      obtain ⟨hcalls, hround⟩ : w'.calls = w₁.calls ∧ Round a.id items t [] step := failOnce_round h
      exact ⟨[], hcalls.trans (append_nil _).symm, hround⟩
    | ok found =>
      obtain ⟨isNew, items'⟩ := found
      obtain ⟨rfl, rfl⟩ := hfresh.found hfound
      rw [hfound] at h
      obtain ⟨u, v, hsaved, hrest⟩ := Prog.of_bind_ok h
      have hlogged : v.calls = w₁.calls := (of_ok (p := fun _ => True) checkpoint_logs hsaved).1
      obtain ⟨new, hcalls, hround⟩ := items_round hspec hwidth hfresh.underway hrest
      exact ⟨new, hcalls.trans (by rw [hlogged]), hround⟩
  | inr hunderway =>
    rw [hunderway.found] at h
    exact items_round hspec hwidth hunderway h

theorem Encounters.entry (hparse : ForEachSpec.parse e.platform a = .ok spec) (hspec : Unbudgeted spec)
    (h : Encounters e d a spec items s calls)
    : (Fresh e.platform a spec items s ∧ calls = []) ∨ Underway a.id items s calls := by
  induction h with
  | first h => exact .inl ⟨h, rfl⟩
  | @again s t s' calls new gas msg w w' h hran hcalls hcarried ih =>
    right
    obtain ⟨new', hcalls', hround⟩ := runForEach_round hparse hspec ih hran
    rw [hcalls] at hcalls'
    cases append_cancel_left hcalls'
    refine ⟨hcarried.marker.trans hround.marker, ?_⟩
    intro i hi
    obtain ⟨hdone, hundone⟩ := hround.entries i hi
    rw [← hcarried.records i, ← hcarried.executionId] at hdone
    rw [← hcarried.records i] at hundone
    exact ⟨hdone, hundone⟩

/--
However often its drives are interrupted, a fan-out that completes has put together, in the order of the
items it found at first, what was given for each of them by the one call that gave an output for it.
-/
theorem gathered_of_encounters (hparse : ForEachSpec.parse e.platform a = .ok spec) (hspec : Unbudgeted spec)
    {gas : Nat} (h : Encounters e d a spec items s calls)
    (hran : e.runForEach d gas s a w = (.ok (t, .completed), w'))
    : ∃ new, w'.calls = w.calls ++ new ∧ ∃ outputs, Gathered a.id items outputs t (calls ++ new) :=
  runForEach_round hparse hspec (h.entry hparse hspec) hran

end

namespace Gathering

def parcel : ForEachInputs where
  items := .string "$\x7borders\x7d"
  activity := { activityType := "function" }

def inputs : Value :=
  .object [("items", parcel.items), ("activity", .object [("type", .string "function")])]

def packing : ActivityDef where
  id := "pack"
  activityType := "for_each"
  inputs := inputs

def warehouse : Definition where
  metadata := { name := "warehouse" }
  spec := { activities := [packing] }

def packers : Engine (List Reply) where
  platform := .reading inputs parcel
  backend := .file
  execute replies _ := ⟨replies.tail, [], replies.headD (.output .null)⟩
  nowMillis _ := 0
  timers := false
  subworkflows := none

def spec : ForEachSpec where
  items := parcel.items
  body := parcel.activity
  maxConcurrent := 8
  maxItems := 1000
  maxTotalCostUsd := none
  maxTotalTokens := none

def orders : Value :=
  .object [("orders", .array [.int 7, .int 8, .int 9])]

def opened : ExecutionState :=
  { initialState warehouse "warehouse-1" orders with status := .running }

-- The later items are handed to the executor first.
def shift (replies : List Reply) (state : ExecutionState)
    : Outcome Error (ExecutionState × Step) × World (List Reply) :=
  packers.runForEach warehouse 19 state packing { executor := replies, writes := 99, picks := [5, 1, 5, 1] }

def morning : List Reply :=
  [.output (.string "crate"), .error (.interrupted "break"), .error (.interrupted "break")]

def evening : List Reply :=
  [.output (.string "bag"), .output (.string "box")]

def paused : Outcome Error (RunOutcome × ExecutionState) × World (List Reply) :=
  match shift morning opened with
  | (.ok (t, _), w) => packers.interrupt t packing.id "break" w
  | (_, w) => (.halted, w)

-- `mergeSort` does not reduce.
theorem mergeSort_eq_insertionSort (l : List (Nat × IsolatedOutcome))
    : l.mergeSort (fun x y => x.1 ≤ y.1) = l.insertionSort fun x y => x.1 ≤ y.1 := by
  have htrans (x y z : Nat × IsolatedOutcome)
      : decide (x.1 ≤ y.1) → decide (y.1 ≤ z.1) → decide (x.1 ≤ z.1) := by
    simpa using Nat.le_trans
  have htotal (x y : Nat × IsolatedOutcome) : decide (x.1 ≤ y.1) || decide (y.1 ≤ x.1) := by
    simpa using Nat.le_total x.1 y.1
  induction l with
  | nil => exact mergeSort_nil
  | cons x l ih =>
    obtain ⟨before, after, hcons, hl, hbefore⟩ := mergeSort_cons htrans htotal x l
    have hsorted := pairwise_mergeSort htrans htotal (x :: l)
    rw [hcons, pairwise_append, pairwise_cons] at hsorted
    rw [insertionSort_cons, ← ih, hl, hcons, orderedInsert_eq_take_drop, takeWhile_append_of_pos,
      dropWhile_append_of_pos]
    . cases after with
      | nil => simp
      | cons y after => simp [of_decide_eq_true (hsorted.2.1.1 y mem_cons_self)]
    all_goals
      intro y hy
      simpa using hbefore y hy

theorem encounters_opened
    : ∃ s t calls w', Encounters packers warehouse packing spec [.int 7, .int 8, .int 9] s calls
        ∧ shift evening s = (.ok (t, .completed), w') ∧ s.vars["orders"]? = some (.array [.int 5])
        ∧ t.vars["pack"]? = some (.array [.string "box", .string "bag", .string "crate"]) := by
  have hfirst : (shift morning opened).1.ok?.map (fun r => r.2)
      = some (.interrupted "for_each \x60pack\x60: item 0 suspended: break") := by
    simp only [shift, runForEach, runItems, mergeSort_eq_insertionSort]
    decide +kernel
  obtain ⟨⟨t, step⟩, ht, hstep⟩ := Option.map_eq_some_iff.mp hfirst
  dsimp only at hstep
  subst hstep
  have hsecond : (paused.1.ok?.bind fun r => (shift evening (r.2.setVariable "orders" (.array [.int 5]))).1.ok?).map
      (fun r => (r.2, r.1.vars["pack"]?))
        = some (.completed, some (.array [.string "box", .string "bag", .string "crate"])) := by
    simp only [paused, shift, runForEach, runItems, mergeSort_eq_insertionSort]
    decide +kernel
  obtain ⟨⟨u, step⟩, hu, hstep⟩ := Option.map_eq_some_iff.mp hsecond
  obtain ⟨⟨o, s⟩, hpaused, hu⟩ := Option.bind_eq_some_iff.mp hu
  simp only [Prod.mk.injEq] at hstep
  obtain ⟨rfl, hvar⟩ := hstep
  have hran : shift morning opened = (.ok (t, .interrupted _), (shift morning opened).2) :=
    Prod.ext (Outcome.ok?_eq_some ht) rfl
  have hinterrupt : packers.interrupt t packing.id "break" (shift morning opened).2 = (.ok (o, s), paused.2) := by
    refine Eq.trans ?_ (Prod.ext (Outcome.ok?_eq_some hpaused) rfl)
    unfold paused
    rw [hran]
  have hfresh : Fresh packers.platform packing spec [.int 7, .int 8, .int 9] opened := by
    have hvalid : warehouse.validate packers.platform = .ok () := by decide
    have hmarker : opened.vars[forEachMarker packing.id]? = none := by decide
    refine ⟨?_, by decide, ?_⟩
    . intro items h
      cases hmarker.symm.trans h
    . exact activity?_initialState_instance (Definition.sane_of_validate hvalid) "warehouse-1" orders _
  have hcarried := (carried_of_interrupt packing.id hinterrupt).1
  have hagain := Encounters.again (.first hfresh) hran (nil_append _).symm
    (hcarried.trans (@Carried.setVariable s packing.id "orders" (.array [.int 5]) (by decide)))
  refine ⟨_, u, _, _, hagain, Prod.ext (Outcome.ok?_eq_some hu) rfl, ?_, hvar⟩
  show (s.vars.insert "orders" _)["orders"]? = _
  rw [Map.getElem?_insert, if_pos rfl]

end Gathering

theorem gathered_of_encounters_warehouse
    : ∃ (s t : ExecutionState) (calls : List Call), s.vars["orders"]? = some (.array [.int 5])
        ∧ t.vars["pack"]? = some (.array [.string "box", .string "bag", .string "crate"])
        ∧ ∃ outputs, Gathered "pack" [.int 7, .int 8, .int 9] outputs t calls := by
  obtain ⟨s, t, calls, w', hencounters, hran, horders, hvar⟩ := Gathering.encounters_opened
  obtain ⟨new, -, hgathered⟩ := gathered_of_encounters (by decide) ⟨rfl, rfl⟩ hencounters hran
  exact ⟨s, t, _, horders, hvar, hgathered⟩

end Wovyr.Workflow
