import Wovyr.Workflow.Gathering

/-!
This module contains what the token budget of a fan-out holds for: the items that the current drive
has joined. The tokens reported are those of every item that has ended.
-/

namespace Wovyr.Workflow

open List

def IsolatedOutcome.output? (outcome : IsolatedOutcome) : Option Value :=
  match outcome.result with
  | .completed output => some output
  | _ => none

namespace ActivityUsage

def total (p : Platform) (outputs : List Value) : ActivityUsage :=
  outputs.foldl (fun usage output => usage.add p (fromOutput p output)) {}

theorem total_concat (p : Platform) (outputs : List Value) (output : Value)
    : total p (outputs ++ [output]) = (total p outputs).add p (fromOutput p output) :=
  foldl_concat ..

theorem tokens_foldl_congr (p : Platform) (outputs : List Value) {usage usage' : ActivityUsage}
    (h : usage.totalTokens = usage'.totalTokens)
    : (outputs.foldl (fun usage output => usage.add p (fromOutput p output)) usage).totalTokens
        = (outputs.foldl (fun usage output => usage.add p (fromOutput p output)) usage').totalTokens := by
  induction outputs generalizing usage usage' with
  | nil => exact h
  | cons output outputs ih =>
    apply ih
    show min (usage.totalTokens + _) _ = min (usage'.totalTokens + _) _
    rw [h]

theorem tokens_append_of_none {p : Platform} {earlier : List Value} (h : (total p earlier).totalTokens = 0)
    (outputs : List Value) : (total p (earlier ++ outputs)).totalTokens = (total p outputs).totalTokens := by
  unfold total at *
  rw [foldl_append]
  exact tokens_foldl_congr p outputs h

theorem tokens_append_le {p : Platform} (outputs : List Value) {more : List Value}
    (h : (total p more).totalTokens = 0) : (total p (outputs ++ more)).totalTokens ≤ (total p outputs).totalTokens := by
  induction more using reverseRecOn with
  | nil => rw [append_nil]
  | append_singleton more output ih =>
    rw [total_concat] at h
    have hsum : min ((total p more).totalTokens + (fromOutput p output).totalTokens) (2 ^ 64 - 1) = 0 := h
    have hnone : (total p more).totalTokens = 0 ∧ (fromOutput p output).totalTokens = 0 := by omega
    rw [← append_assoc, total_concat]
    calc ((total p (outputs ++ more)).add p (fromOutput p output)).totalTokens
        ≤ (total p (outputs ++ more)).totalTokens + (fromOutput p output).totalTokens := Nat.min_le_left _ _
      _ ≤ (total p outputs).totalTokens := by rw [hnone.2]; exact ih hnone.1

theorem tokens_of_exceeds {p : Platform} {usage : ActivityUsage} {cost : Option Rat} {cap : Nat}
    (h : usage.exceeds p cost (some cap) = none) : usage.totalTokens ≤ cap := by
  unfold exceeds at h
  split at h
  . cases h
  . rw [Option.map_eq_none_iff, Option.filter_eq_none_iff] at h
    have hcap := h cap rfl
    rw [decide_eq_true_eq] at hcap
    exact Nat.le_of_not_lt hcap

end ActivityUsage

open ActivityUsage

namespace Engine

variable {ω : Type} (e : Engine ω)

def FanOut.outputs (f : FanOut) : List Value :=
  f.joined.filterMap (·.2.output?)

-- What items have come to that the loop has not joined yet.
def FanOut.ended (f : FanOut) : List Value :=
  f.inFlight.filterMap fun slot => slot.2.elim (fun _ => none) IsolatedOutcome.output?

def FanOut.reported (f : FanOut) : List Value :=
  f.outputs ++ f.ended

def turn (executionId : String) (spec : ForEachSpec) (launch : Nat → Nat × (Task ⊕ IsolatedOutcome)) (f : FanOut)
    : Action ω FanOut := do
  let k ← pick f.inFlight.length
  match f.inFlight[k]? with
  | some (index, .inl task) =>
    let slot ← e.advance executionId "for_each item" task
    return { f with inFlight := f.inFlight.set k (index, slot) }
  | some (index, .inr outcome) => return f.join e.platform spec launch k index outcome
  | none => Prog.halt

def opening (state : ExecutionState) (a : ActivityDef) (spec : ForEachSpec) (policy : RetryPolicy)
    (items : List Value) : FanOut where
  inFlight := ((pendingItems state a.id items.length).take spec.maxConcurrent).map
    (launch state a spec policy items)
  queue := (pendingItems state a.id items.length).drop spec.maxConcurrent

variable {e : Engine ω} {executionId : String} {spec : ForEachSpec}
  {launch : Nat → Nat × (Task ⊕ IsolatedOutcome)} {f f' : FanOut} {w w' : World ω}

theorem fanOut_succ (gas : Nat)
    : e.fanOut executionId spec launch (gas + 1) f
        = if f.inFlight = [] then pure f
          else e.turn executionId spec launch f >>= e.fanOut executionId spec launch gas := by
  rw [fanOut]
  split
  . rfl
  . funext w
    unfold turn
    rw [Prog.bind_assoc, Prog.bind_apply, Prog.bind_apply]
    cases pick f.inFlight.length w with
    | mk o v =>
      cases o with
      | err err => rfl
      | halted => rfl
      | ok k =>
        dsimp only
        cases f.inFlight[k]? with
        | none => rfl
        | some slot =>
          obtain ⟨index, task | outcome⟩ := slot
          . dsimp only
            rw [Prog.bind_assoc]
            rfl
          . rfl

theorem runItems_eq (d : Definition) (gas : Nat) (s : ExecutionState) (a : ActivityDef) (spec : ForEachSpec)
    (items : List Value)
    : e.runItems d gas s a spec items = (do
        let state := addInstances a.id (range items.length) s
        let policy := (spec.body.retry.or d.spec.retry).getD {}
        let f ← e.fanOut state.executionId spec (Engine.launch state a spec policy items) gas
          (opening state a spec policy items)
        let (state, v) ← e.commitItems state {} (f.joined.mergeSort fun x y => x.1 ≤ y.1)
        e.finishForEach state a items f v) :=
  rfl

theorem turn_cases (h : e.turn executionId spec launch f w = (.ok f', w'))
    : (∃ k index slot, f' = { f with inFlight := f.inFlight.set k (index, slot) })
        ∨ ∃ k index outcome, f.inFlight[k]? = some (index, .inr outcome)
          ∧ f' = f.join e.platform spec launch k index outcome := by
  unfold turn at h
  obtain ⟨k, v, -, h⟩ := Prog.of_bind_ok h
  cases hslot : f.inFlight[k]? with
  | none =>
    rw [hslot] at h
    cases h
  | some x =>
    rw [hslot] at h
    obtain ⟨index, task | outcome⟩ := x
    . obtain ⟨slot, u, -, h⟩ := Prog.of_bind_ok h
      cases h
      exact .inl ⟨k, index, slot, rfl⟩
    . cases h
      exact .inr ⟨k, index, outcome, hslot, rfl⟩

namespace FanOut

def launched (f : FanOut) : Nat :=
  f.joined.length + f.inFlight.length

theorem joined_join (p : Platform) (k index : Nat) (outcome : IsolatedOutcome)
    : (f.join p spec launch k index outcome).joined = f.joined ++ [(index, outcome)] := by
  unfold join
  dsimp only
  split <;> rfl

theorem spent_join (p : Platform) (k index : Nat) (outcome : IsolatedOutcome)
    (h : f.spent = total p f.outputs)
    : (f.join p spec launch k index outcome).spent
        = total p (f.join p spec launch k index outcome).outputs := by
  have hspent : (f.join p spec launch k index outcome).spent
      = match outcome.result with
        | .completed output => f.spent.add p (fromOutput p output)
        | _ => f.spent := by
    unfold join
    dsimp only
    split <;> rfl
  rw [hspent, outputs, joined_join, filterMap_append]
  unfold IsolatedOutcome.output?
  cases hresult : outcome.result with
  | completed output =>
    rw [filterMap_cons_some (by rw [hresult]), filterMap_nil, total_concat, h]
    rfl
  | failed msg | interrupted msg =>
    rw [filterMap_cons_none (by rw [hresult]), filterMap_nil, append_nil]
    exact h

theorem within_of_launched_join {p : Platform} {k index cap : Nat} {outcome : IsolatedOutcome}
    (hcap : spec.maxTotalTokens = some cap) (hk : f.inFlight[k]? = some (index, .inr outcome))
    (h : f.launched < (f.join p spec launch k index outcome).launched)
    : (f.join p spec launch k index outcome).spent.totalTokens ≤ cap := by
  obtain ⟨hlt, -⟩ := List.getElem?_eq_some_iff.mp hk
  unfold join launched at *
  dsimp only at *
  split at h
  next hbudget hqueue =>
    rw [Option.or_eq_none_iff, hcap] at hbudget
    exact tokens_of_exceeds hbudget.2
  next =>
    simp only [length_append, length_eraseIdx_of_lt hlt, length_singleton] at h
    omega

end Engine.FanOut

open Engine (FanOut)

structure Sweep (ω : Type) where
  state : ExecutionState
  items : List Value
  fanOut : FanOut
  world : World ω

structure Tally (ω : Type) where
  earlier : List Value
  sweep : Option (Sweep ω)

namespace Tally

variable {ω : Type}

def finished (x : Tally ω) : List Value :=
  x.earlier ++ (x.sweep.map (·.fanOut.reported)).getD []

def launched (x : Tally ω) : Nat :=
  (x.sweep.map (·.fanOut.launched)).getD 0

def tokens (p : Platform) (x : Tally ω) : Nat :=
  (total p x.finished).totalTokens

section

variable (e : Engine ω) (d : Definition) (a : ActivityDef) (spec : ForEachSpec)

def launch (state : ExecutionState) (items : List Value) : Nat → Nat × (Task ⊕ IsolatedOutcome) :=
  Engine.launch state a spec ((spec.body.retry.or d.spec.retry).getD {}) items

def begin (state : ExecutionState) (items : List Value) (w : World ω) : Sweep ω :=
  let state := Engine.addInstances a.id (range items.length) state
  ⟨state, items, Engine.opening state a spec ((spec.body.retry.or d.spec.retry).getD {}) items, w⟩

inductive Proceeds : Tally ω → Tally ω → Prop where
  | enter (earlier : List Value) (state : ExecutionState) (items : List Value) (w : World ω)
    : Proceeds ⟨earlier, none⟩ ⟨earlier, some (begin d a spec state items w)⟩
  | turn (earlier : List Value) {sweep : Sweep ω} {f : FanOut} {w : World ω}
    (h : e.turn sweep.state.executionId spec (launch d a spec sweep.state sweep.items) sweep.fanOut sweep.world
      = (.ok f, w))
    : Proceeds ⟨earlier, some sweep⟩ ⟨earlier, some { sweep with fanOut := f, world := w }⟩
  | leave (earlier : List Value) (sweep : Sweep ω)
    : Proceeds ⟨earlier, some sweep⟩ ⟨earlier ++ sweep.fanOut.reported, none⟩

/--
A drive comes to the fan-out when no tokens have been reported, and an item is joined when none of the others that have
ended by then has reported any.
-/
structure Unspent (x y : Tally ω) : Prop where
  proceeds : Proceeds e d a spec x y
  entry : x.sweep = none → x.tokens e.platform = 0
  alone : ∀ before after, x.sweep = some before → y.sweep = some after → before.fanOut.joined ≠ after.fanOut.joined →
    (total e.platform after.fanOut.ended).totalTokens = 0

structure Counted (x : Tally ω) : Prop where
  spent : ∀ sweep, x.sweep = some sweep → sweep.fanOut.spent = total e.platform sweep.fanOut.outputs
  earlier : ∀ sweep, x.sweep = some sweep → (total e.platform x.earlier).totalTokens = 0

end

variable {e : Engine ω} {d : Definition} {a : ActivityDef} {spec : ForEachSpec} {x y : Tally ω}

theorem finished_none (earlier : List Value) : (⟨earlier, none⟩ : Tally ω).finished = earlier :=
  append_nil earlier

theorem finished_begin (earlier : List Value) (state : ExecutionState) (items : List Value) (w : World ω)
    : (⟨earlier, some (begin d a spec state items w)⟩ : Tally ω).finished = earlier := by
  have hended : (begin d a spec state items w).fanOut.ended = [] := by
    apply filterMap_eq_nil_iff.mpr
    intro slot hslot
    obtain ⟨index, -, rfl⟩ := mem_map.mp hslot
    rfl
  have hreported : (begin d a spec state items w).fanOut.reported = [] := hended
  unfold finished
  rw [Option.map_some, hreported]
  exact append_nil earlier

theorem Unspent.of_turn {earlier : List Value} {sweep : Sweep ω} {f : FanOut} {w : World ω}
    (h : e.turn sweep.state.executionId spec (launch d a spec sweep.state sweep.items) sweep.fanOut sweep.world
      = (.ok f, w))
    (halone : sweep.fanOut.joined ≠ f.joined → (total e.platform f.ended).totalTokens = 0)
    : Unspent e d a spec ⟨earlier, some sweep⟩ ⟨earlier, some { sweep with fanOut := f, world := w }⟩ where
  proceeds := .turn earlier h
  entry := nofun
  alone := by
    intro before after hbefore hafter hne
    obtain rfl := Option.some.inj hbefore
    obtain rfl := Option.some.inj hafter
    exact halone hne

theorem Unspent.counted (h : Unspent e d a spec x y) (hx : Counted e x) : Counted e y := by
  obtain ⟨hproceeds, hentry, -⟩ := h
  cases hproceeds with
  | enter earlier state items w =>
    refine ⟨?_, ?_⟩
    . intro sweep hsweep
      cases hsweep
      rfl
    . intro sweep _
      have hnone := hentry rfl
      rw [tokens, finished_none] at hnone
      exact hnone
  | @turn earlier sweep f w hturn =>
    refine ⟨?_, fun _ _ => hx.earlier sweep rfl⟩
    intro sweep' hsweep'
    cases hsweep'
    have hspent := hx.spent sweep rfl
    rcases Engine.turn_cases hturn with ⟨k, index, slot, rfl⟩ | ⟨k, index, outcome, -, rfl⟩
    . exact hspent
    . exact FanOut.spent_join e.platform k index outcome hspent
  | leave earlier sweep => exact ⟨nofun, nofun⟩

theorem Unspent.within (h : Unspent e d a spec x y) (hx : Counted e x) {cap : Nat}
    (hcap : spec.maxTotalTokens = some cap) (hlaunch : x.launched < y.launched) : y.tokens e.platform ≤ cap := by
  obtain ⟨hproceeds, hentry, halone⟩ := h
  cases hproceeds with
  | enter earlier state items w =>
    have hnone := hentry rfl
    rw [tokens, finished_none] at hnone
    rw [tokens, finished_begin, hnone]
    exact Nat.zero_le cap
  | @turn earlier sweep f w hturn =>
    rcases Engine.turn_cases hturn with ⟨k, index, slot, rfl⟩ | ⟨k, index, outcome, hk, rfl⟩
    . have hsame : sweep.fanOut.launched
          = FanOut.launched { sweep.fanOut with inFlight := sweep.fanOut.inFlight.set k (index, slot) } := by
        unfold FanOut.launched
        rw [length_set]
      exact absurd hlaunch (Nat.not_lt_of_le hsame.ge)
    . have hothers := halone _ _ rfl rfl (by simp [FanOut.joined_join])
      show (total e.platform (earlier ++ (FanOut.outputs _ ++ FanOut.ended _))).totalTokens ≤ cap
      rw [tokens_append_of_none (hx.earlier sweep rfl)]
      refine (tokens_append_le _ hothers).trans ?_
      dsimp only
      rw [← FanOut.spent_join e.platform k index outcome (hx.spent sweep rfl)]
      exact FanOut.within_of_launched_join hcap hk hlaunch
  | leave earlier sweep => exact absurd hlaunch (Nat.not_lt_zero _)

theorem counted_of_run (h : Relation.ReflTransGen (Unspent e d a spec) ⟨[], none⟩ x) : Counted e x := by
  induction h with
  | refl => exact ⟨nofun, nofun⟩
  | tail _ hstep ih => exact hstep.counted ih

theorem proceeds_fanOut (earlier : List Value) {gas : Nat} {sweep : Sweep ω} {f : FanOut} {w : World ω}
    (h : e.fanOut sweep.state.executionId spec (launch d a spec sweep.state sweep.items) gas sweep.fanOut sweep.world
      = (.ok f, w))
    : Relation.ReflTransGen (Proceeds e d a spec) ⟨earlier, some sweep⟩
        ⟨earlier, some { sweep with fanOut := f, world := w }⟩ := by
  induction gas generalizing sweep with
  | zero => cases h
  | succ gas ih =>
    rw [Engine.fanOut_succ] at h
    split at h
    . cases h
      exact .refl
    . obtain ⟨f', w', hturn, hrest⟩ := Prog.of_bind_ok h
      exact .head (.turn earlier hturn) (@ih { sweep with fanOut := f', world := w' } hrest)

end Tally

/--
In every run in which a drive comes to the fan-out only when no tokens have been reported in the drives
before, and joins an item only when those that have ended beside it have reported none, an item is launched
only while the tokens reported are within the budget.
-/
theorem launched_within_budget {ω : Type} {e : Engine ω} {d : Definition} {a : ActivityDef} {spec : ForEachSpec}
    {cap : Nat} (hcap : spec.maxTotalTokens = some cap) {x y : Tally ω}
    (hrun : Relation.ReflTransGen (Tally.Unspent e d a spec) ⟨[], none⟩ x) (hstep : Tally.Unspent e d a spec x y)
    (hlaunch : x.launched < y.launched) : y.tokens e.platform ≤ cap :=
  hstep.within (Tally.counted_of_run hrun) hcap hlaunch

namespace Budget

section

variable {ω : Type} {e : Engine ω} {d : Definition} {a : ActivityDef} {spec : ForEachSpec} {items : List Value}
  {s : ExecutionState} {gas : Nat} {f : FanOut} {w v : World ω}

theorem runForEach_of_new (hspec : ForEachSpec.parse e.platform a = .ok spec)
    (hitems : e.forEachItems s a spec = .ok (true, items)) (hne : items ≠ [])
    (hsaved : e.checkpoint (s.setVariable (forEachMarker a.id) (.array items)) w = (.ok (), v))
    : e.runForEach d gas s a w
        = e.runItems d gas (s.setVariable (forEachMarker a.id) (.array items)) a spec items v := by
  unfold Engine.runForEach
  rw [hspec, Prog.ofExcept, Prog.pure_bind, hitems]
  refine (Prog.bind_of_ok hsaved).trans ?_
  dsimp only
  rw [if_neg hne]
  rfl

theorem runItems_of_fanOut {sweep : Sweep ω}
    (hsweep : Tally.begin d a spec s items w = sweep)
    (h : e.fanOut sweep.state.executionId spec (Tally.launch d a spec sweep.state sweep.items) gas sweep.fanOut
      sweep.world = (.ok f, v))
    (hsorted : f.joined.Pairwise fun x y => x.1 ≤ y.1)
    : e.runItems d gas s a spec items w = (do
        let (state, v) ← e.commitItems sweep.state {} f.joined
        e.finishForEach state a items f v : Action ω (ExecutionState × Step)) v := by
  subst hsweep
  rw [Engine.runItems_eq]
  refine (Prog.bind_of_ok h).trans ?_
  rw [mergeSort_of_pairwise (hsorted.imp fun hle => decide_eq_true hle)]
  rfl

end

def batch : ForEachInputs where
  items := .array [.int 1, .int 2, .int 3]
  activity := { activityType := "function" }
  maxConcurrent := some 1
  maxTotalTokens := some 10

def spec : ForEachSpec where
  items := batch.items
  body := batch.activity
  maxConcurrent := 1
  maxItems := 1000
  maxTotalCostUsd := none
  maxTotalTokens := some 10

def inputs : Value :=
  .object [("items", batch.items), ("activity", .object [("type", .string "function")]),
    ("max_concurrent", .int 1), ("max_total_tokens", .int 10)]

def printing : ActivityDef where
  id := "print"
  activityType := "for_each"
  inputs := inputs

def press : Definition where
  metadata := { name := "press" }
  spec := { activities := [printing] }

def printers : Engine (List Reply) where
  platform := .reading inputs batch
  backend := .file
  execute replies _ := ⟨replies.tail, [], replies.headD (.output .null)⟩
  nowMillis _ := 0
  timers := false
  subworkflows := none

def printed : Reply :=
  .output (.object [("__usage", .object [("total_tokens", .int 8)])])

def jammed : Reply :=
  .error (.interrupted "jammed")

def opened : ExecutionState :=
  { Engine.initialState press "press-1" .null with status := .running }

def world (replies : List Reply) : World (List Reply) where
  executor := replies
  writes := 99

def items : List Value :=
  [.int 1, .int 2, .int 3]

def marked : ExecutionState :=
  opened.setVariable (forEachMarker "print") (.array items)

def morning : Sweep (List Reply) :=
  Tally.begin press printing spec marked items (printers.checkpoint marked (world [printed, jammed, jammed])).2

def swept : Outcome Error FanOut × World (List Reply) :=
  printers.fanOut morning.state.executionId spec (Tally.launch press printing spec morning.state items) 9
    morning.fanOut morning.world

def settled (f : FanOut) : Outcome Error (ExecutionState × Step) × World (List Reply) :=
  (do let (state, v) ← printers.commitItems morning.state {} f.joined
      printers.finishForEach state printing items f v : Action (List Reply) (ExecutionState × Step)) swept.2

def evening (state : ExecutionState) : Sweep (List Reply) :=
  Tally.begin press printing spec state items (world [printed, printed])

def turned (sweep : Sweep (List Reply)) (f : FanOut) (w : World (List Reply))
    : Outcome Error FanOut × World (List Reply) :=
  printers.turn sweep.state.executionId spec (Tally.launch press printing spec sweep.state sweep.items) f w

def tried (sweep : Sweep (List Reply)) : Outcome Error FanOut × World (List Reply) :=
  turned sweep sweep.fanOut sweep.world

def joined (sweep : Sweep (List Reply)) (f : FanOut) : Outcome Error FanOut × World (List Reply) :=
  turned sweep f (tried sweep).2

def jam : Step :=
  .interrupted "for_each \x60print\x60: item 1 suspended: jammed"

theorem tried_morning
    : ∃ g g', tried morning = (.ok g, (tried morning).2) ∧ joined morning g = (.ok g', (joined morning g).2)
        ∧ g.launched = 1 ∧ g'.launched = 2 ∧ g.joined = morning.fanOut.joined
        ∧ (total printers.platform g'.ended).totalTokens = 0 := by
  have htried : ((tried morning).1.ok?.bind fun g => (joined morning g).1.ok?.map fun g' =>
      (g.launched, g'.launched, g.joined.length, (total printers.platform g'.ended).totalTokens))
      = some (1, 2, 0, 0) := by
    decide
  obtain ⟨g, hg, htried⟩ := Option.bind_eq_some_iff.mp htried
  obtain ⟨g', hg', hfacts⟩ := Option.map_eq_some_iff.mp htried
  simp only [Prod.mk.injEq] at hfacts
  obtain ⟨hlaunched, hlaunched', hjoined, htokens⟩ := hfacts
  exact ⟨g, g', Prod.ext (Outcome.ok?_eq_some hg) rfl, Prod.ext (Outcome.ok?_eq_some hg') rfl, hlaunched, hlaunched',
    length_eq_zero_iff.mp hjoined, htokens⟩

theorem swept_settled
    : ∃ f t g g', swept = (.ok f, swept.2) ∧ (f.joined.Pairwise fun x y => x.1 ≤ y.1)
        ∧ settled f = (.ok (t, jam), (settled f).2)
        ∧ tried (evening t) = (.ok g, (tried (evening t)).2)
        ∧ joined (evening t) g = (.ok g', (joined (evening t) g).2) ∧ g.launched < g'.launched
        ∧ (total printers.platform (f.reported ++ g'.reported)).totalTokens = 16 := by
  have hswept : (swept.1.ok?.bind fun f => (settled f).1.ok?.bind fun r => (tried (evening r.1)).1.ok?.bind fun g =>
      (joined (evening r.1) g).1.ok?.map fun g' => (f.joined.map Prod.fst, r.2, g.launched, g'.launched,
        (total printers.platform (f.reported ++ g'.reported)).totalTokens))
      = some ([0, 1, 2], jam, 1, 2, 16) := by
    decide +kernel
  obtain ⟨f, hf, hswept⟩ := Option.bind_eq_some_iff.mp hswept
  obtain ⟨⟨t, step⟩, ht, hswept⟩ := Option.bind_eq_some_iff.mp hswept
  obtain ⟨g, hg, hswept⟩ := Option.bind_eq_some_iff.mp hswept
  obtain ⟨g', hg', hfacts⟩ := Option.map_eq_some_iff.mp hswept
  simp only [Prod.mk.injEq] at hfacts
  obtain ⟨hjoined, rfl, hlaunched, hlaunched', htokens⟩ := hfacts
  refine ⟨f, t, g, g', Prod.ext (Outcome.ok?_eq_some hf) rfl, ?_, Prod.ext (Outcome.ok?_eq_some ht) rfl,
    Prod.ext (Outcome.ok?_eq_some hg) rfl, Prod.ext (Outcome.ok?_eq_some hg') rfl, ?_, htokens⟩
  . rw [← pairwise_map (f := Prod.fst) (R := (· ≤ ·)), hjoined]
    decide
  . rw [hlaunched, hlaunched']
    decide

end Budget

open Budget

-- The second item is launched when the first one has reported eight tokens of ten.
theorem launched_within_budget_morning
    : ∃ y : Tally (List Reply), y.launched = 2 ∧ y.tokens printers.platform ≤ 10 := by
  obtain ⟨g, g', hg, hg', hlaunched, hlaunched', hjoined, htokens⟩ := tried_morning
  have hlaunch : g.launched < g'.launched := by
    rw [hlaunched, hlaunched']
    decide
  have henter : Tally.Unspent printers press printing spec ⟨[], none⟩
      ⟨[], some morning⟩ :=
    ⟨.enter [] marked items _, fun _ => rfl, fun _ _ hnone => nomatch hnone⟩
  have htried : Tally.Unspent printers press printing spec _ _ :=
    @Tally.Unspent.of_turn _ _ _ _ _ [] _ _ _ hg fun hne => absurd hjoined.symm hne
  have hlast : Tally.Unspent printers press printing spec _ _ :=
    @Tally.Unspent.of_turn _ _ _ _ _ [] { morning with fanOut := g, world := _ } _ _ hg' fun _ => htokens
  have hwithin := launched_within_budget rfl (.tail (.single henter) htried) hlast hlaunch
  exact ⟨⟨[], some ⟨_, _, g', (joined morning g).2⟩⟩, hlaunched', hwithin⟩

-- Eight tokens of ten are reported, the drive is interrupted, and the next one reports eight again.
theorem launched_over_budget
    : ForEachSpec.parse printers.platform printing = .ok spec
        ∧ spec.maxTotalTokens = some 10
        ∧ ∃ (t : ExecutionState) (w : World (List Reply)) (x y : Tally (List Reply)),
          printers.runForEach press 9 opened printing
              (world [printed, jammed, jammed]) = (.ok (t, jam), w)
            ∧ Relation.ReflTransGen (Tally.Proceeds printers press printing spec)
              ⟨[], none⟩ x
            ∧ Tally.Proceeds printers press printing spec x y
            ∧ y.sweep.map (·.state) = some (Engine.addInstances "print" [0, 1, 2] t)
            ∧ x.launched < y.launched ∧ y.tokens printers.platform = 16 := by
  have hparse : ForEachSpec.parse printers.platform printing = .ok spec := by decide
  have hitems : printers.forEachItems opened printing spec = .ok (true, items) := by
    decide
  obtain ⟨f, t, g, g', hswept, hsorted, hsettled, hg, hg', hlaunched, htokens⟩ := swept_settled
  have hmorning := (Tally.proceeds_fanOut [] hswept).head (.enter [] marked items _)
  have hevening := ((hmorning.tail (.leave [] _)).tail (.enter _ t items _)).tail (.turn f.reported hg)
  have hjoined := @Tally.Proceeds.turn _ _ _ _ _ f.reported { evening t with fanOut := g, world := _ } _ _ hg'
  refine ⟨hparse, rfl, t, (settled f).2, _, _, ?_, hevening, hjoined, rfl, hlaunched, htokens⟩
  rw [runForEach_of_new hparse hitems (by decide) (Prod.ext rfl rfl)]
  exact (runItems_of_fanOut rfl hswept hsorted).trans hsettled

end Wovyr.Workflow
