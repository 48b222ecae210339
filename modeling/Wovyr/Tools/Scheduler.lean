import Wovyr.Lib.Credits

/-!
This module contains the scheduler that admits the items of tenants by smooth weighted round-robin,
up to a bound on how many of them are in flight.
-/

namespace Wovyr.Tools

open List

structure TenantQueue (T : Type) where
  weight : Int
  weight_pos : 0 < weight
  currentWeight : Int := 0
  items : List T := []

structure FairScheduler (T : Type) where
  tenants : Std.ExtTreeMap String (TenantQueue T) := ∅
  maxInFlight : Nat
  inFlight : Nat := 0

-- Of several elements with the greatest key, the last one.
def maxByKey (key : α → Int) (xs : List α) : Option α :=
  xs.foldl
    (fun best x =>
      match best with
      | some b => if key x < key b then some b else some x
      | none => some x)
    none

namespace TenantQueue

variable {T : Type} (q : TenantQueue T)

def opened (weight : Nat) : TenantQueue T :=
  { weight := max weight 1
    weight_pos := by omega }

def credited : TenantQueue T :=
  if q.items.isEmpty then q else { q with currentWeight := q.currentWeight + q.weight }

end TenantQueue

namespace FairScheduler

variable {T : Type} (s : FairScheduler T)

def new (maxInFlight : Nat) : FairScheduler T :=
  { maxInFlight := max maxInFlight 1 }

-- The weight is that of the first submission.
def submit (tenant : String) (weight : Nat) (item : T) : FairScheduler T :=
  let q := s.tenants[tenant]?.getD (.opened weight)
  { s with tenants := s.tenants.insert tenant { q with items := q.items ++ [item] } }

def total : Int :=
  ((s.tenants.values.filter fun q => !q.items.isEmpty).map TenantQueue.weight).sum

def poll : Option (String × T) × FairScheduler T :=
  if s.inFlight ≥ s.maxInFlight then
    (none, s)
  else if s.total = 0 then
    (none, s)
  else
    let tenants := s.tenants.map fun _ q => q.credited
    let queued := tenants.toList.filter fun e => !e.2.items.isEmpty
    match maxByKey (fun e => e.2.currentWeight) queued with
    | none => (none, { s with tenants })
    | some (best, q) =>
      match q.items with
      -- The queues of `queued` are not empty.
      | [] => (none, { s with tenants })
      | item :: items =>
        (some (best, item), { s with
          tenants := tenants.insert best { q with currentWeight := q.currentWeight - s.total, items }
          inFlight := s.inFlight + 1 })

def complete : FairScheduler T :=
  { s with inFlight := s.inFlight - 1 }

end FairScheduler

open FairScheduler

section

variable {key : α → Int} {xs : List α} {x : α}

theorem maxByKey_snoc
    : maxByKey key (xs ++ [x])
        =
      match maxByKey key xs with
      | some b => if key x < key b then some b else some x
      | none => some x := by
  unfold maxByKey
  rw [foldl_append, foldl_cons, foldl_nil]

theorem maxByKey_none (h : maxByKey key xs = none) : xs = [] := by
  cases xs using reverseRecOn with
  | nil => rfl
  | append_singleton xs x =>
    rw [maxByKey_snoc] at h
    split at h
    . split at h
      . cases h
      . cases h
    . cases h

theorem maxByKey_some {b : α} (h : maxByKey key xs = some b) : b ∈ xs ∧ ∀ x ∈ xs, key x ≤ key b := by
  induction xs using reverseRecOn generalizing b with
  | nil => cases h
  | append_singleton xs x ih =>
    rw [maxByKey_snoc] at h
    split at h
    next b' hb' =>
      obtain ⟨hmem, hmax⟩ := ih hb'
      split at h
      next hlt =>
        cases h
        exact ⟨mem_append_left _ hmem, forall_mem_snoc hmax (le_of_lt hlt)⟩
      next hle =>
        cases h
        refine ⟨mem_append_right _ mem_cons_self, forall_mem_snoc ?_ (le_refl _)⟩
        exact fun y hy => le_trans (hmax y hy) (not_lt.mp hle)
    next hnone =>
      cases h
      rw [maxByKey_none hnone]
      exact ⟨mem_cons_self, forall_mem_snoc (forall_mem_nil _) (le_refl _)⟩

end

theorem sum_map_filter (p : α → Bool) (f : α → Int) (xs : List α)
    : ((xs.filter p).map f).sum = (xs.map fun x => if p x then f x else 0).sum := by
  induction xs with
  | nil => rfl
  | cons x xs ih =>
    by_cases hx : p x = true
    . rw [filter_cons_of_pos hx, map_cons, map_cons, sum_cons, sum_cons, ih, if_pos hx]
    . rw [filter_cons_of_neg hx, map_cons, sum_cons, ih, if_neg hx, zero_add]

namespace TenantQueue

variable {T : Type} (q : TenantQueue T)

def share : Int :=
  if q.items.isEmpty then 0 else q.weight

@[simp]
theorem credited_items : q.credited.items = q.items := by
  unfold credited
  split
  . rfl
  . rfl

@[simp]
theorem credited_weight : q.credited.weight = q.weight := by
  unfold credited
  split
  . rfl
  . rfl

theorem credited_currentWeight : q.credited.currentWeight = q.currentWeight + q.share := by
  unfold credited share
  split
  . rw [add_zero]
  . rfl

theorem share_nonneg : 0 ≤ q.share := by
  unfold share
  split
  . exact le_refl _
  . exact le_of_lt q.weight_pos

theorem share_eq_zero : q.share = 0 ↔ q.items = [] := by
  have hpos := q.weight_pos
  unfold share
  split
  next hempty => simpa using hempty
  next hsome =>
    rw [List.isEmpty_iff] at hsome
    constructor
    . intro hzero
      omega
    . intro hnil
      exact absurd hnil hsome

theorem share_of_ne_nil {q : TenantQueue T} (h : q.items ≠ []) : q.share = q.weight := by
  unfold share
  rw [if_neg]
  rwa [List.isEmpty_iff]

end TenantQueue

namespace FairScheduler

section

variable {T : Type} (s : FairScheduler T)

def participants : Finset String :=
  s.tenants.keys.toFinset

def credit (tenant : String) : Int :=
  s.tenants[tenant]?.elim 0 TenantQueue.currentWeight

def share (tenant : String) : Int :=
  s.tenants[tenant]?.elim 0 TenantQueue.share

def weight (tenant : String) : Int :=
  s.tenants[tenant]?.elim 0 TenantQueue.weight

def queued (tenant : String) : List T :=
  s.tenants[tenant]?.elim [] TenantQueue.items

def totalWeight : Int :=
  (s.tenants.values.map TenantQueue.weight).sum

def Level : Prop :=
  ∀ (tenant : String) (q : TenantQueue T), s.tenants[tenant]? = some q → q.currentWeight = 0

theorem mem_participants {tenant : String} : tenant ∈ s.participants ↔ ∃ q, s.tenants[tenant]? = some q :=
  Map.mem_keys_toFinset

theorem total_eq : s.total = Credits.total s.participants s.share := by
  unfold total Credits.total participants share
  rw [sum_map_filter, ← Map.sum_values]
  congr 1
  apply map_congr_left
  intro q _
  unfold TenantQueue.share
  cases q.items.isEmpty
  . rfl
  . rfl

theorem totalWeight_eq : s.totalWeight = Credits.total s.participants s.weight :=
  Map.sum_values _ _

theorem level_iff : s.Level ↔ ∀ tenant, s.credit tenant = 0 := by
  unfold Level credit
  constructor
  . intro h tenant
    cases hq : s.tenants[tenant]? with
    | none => rfl
    | some q => exact h tenant q hq
  . intro h tenant q hq
    simpa [hq] using h tenant

theorem find_none {tenant : String} (h : tenant ∉ s.participants) : s.tenants[tenant]? = none := by
  rwa [mem_participants, ← Option.isSome_iff_exists, Option.not_isSome_iff_eq_none] at h

theorem credit_eq_zero {tenant : String} (h : tenant ∉ s.participants) : s.credit tenant = 0 := by
  unfold credit
  rw [s.find_none h, Option.elim_none]

theorem weight_pos : ∀ tenant ∈ s.participants, 0 < s.weight tenant := by
  intro tenant hmem
  obtain ⟨q, hq⟩ := s.mem_participants.mp hmem
  unfold weight
  rw [hq]
  exact q.weight_pos

theorem share_eq_weight (h : ∀ tenant ∈ s.participants, s.queued tenant ≠ []) : s.share = s.weight := by
  funext tenant
  unfold share weight
  cases hq : s.tenants[tenant]? with
  | none => rfl
  | some q =>
    have hne := h tenant (s.mem_participants.mpr ⟨q, hq⟩)
    unfold queued at hne
    rw [hq, Option.elim_some] at hne
    exact q.share_of_ne_nil hne

theorem queued_eq_nil {tenant : String} : s.queued tenant = [] ↔ s.share tenant = 0 := by
  unfold queued share
  cases s.tenants[tenant]? with
  | none => exact iff_of_true rfl rfl
  | some q => exact q.share_eq_zero.symm

theorem total_eq_zero : s.total = 0 ↔ ∀ tenant, s.queued tenant = [] := by
  have hnonneg : ∀ tenant ∈ s.participants, 0 ≤ s.share tenant := by
    intro tenant _
    unfold share
    cases s.tenants[tenant]? with
    | none => exact le_refl _
    | some q => exact q.share_nonneg
  rw [total_eq, Credits.total, Finset.sum_eq_zero_iff_of_nonneg hnonneg]
  constructor
  . intro h tenant
    rw [queued_eq_nil]
    by_cases hmem : tenant ∈ s.participants
    . exact h tenant hmem
    . unfold share
      rw [s.find_none hmem]
      rfl
  . intro h tenant _
    exact s.queued_eq_nil.mp (h tenant)

theorem mem_credited {tenant : String} {q : TenantQueue T}
    : (tenant, q) ∈ (s.tenants.map fun _ q => q.credited).toList.filter (fun e => !e.2.items.isEmpty)
        ↔ ∃ p : TenantQueue T, s.tenants[tenant]? = some p ∧ p.items ≠ [] ∧ q = p.credited := by
  rw [mem_filter, Std.ExtTreeMap.mem_toList_iff_getElem?_eq_some, Std.ExtTreeMap.getElem?_map,
    Option.map_eq_some_iff]
  constructor
  . rintro ⟨⟨p, hp, rfl⟩, hsome⟩
    refine ⟨p, hp, ?_, rfl⟩
    simpa using hsome
  . rintro ⟨p, hp, hne, rfl⟩
    refine ⟨⟨p, hp, rfl⟩, ?_⟩
    simpa using hne

structure Admits (tenant : String) (item : T) (t : FairScheduler T) : Prop where
  room : s.inFlight < s.maxInFlight
  inFlight : t.inFlight = s.inFlight + 1
  maxInFlight : t.maxInFlight = s.maxInFlight
  mem : tenant ∈ s.participants
  participants : t.participants = s.participants
  weight : t.weight = s.weight
  credit : t.credit = Credits.turn s.participants s.share s.credit tenant
  greatest : ∀ other, s.queued other ≠ [] → s.credit other + s.share other ≤ s.credit tenant + s.share tenant
  queued : ∀ other, s.queued other = if tenant = other then item :: t.queued other else t.queued other

end

section

variable {T : Type} {s t : FairScheduler T} {tenant : String} {q : TenantQueue T} {item : T} {items : List T}

theorem find_admitted
    (htenants : t.tenants = (s.tenants.map fun _ q => q.credited).insert tenant
      { q with currentWeight := q.currentWeight + q.weight - s.total, items }) (other : String)
    : t.tenants[other]?
        =
      if tenant = other then
        some { q with currentWeight := q.currentWeight + q.weight - s.total, items }
      else
        s.tenants[other]?.map TenantQueue.credited := by
  rw [htenants, Map.getElem?_insert, Std.ExtTreeMap.getElem?_map]

theorem participants_of_isSome (h : ∀ other : String, t.tenants[other]?.isSome = s.tenants[other]?.isSome)
    : t.participants = s.participants := by
  ext other
  rw [mem_participants, mem_participants, ← Option.isSome_iff_exists, ← Option.isSome_iff_exists, h other]

theorem admits (hroom : s.inFlight < s.maxInFlight) (hq : s.tenants[tenant]? = some q)
    (hitems : q.items = item :: items)
    (hmax : ∀ (other : String) (p : TenantQueue T), s.tenants[other]? = some p → p.items ≠ [] →
      p.currentWeight + p.weight ≤ q.currentWeight + q.weight)
    (htenants : t.tenants = (s.tenants.map fun _ q => q.credited).insert tenant
      { q with currentWeight := q.currentWeight + q.weight - s.total, items })
    (hmaxInFlight : t.maxInFlight = s.maxInFlight) (hinFlight : t.inFlight = s.inFlight + 1)
    : s.Admits tenant item t := by
  have hfind := find_admitted htenants
  have hne : q.items ≠ [] := by simp [hitems]
  constructor
  case room => exact hroom
  case inFlight => exact hinFlight
  case maxInFlight => exact hmaxInFlight
  case mem => exact s.mem_participants.mpr ⟨q, hq⟩
  case participants =>
    apply participants_of_isSome
    intro other
    rw [hfind other]
    split
    next heq =>
      subst heq
      rw [hq]
      rfl
    next => rw [Option.isSome_map]
  case weight =>
    funext other
    unfold weight
    rw [hfind other]
    split
    next heq =>
      subst heq
      rw [hq]
      rfl
    next =>
      cases s.tenants[other]? with
      | none => rfl
      | some p => exact p.credited_weight
  case credit =>
    funext other
    unfold Credits.turn
    rw [← s.total_eq]
    unfold credit share
    rw [hfind other]
    by_cases heq : tenant = other
    . subst heq
      simp only [if_true, hq, Option.elim_some, TenantQueue.share_of_ne_nil hne]
    . rw [if_neg heq, if_neg (Ne.symm heq), sub_zero]
      cases s.tenants[other]? with
      | none => rfl
      | some p => exact p.credited_currentWeight
  case greatest =>
    intro other hother
    unfold queued at hother
    unfold credit share
    cases hp : s.tenants[other]? with
    | none => simp [hp] at hother
    | some p =>
      rw [hp, Option.elim_some] at hother
      simp only [hq, Option.elim_some, TenantQueue.share_of_ne_nil hne, TenantQueue.share_of_ne_nil hother]
      exact hmax other p hp hother
  case queued =>
    intro other
    unfold queued
    rw [hfind other]
    split
    next heq =>
      subst heq
      rw [hq]
      exact hitems
    next =>
      cases s.tenants[other]? with
      | none => rfl
      | some p => exact p.credited_items.symm

variable (s)

theorem poll_cases
    : (s.poll = (none, s) ∧ (s.maxInFlight ≤ s.inFlight ∨ ∀ tenant, s.queued tenant = []))
        ∨ ∃ tenant item t, s.poll = (some (tenant, item), t) ∧ s.Admits tenant item t := by
  unfold poll
  split
  next hfull => exact .inl ⟨rfl, .inl hfull⟩
  next hroom =>
    split
    next hzero => exact .inl ⟨rfl, .inr (s.total_eq_zero.mp hzero)⟩
    next hsome =>
      right
      dsimp only
      split
      next hnone =>
        have hempty := maxByKey_none hnone
        exfalso
        apply hsome
        rw [total_eq_zero]
        intro tenant
        unfold queued
        cases hp : s.tenants[tenant]? with
        | none => rfl
        | some p =>
          by_contra hne
          have hmem := s.mem_credited.mpr ⟨p, hp, hne, rfl⟩
          rw [hempty] at hmem
          cases hmem
      next best q hbest =>
        obtain ⟨hmem, hmax⟩ := maxByKey_some hbest
        obtain ⟨p, hp, hne, rfl⟩ := s.mem_credited.mp hmem
        have hcredited : p.credited = { p with currentWeight := p.currentWeight + p.weight } := by
          unfold TenantQueue.credited
          rw [if_neg]
          rwa [List.isEmpty_iff]
        split
        next hnil =>
          rw [TenantQueue.credited_items] at hnil
          exact absurd hnil hne
        next item items hitems =>
          rw [TenantQueue.credited_items] at hitems
          refine ⟨best, item, _, rfl, admits (by omega) hp hitems ?_ ?_ rfl rfl⟩
          . intro other p' hp' hne'
            have hle := hmax _ (s.mem_credited.mpr ⟨p', hp', hne', rfl⟩)
            dsimp only at hle
            rwa [TenantQueue.credited_currentWeight, TenantQueue.credited_currentWeight,
              TenantQueue.share_of_ne_nil hne, TenantQueue.share_of_ne_nil hne'] at hle
          . rw [hcredited]

variable (weight : Nat)

theorem find_submit (other : String)
    : (s.submit tenant weight item).tenants[other]?
        =
      if tenant = other then
        let q := s.tenants[tenant]?.getD (.opened weight)
        some { q with items := q.items ++ [item] }
      else
        s.tenants[other]? := by
  unfold submit
  rw [Map.getElem?_insert]

theorem queued_submit (other : String)
    : (s.submit tenant weight item).queued other
        = if tenant = other then s.queued other ++ [item] else s.queued other := by
  unfold queued
  rw [find_submit]
  split
  next heq =>
    subst heq
    cases s.tenants[tenant]? with
    | none => rfl
    | some q => rfl
  next => rfl

theorem credit_submit : (s.submit tenant weight item).credit = s.credit := by
  funext other
  unfold credit
  rw [find_submit]
  split
  next heq =>
    subst heq
    cases s.tenants[tenant]? with
    | none => rfl
    | some q => rfl
  next => rfl

theorem weight_submit (h : tenant ∈ s.participants) : (s.submit tenant weight item).weight = s.weight := by
  obtain ⟨q, hq⟩ := s.mem_participants.mp h
  funext other
  unfold FairScheduler.weight
  rw [find_submit]
  split
  next heq =>
    subst heq
    rw [hq]
    rfl
  next => rfl

theorem participants_submit
    : (s.submit tenant weight item).participants = insert tenant s.participants := by
  ext other
  rw [mem_participants, find_submit, Finset.mem_insert, mem_participants]
  split
  next heq =>
    subst heq
    exact iff_of_true ⟨_, rfl⟩ (.inl rfl)
  next hne =>
    constructor
    . exact .inr
    . exact fun h => h.resolve_left (Ne.symm hne)

theorem sum_credit_submit
    : ∑ other ∈ (s.submit tenant weight item).participants, (s.submit tenant weight item).credit other
        = ∑ other ∈ s.participants, s.credit other := by
  rw [credit_submit, participants_submit]
  by_cases hmem : tenant ∈ s.participants
  . rw [Finset.insert_eq_of_mem hmem]
  . rw [Finset.sum_insert hmem]
    rw [s.credit_eq_zero hmem, zero_add]

end

end FairScheduler

structure Account (T : Type) where
  scheduler : FairScheduler T
  submitted : List (String × T) := []
  admitted : List (String × T) := []
  completed : Nat := 0

inductive Call (T : Type) where
  | submit (tenant : String) (weight : Nat) (item : T)
  | poll
  | complete

def itemsOf {T : Type} (tenant : String) (entries : List (String × T)) : List T :=
  (entries.filter fun e => e.1 == tenant).map Prod.snd

theorem itemsOf_snoc {T : Type} (tenant other : String) (item : T) (entries : List (String × T))
    : itemsOf other (entries ++ [(tenant, item)])
        = if tenant = other then itemsOf other entries ++ [item] else itemsOf other entries := by
  unfold itemsOf
  rw [filter_append, map_append]
  split
  next heq =>
    subst heq
    simp
  next hne => simp [hne]

namespace Account

variable {T : Type}

def fresh (maxInFlight : Nat) : Account T :=
  { scheduler := .new maxInFlight }

def step (x : Account T) : Call T → Account T
  | .submit tenant weight item =>
    { x with
      scheduler := x.scheduler.submit tenant weight item
      submitted := x.submitted ++ [(tenant, item)] }
  | .poll =>
    { x with
      scheduler := x.scheduler.poll.2
      admitted := x.admitted ++ x.scheduler.poll.1.toList }
  | .complete => { x with scheduler := x.scheduler.complete, completed := x.completed + 1 }

def Orderly (x : Account T) : Call T → Prop
  | .complete => x.completed < x.admitted.length
  | _ => True

-- No tenant is new, and every queue has items when there is a poll.
def Busy (x : Account T) : Call T → Prop
  | .submit tenant _ _ => tenant ∈ x.scheduler.participants
  | .poll => ∀ tenant ∈ x.scheduler.participants, x.scheduler.queued tenant ≠ []
  | .complete => x.completed < x.admitted.length

def inFlight (x : Account T) : Nat :=
  x.admitted.length - x.completed

structure Exact (maxInFlight : Nat) (x : Account T) : Prop where
  items : ∀ tenant, itemsOf tenant x.submitted = itemsOf tenant x.admitted ++ x.scheduler.queued tenant
  bounded : x.inFlight ≤ max maxInFlight 1
  refused : x.scheduler.poll.1 = none → x.inFlight = max maxInFlight 1 ∨ ∀ tenant, x.scheduler.queued tenant = []
  balanced : (x.scheduler.tenants.values.map TenantQueue.currentWeight).sum = 0

def turns (x y : Account T) : List String :=
  (y.admitted.drop x.admitted.length).map Prod.fst

-- The admissions since `x` come in blocks of as many as the sum of the weights.
structure Shared (x y : Account T) : Prop where
  blocks : ∀ k, (k + 1) * x.scheduler.totalWeight.toNat ≤ (x.turns y).length →
    ∀ (tenant : String) (q : TenantQueue T), x.scheduler.tenants[tenant]? = some q →
      ((((x.turns y).drop (k * x.scheduler.totalWeight.toNat)).take x.scheduler.totalWeight.toNat).count tenant : Int)
        = q.weight
  level : x.scheduler.totalWeight.toNat ∣ (x.turns y).length → y.scheduler.Level

structure Kept (maxInFlight : Nat) (x : Account T) : Prop where
  items : ∀ tenant, itemsOf tenant x.submitted = itemsOf tenant x.admitted ++ x.scheduler.queued tenant
  inFlight : x.scheduler.inFlight + x.completed = x.admitted.length
  maxInFlight : x.scheduler.maxInFlight = max maxInFlight 1
  bounded : x.scheduler.inFlight ≤ x.scheduler.maxInFlight
  balanced : ∑ tenant ∈ x.scheduler.participants, x.scheduler.credit tenant = 0
  level : x.admitted = [] → ∀ tenant, x.scheduler.credit tenant = 0

variable {maxInFlight : Nat} {x y : Account T}

theorem credit_fresh (tenant : String) : (fresh maxInFlight : Account T).scheduler.credit tenant = 0 := by
  unfold fresh new credit
  simp

theorem kept_fresh : Kept maxInFlight (fresh maxInFlight : Account T) where
  items tenant := by
    unfold fresh new queued
    simp [itemsOf]
  inFlight := rfl
  maxInFlight := rfl
  bounded := Nat.zero_le _
  balanced := Finset.sum_eq_zero fun tenant _ => credit_fresh tenant
  level _ := credit_fresh

theorem step_poll (x : Account T)
    : (x.step .poll = x ∧ x.scheduler.poll.1 = none
        ∧ (x.scheduler.maxInFlight ≤ x.scheduler.inFlight ∨ ∀ tenant, x.scheduler.queued tenant = []))
        ∨ ∃ tenant item t, x.scheduler.Admits tenant item t ∧ x.scheduler.poll.1 = some (tenant, item)
            ∧ x.step .poll = { x with scheduler := t, admitted := x.admitted ++ [(tenant, item)] } := by
  rcases x.scheduler.poll_cases with ⟨hpoll, hwhy⟩ | ⟨tenant, item, t, hpoll, hadmits⟩
  . left
    refine ⟨?_, by rw [hpoll], hwhy⟩
    unfold step
    rw [hpoll]
    simp
  . right
    refine ⟨tenant, item, t, hadmits, by rw [hpoll], ?_⟩
    unfold step
    rw [hpoll]
    simp

theorem kept_admitted {tenant : String} {item : T} {t : FairScheduler T} (h : Kept maxInFlight x)
    (hadmits : x.scheduler.Admits tenant item t)
    : Kept maxInFlight { x with scheduler := t, admitted := x.admitted ++ [(tenant, item)] } where
  items other := by
    rw [itemsOf_snoc, h.items other, hadmits.queued other]
    split
    . rw [append_assoc, singleton_append]
    . rfl
  inFlight := by
    have hinFlight := h.inFlight
    rw [hadmits.inFlight, length_append, length_singleton]
    dsimp only
    omega
  maxInFlight := by rw [hadmits.maxInFlight, h.maxInFlight]
  bounded := by
    have hroom := hadmits.room
    rw [hadmits.inFlight, hadmits.maxInFlight]
    omega
  balanced := by
    rw [hadmits.participants, hadmits.credit, Credits.sum_turn hadmits.mem]
    exact h.balanced
  level hnone := by simp at hnone

theorem kept_step (h : Kept maxInFlight x) {call : Call T} (horderly : x.Orderly call)
    : Kept maxInFlight (x.step call) := by
  cases call with
  | submit tenant weight item =>
    exact
      { items := by
          intro other
          unfold step
          rw [itemsOf_snoc, queued_submit, h.items other]
          split
          . rw [append_assoc]
          . rfl
        inFlight := h.inFlight
        maxInFlight := h.maxInFlight
        bounded := h.bounded
        balanced := by
          unfold step
          rw [sum_credit_submit, h.balanced]
        level := by
          unfold step
          rw [credit_submit]
          exact h.level }
  | poll =>
    rcases x.step_poll with ⟨hsame, -⟩ | ⟨tenant, item, t, hadmits, -, hstep⟩
    . rw [hsame]
      exact h
    . rw [hstep]
      exact kept_admitted h hadmits
  | complete =>
    have hsome : x.completed < x.admitted.length := horderly
    have hinFlight := h.inFlight
    have hbounded := h.bounded
    exact
      { items := h.items
        inFlight := by
          unfold step complete
          dsimp only
          omega
        maxInFlight := h.maxInFlight
        bounded := by
          unfold step complete
          dsimp only
          omega
        balanced := h.balanced
        level := h.level }

theorem kept_run {calls : List (Call T)} (h : Kept maxInFlight x) (hrun : Run (Guarded Orderly step) x calls y)
    : Kept maxInFlight y := by
  apply hrun.invariant ?_ h
  rintro x call _ hx ⟨horderly, rfl⟩
  exact kept_step hx horderly

theorem Kept.exact (h : Kept maxInFlight x) : Exact maxInFlight x where
  items := h.items
  bounded := by
    have hinFlight := h.inFlight
    have hbounded := h.bounded
    rw [h.maxInFlight] at hbounded
    unfold Account.inFlight
    omega
  refused hnone := by
    have hinFlight := h.inFlight
    have hbounded := h.bounded
    rcases x.step_poll with ⟨-, -, hfull | hidle⟩ | ⟨tenant, item, t, -, hsome, -⟩
    . left
      rw [h.maxInFlight] at hbounded hfull
      unfold Account.inFlight
      omega
    . exact .inr hidle
    . rw [hnone] at hsome
      cases hsome
  balanced := by
    rw [Map.sum_values]
    exact h.balanced

theorem turns_busy {calls : List (Call T)} (h : Run (Guarded Busy step) x calls y)
    : ∃ admissions : List (String × T), y.admitted = x.admitted ++ admissions
        ∧ y.scheduler.participants = x.scheduler.participants
        ∧ Credits.Turns x.scheduler.participants x.scheduler.weight x.scheduler.credit (admissions.map Prod.fst)
            y.scheduler.credit := by
  induction h with
  | nil x => exact ⟨[], by rw [append_nil], rfl, .nil _⟩
  | @cons x _ z call calls hstep hrun ih =>
    obtain ⟨hbusy, rfl⟩ := hstep
    cases call with
    | submit tenant weight item =>
      have hmem : tenant ∈ x.scheduler.participants := hbusy
      unfold step at ih
      rw [participants_submit, Finset.insert_eq_of_mem hmem, x.scheduler.weight_submit weight hmem,
        credit_submit] at ih
      exact ih
    | complete => exact ih
    | poll =>
      rcases x.step_poll with ⟨hsame, -⟩ | ⟨tenant, item, t, hadmits, -, hstep⟩
      . rw [hsame] at ih
        exact ih
      . have hshare : x.scheduler.share = x.scheduler.weight := x.scheduler.share_eq_weight hbusy
        rw [hstep] at ih
        dsimp only at ih
        rw [hadmits.participants, hadmits.weight, hadmits.credit, hshare] at ih
        obtain ⟨admissions, hadmitted, hparticipants, hturns⟩ := ih
        refine ⟨(tenant, item) :: admissions, ?_, hparticipants, ?_⟩
        . rw [hadmitted, append_assoc, singleton_append]
        . apply Run.cons ?_ hturns
          refine ⟨⟨hadmits.mem, ?_⟩, rfl⟩
          intro other hother
          rw [← hshare]
          exact hadmits.greatest other (hbusy other hother)

theorem shared_busy {calls : List (Call T)} (h : Run (Guarded Busy step) x calls y) (hlevel : x.scheduler.Level)
    : x.Shared y := by
  obtain ⟨admissions, hadmitted, hparticipants, hturns⟩ := turns_busy h
  have hsince : x.turns y = admissions.map Prod.fst := by
    unfold turns
    rw [hadmitted, drop_left]
  have hweight := x.scheduler.weight_pos
  have htotal : ((x.scheduler.totalWeight.toNat : Nat) : Int)
      = Credits.total x.scheduler.participants x.scheduler.weight := by
    rw [totalWeight_eq, Int.toNat_of_nonneg]
    exact Finset.sum_nonneg fun tenant htenant => le_of_lt (hweight tenant htenant)
  have hcredit : Credits.Level x.scheduler.participants x.scheduler.credit := by
    intro tenant _
    exact x.scheduler.level_iff.mp hlevel tenant
  obtain ⟨hblocks, hend⟩ := hturns.rounds hweight hcredit htotal
  constructor
  . intro k hk tenant q hq
    rw [hsince] at hk ⊢
    rw [hblocks k hk tenant (x.scheduler.mem_participants.mpr ⟨q, hq⟩)]
    unfold FairScheduler.weight
    rw [hq, Option.elim_some]
  . intro hdvd
    rw [hsince] at hdvd
    rw [level_iff]
    intro tenant
    by_cases hmem : tenant ∈ y.scheduler.participants
    . rw [hparticipants] at hmem
      exact hend hdvd tenant hmem
    . exact y.scheduler.credit_eq_zero hmem

/-- The scheduler keeps every item in its place, and the turns of tenants that always wait are shared out. -/
theorem scheduler_fair (maxInFlight : Nat) {calls : List (Call T)}
    (h : Run (Guarded Orderly step) (fresh maxInFlight) calls x)
    : x.Exact maxInFlight
        ∧ (x.admitted = [] → x.scheduler.Level)
        ∧ (x.scheduler.Level → ∀ (busy : List (Call T)) (y : Account T),
            Run (Guarded Busy step) x busy y → x.Shared y) := by
  have hkept := kept_run kept_fresh h
  refine ⟨hkept.exact, ?_, ?_⟩
  . intro hnone
    rw [level_iff]
    exact hkept.level hnone
  . intro hlevel busy y hbusy
    exact shared_busy hbusy hlevel

instance (x : Account T) : DecidablePred x.Orderly
  | .complete => Nat.decLt _ _
  | .submit _ _ _ | .poll => .isTrue trivial

instance [DecidableEq T] (x : Account T) : DecidablePred x.Busy
  | .submit _ _ _ => Finset.decidableMem ..
  | .poll => Finset.decidableDforallFinset
  | .complete => Nat.decLt _ _

def twoTenants : List (Call Nat) :=
  [.submit "a" 2 1, .submit "b" 1 2, .poll, .complete, .submit "a" 2 3]

def atRest : List (Call Nat) :=
  [.submit "a" 2 1, .submit "b" 1 2, .submit "a" 2 3, .submit "b" 1 4, .submit "a" 2 5]

def block : List (Call Nat) :=
  [.poll, .complete, .poll, .complete, .poll]

theorem scheduler_fair_polled
    : (twoTenants.foldl step (fresh 1)).Exact 1
        ∧ (atRest.foldl step (fresh 1)).turns (block.foldl step (atRest.foldl step (fresh 1))) = ["a", "b", "a"]
        ∧ (atRest.foldl step (fresh 1)).Shared (block.foldl step (atRest.foldl step (fresh 1))) := by
  refine ⟨?_, by decide, ?_⟩
  . have hrun : Run (Guarded Orderly step) (fresh 1) twoTenants (twoTenants.foldl step (fresh 1)) := by
      apply Run.of_take
      decide
    exact (scheduler_fair 1 hrun).1
  . have hrun : Run (Guarded Orderly step) (fresh 1) atRest (atRest.foldl step (fresh 1)) := by
      apply Run.of_take
      decide
    obtain ⟨-, hlevel, hshared⟩ := scheduler_fair 1 hrun
    apply hshared (hlevel rfl) block
    apply Run.of_take
    decide

end Wovyr.Tools.Account
