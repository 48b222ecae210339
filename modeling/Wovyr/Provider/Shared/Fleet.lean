import Wovyr.Lib.Tasks
import Wovyr.Provider.Shared.Agreement

/-!
This module contains what gateways that share a breaker can rely on. Each of them counts the
milliseconds since its own start.
-/

namespace Wovyr.Provider

structure Fleet where
  breaker : SharedCircuitBreaker
  starts : Nat → Nat
  enforced : Bool

namespace Fleet

inductive Op where
  | allow
  | onSuccess
  | onFailure
deriving DecidableEq

structure Pending where
  gateway : Nat
  op : Op
  begunAt : Nat
  rest : BreakerKv (Option Bool)

structure Trip where
  gateway : Nat
  failedAt : Nat

structure Answer where
  begunAt : Nat
  answeredAt : Nat
  -- The failure that tripped the breaker last, without a success since.
  trip : Option Trip
  -- A call that came after the cool-down was answered before.
  asked : Bool
  allowed : Bool

structure State where
  time : Nat := 0
  kv : Kv := ∅
  pending : List Pending := []
  trip : Option Trip := none
  asked : Bool := false
  answers : List Answer := []

inductive Move where
  | tick (time : Nat)
  | begins (gateway : Nat) (op : Op)
  | call (k : Nat) (up : Bool)
  | drop (k : Nat)

variable (fleet : Fleet)

def nowMs (time gateway : Nat) : Nat :=
  (time - fleet.starts gateway) % 2 ^ 64

def program (nowMs : Nat) : Op → BreakerKv (Option Bool)
  | .allow => (fleet.breaker.allow nowMs).map some
  | .onSuccess => fleet.breaker.onSuccess.map fun _ => none
  | .onFailure => (fleet.breaker.onFailure nowMs).map fun _ => none

def clock (s : State) : Option Nat :=
  if fleet.enforced then some s.time else none

def exec (s : State) (up : Bool) (op : KvOp) : KvRes op × Kv :=
  if up then Kv.exec (fleet.clock s) op s.kv else Kv.down op s.kv

namespace State

variable (s : State)

def answer (p : Pending) (allowed : Bool) : State :=
  { s with
    asked := s.asked || s.trip.any fun t => decide (t.failedAt + fleet.breaker.cfg.openDurationMs ≤ p.begunAt)
    answers := s.answers ++
      [{ begunAt := p.begunAt, answeredAt := s.time, trip := s.trip, asked := s.asked, allowed }] }

def note (p : Pending) (up : Bool) : KvOp → State
  | .setI64 _ _ _ =>
    if up then { s with trip := some { gateway := p.gateway, failedAt := p.begunAt }, asked := false } else s
  | .del keys => if up && keys.contains fleet.breaker.kOpen then { s with trip := none } else s
  | _ => s

def goOn (k : Nat) (p : Pending) (rest : BreakerKv (Option Bool)) : State :=
  match rest with
  | .done (some allowed) => { s.answer fleet p allowed with pending := s.pending.eraseIdx k }
  | .done none => { s with pending := s.pending.eraseIdx k }
  | .call op next => { s with pending := s.pending.set k { p with rest := .call op next } }

end State

def step (s : State) : Move → State
  | .tick time => if s.time ≤ time ∧ time < 2 ^ 64 then { s with time } else s
  | .begins gateway op =>
    if fleet.starts gateway ≤ s.time then
      { s with
        pending := s.pending ++
          [{ gateway, op, begunAt := s.time, rest := fleet.program (fleet.nowMs s.time gateway) op }] }
    else
      s
  | .call k up =>
    match s.pending[k]? with
    | some p =>
      match p.rest with
      | .call op next =>
        let (res, kv) := fleet.exec s up op
        ({ s.note fleet p up op with kv }).goOn fleet k p (next res)
      | .done _ => s
    | none => s
  | .drop k => { s with pending := s.pending.eraseIdx k }

def after (moves : List Move) : State :=
  moves.foldl fleet.step {}

-- No gateway is let in before the cool-down has passed, and the first one is that comes after it.
def Answer.Holds (openDurationMs : Nat) (a : Answer) : Prop :=
  ∀ t ∈ a.trip, (a.allowed = true → t.failedAt + openDurationMs ≤ a.answeredAt)
    ∧ (t.failedAt + openDurationMs ≤ a.begunAt → a.asked = false → a.allowed = true)

def counts (p : Pending) : Prop :=
  p.rest.op? = some (.incr fleet.breaker.kHalf fleet.breaker.cfg.openDurationMs)

def clears (p : Pending) : Prop :=
  p.rest.op? = some (.del [fleet.breaker.kHalf])

def trips (p : Pending) : Prop :=
  ∃ key value ttlMs, p.rest.op? = some (.setI64 key value ttlMs)

-- The gateway that asks was started with the one that tripped the breaker. The store can be reached,
-- a deadline does not exceed its width, and no trial is counted while a trip is being recorded.
def Orderly (s : State) : Move → Prop
  | .begins gateway .onFailure =>
    s.time - fleet.starts gateway + fleet.breaker.cfg.openDurationMs < 2 ^ 64
  | .call k up => up = true ∧ ∀ p ∈ s.pending[k]?,
    (p.op = .allow → ∀ t ∈ s.trip, fleet.starts p.gateway = fleet.starts t.gateway)
      ∧ (trips p → ∀ q ∈ s.pending, ¬fleet.counts q)
      ∧ (fleet.counts p → ∀ q ∈ s.pending, ¬fleet.clears q)
  | .drop k => ∀ p ∈ s.pending[k]?, ¬fleet.clears p
  | _ => True

inductive Stage (p : Pending) : Prop where
  | asks (hop : p.op = .allow)
    (h : p.rest = (fleet.breaker.allow (fleet.nowMs p.begunAt p.gateway)).map some)
  | counts (hop : p.op = .allow) (h : p.rest = fleet.breaker.tryHalfOpen.map some)
  | succeeds (h : p.rest = fleet.breaker.onSuccess.map fun _ => none)
  | fails (hfits : p.begunAt - fleet.starts p.gateway + fleet.breaker.cfg.openDurationMs < 2 ^ 64)
    (h : p.rest = (fleet.breaker.onFailure (fleet.nowMs p.begunAt p.gateway)).map fun _ => none)
  | decides (hfits : p.begunAt - fleet.starts p.gateway + fleet.breaker.cfg.openDurationMs < 2 ^ 64)
    (fails : Nat)
    (h : p.rest = (fleet.breaker.decideTrip (fleet.nowMs p.begunAt p.gateway) fails).map fun _ => none)
  | trips (hfits : p.begunAt - fleet.starts p.gateway + fleet.breaker.cfg.openDurationMs < 2 ^ 64)
    (h : p.rest = (fleet.breaker.trip (fleet.nowMs p.begunAt p.gateway)).map fun _ => none)
  | clears (h : p.rest = fleet.breaker.clearHalf.map fun _ => none)

structure InForce (kv : Kv) (t : Trip) : Prop where
  started : fleet.starts t.gateway ≤ t.failedAt
  fits : t.failedAt - fleet.starts t.gateway + fleet.breaker.cfg.openDurationMs < 2 ^ 64
  opened : ∃ deadline, kv[fleet.breaker.kOpen]?
      = some (asI64 (t.failedAt - fleet.starts t.gateway + fleet.breaker.cfg.openDurationMs), deadline)
    ∧ ∀ x ∈ deadline, t.failedAt + fleet.breaker.cfg.openDurationMs ≤ x

structure Placed (s : State) (p : Pending) : Prop where
  stage : fleet.Stage p
  begun : p.begunAt ≤ s.time
  started : fleet.starts p.gateway ≤ p.begunAt
  counting : fleet.counts p → ∀ t ∈ s.trip, t.failedAt + fleet.breaker.cfg.openDurationMs ≤ p.begunAt

structure Sound (s : State) : Prop where
  time : s.time < 2 ^ 64
  pending : ∀ p ∈ s.pending, fleet.Placed s p
  closed : s.trip = none → s.kv[fleet.breaker.kOpen]? = none
  opened : ∀ t ∈ s.trip, fleet.InForce s.kv t
  fresh : s.trip.isSome = true → s.asked = false →
    s.kv[fleet.breaker.kHalf]? = none ∨ ∃ q ∈ s.pending, fleet.clears q
  answers : ∀ a ∈ s.answers, a.Holds fleet.breaker.cfg.openDurationMs

variable {fleet} {s : State} {k : Nat} {p : Pending}

theorem step_call {up : Bool} {op : KvOp} {next : KvRes op → BreakerKv (Option Bool)}
    (h : s.pending[k]? = some p) (hrest : p.rest = .call op next)
    : fleet.step s (.call k up)
        = ({ s.note fleet p up op with kv := (fleet.exec s up op).2 }).goOn fleet k p
            (next (fleet.exec s up op).1) := by
  unfold step
  dsimp only
  rw [h]
  dsimp only
  rw [hrest]

theorem Placed.of_trip {s' : State} (h : fleet.Placed s p) (htime : s.time ≤ s'.time)
    (htrip : s'.trip = s.trip ∨ s'.trip = none ∨ ¬fleet.counts p) : fleet.Placed s' p := by
  refine ⟨h.stage, Nat.le_trans h.begun htime, h.started, fun hcounts t ht => ?_⟩
  rcases htrip with heq | hnone | hnot
  . rw [heq] at ht
    exact h.counting hcounts t ht
  . rw [hnone] at ht
    cases ht
  . exact absurd hcounts hnot

theorem nowMs_eq (hs : fleet.Sound s) (hp : p ∈ s.pending)
    : fleet.nowMs p.begunAt p.gateway = p.begunAt - fleet.starts p.gateway := by
  have hbegun := (hs.pending p hp).begun
  have htime := hs.time
  unfold nowMs
  omega

theorem fresh_of {kv : Kv} {pending : List Pending} (hs : fleet.Sound s) (hp : ¬fleet.clears p)
    (hkv : s.kv[fleet.breaker.kHalf]? = none → kv[fleet.breaker.kHalf]? = none)
    (hkeep : ∀ q ∈ s.pending, q ≠ p → q ∈ pending) (htrip : s.trip.isSome = true) (hasked : s.asked = false)
    : kv[fleet.breaker.kHalf]? = none ∨ ∃ q ∈ pending, fleet.clears q := by
  rcases hs.fresh htrip hasked with hnone | ⟨q, hq, hclears⟩
  . exact Or.inl (hkv hnone)
  . refine Or.inr ⟨q, hkeep q hq ?_, hclears⟩
    rintro rfl
    exact hp hclears

theorem Sound.placed_set (hs : fleet.Sound s) {t : State} {p' : Pending} (htime : t.time = s.time)
    (hpending : t.pending = s.pending.set k p')
    (htrip : t.trip = s.trip ∨ t.trip = none ∨ ∀ q ∈ s.pending, ¬fleet.counts q)
    (hp' : fleet.Placed t p') : ∀ q ∈ t.pending, fleet.Placed t q := by
  intro q hq
  rw [hpending] at hq
  rcases Tasks.mem_set hq with hold | rfl
  . apply (hs.pending q hold).of_trip (Nat.le_of_eq htime.symm)
    exact htrip.imp_right (Or.imp_right fun hnone => hnone q hold)
  . exact hp'

theorem Sound.placed_erase (hs : fleet.Sound s) {t : State} (htime : t.time = s.time)
    (hpending : t.pending = s.pending.eraseIdx k)
    (htrip : t.trip = s.trip ∨ t.trip = none ∨ ∀ q ∈ s.pending, ¬fleet.counts q)
    : ∀ q ∈ t.pending, fleet.Placed t q := by
  intro q hq
  rw [hpending] at hq
  have hold := List.mem_of_mem_eraseIdx hq
  apply (hs.pending q hold).of_trip (Nat.le_of_eq htime.symm)
  exact htrip.imp_right (Or.imp_right fun hnone => hnone q hold)

theorem Sound.answer (hs : fleet.Sound s) (h : s.pending[k]? = some p) (hp : ¬fleet.clears p) {allowed : Bool}
    (hyes : allowed = true → ∀ t ∈ s.trip, t.failedAt + fleet.breaker.cfg.openDurationMs ≤ s.time)
    (hno : allowed = false → ∀ t ∈ s.trip, p.begunAt < t.failedAt + fleet.breaker.cfg.openDurationMs)
    : fleet.Sound (s.goOn fleet k p (.done (some allowed))) := by
  unfold State.goOn State.answer
  constructor
  . exact hs.time
  . exact hs.placed_erase rfl rfl (Or.inl rfl)
  . exact hs.closed
  . exact hs.opened
  . intro htrip hasked
    dsimp only at hasked
    rw [Bool.or_eq_false_iff] at hasked
    exact fresh_of hs hp id (fun q hq hne => Tasks.mem_eraseIdx_of_ne h hq hne) htrip hasked.1
  . apply forall_mem_snoc hs.answers
    intro t ht
    refine ⟨fun hallowed => hyes hallowed t ht, fun hlate _ => ?_⟩
    cases allowed with
    | true => rfl
    | false => exact absurd hlate (Nat.not_le.mpr (hno rfl t ht))

theorem exec_up (op : KvOp) : fleet.exec s true op = Kv.exec (fleet.clock s) op s.kv := rfl

theorem get?_of_getElem? {clock : Option Nat} {kv : Kv} {key : String} {e : Int × Option Nat}
    (h : kv[key]? = some e) (hlive : Kv.get? clock kv key = none)
    : ∃ now ∈ clock, ∃ deadline ∈ e.2, deadline ≤ now := by
  unfold Kv.get? at hlive
  rw [h, Option.filter_some] at hlive
  split at hlive
  . cases hlive
  . next hdead =>
    unfold Kv.isLive at hdead
    cases clock with
    | none => exact absurd rfl hdead
    | some now =>
      obtain ⟨value, lifetime⟩ := e
      cases lifetime with
      | none => exact absurd rfl hdead
      | some deadline =>
        simp only [Option.all_some, decide_eq_true_eq, Nat.not_lt] at hdead
        exact ⟨now, rfl, deadline, rfl, hdead⟩

theorem getElem?_of_get? {clock : Option Nat} {kv : Kv} {key : String} {e : Int × Option Nat}
    (h : Kv.get? clock kv key = some e) : kv[key]? = some e := by
  unfold Kv.get? at h
  exact (Option.filter_eq_some_iff.mp h).1

theorem mem_clock {now : Nat} (h : now ∈ fleet.clock s) : now = s.time := by
  unfold clock at h
  split at h
  . cases h
    rfl
  . cases h

theorem Sound.asks (hs : fleet.Sound s) (h : s.pending[k]? = some p)
    (hop : p.op = .allow) (hrest : p.rest = (fleet.breaker.allow (fleet.nowMs p.begunAt p.gateway)).map some)
    (hstarts : ∀ t ∈ s.trip, fleet.starts p.gateway = fleet.starts t.gateway)
    : fleet.Sound (fleet.step s (.call k true)) := by
  have hmem := Tasks.mem h
  have hplaced := hs.pending p hmem
  have hbegun := hplaced.begun
  have hstarted := hplaced.started
  have hclears : ¬fleet.clears p := by
    unfold clears
    rw [hrest]
    nofun
  have hnow := nowMs_eq hs hmem
  rw [step_call h hrest, exec_up]
  unfold State.note Kv.exec
  dsimp only
  cases hget : Kv.get? (fleet.clock s) s.kv fleet.breaker.kOpen with
  | none =>
    show fleet.Sound (s.goOn fleet k p (.done (some true)))
    apply hs.answer h hclears
    . intro _ t ht
      obtain ⟨-, -, deadline, hopen, hlate⟩ := hs.opened t ht
      obtain ⟨now, hclock, x, hx, hle⟩ := get?_of_getElem? hopen hget
      rw [mem_clock hclock] at hle
      exact Nat.le_trans (hlate x hx) hle
    . intro hno
      cases hno
  | some e =>
    have hraw := getElem?_of_get? hget
    -- The deadline is that of the trip, on the clock of the gateway that asks.
    have hdeadline : ∀ t ∈ s.trip, asU64 e.1 + fleet.starts p.gateway
        = t.failedAt + fleet.breaker.cfg.openDurationMs := by
      intro t ht
      obtain ⟨hafter, hfits, deadline, hopen, -⟩ := hs.opened t ht
      rw [hopen, Option.some_inj] at hraw
      rw [← hraw, asU64_asI64 hfits, hstarts t ht]
      omega
    dsimp only [Option.map_some]
    split
    . next hcooling =>
      show fleet.Sound (s.goOn fleet k p (.done (some false)))
      apply hs.answer h hclears
      . intro hyes
        cases hyes
      . intro _ t ht
        have heq := hdeadline t ht
        rw [hnow] at hcooling
        omega
    . next hpast =>
      have hcounting : ∀ t ∈ s.trip, t.failedAt + fleet.breaker.cfg.openDurationMs ≤ p.begunAt := by
        intro t ht
        have heq := hdeadline t ht
        rw [hnow] at hpast
        omega
      show fleet.Sound { s with pending := s.pending.set k { p with rest := fleet.breaker.tryHalfOpen.map some } }
      refine { hs with pending := ?_, fresh := ?_ }
      . refine hs.placed_set rfl rfl (Or.inl rfl) ?_
        exact ⟨.counts hop rfl, hbegun, hstarted, fun _ => hcounting⟩
      . intro htrip hasked
        exact fresh_of hs hclears id (fun q hq hne => Tasks.mem_set_of_ne h hq hne) htrip hasked

theorem exec_incr (clock : Option Nat) (kv : Kv) (key : String) (ttlMs : Nat)
    : ∃ n deadline, Kv.exec clock (.incr key ttlMs) kv = (.ok n, kv.insert key (n, deadline))
        ∧ (kv[key]? = none → n = 1) := by
  unfold Kv.exec
  dsimp only
  refine ⟨_, _, rfl, fun hnone => ?_⟩
  unfold Kv.get?
  rw [hnone]
  rfl

theorem Sound.counts (hs : fleet.Sound s) (hpos : 1 ≤ fleet.breaker.cfg.halfOpenMaxCalls)
    (h : s.pending[k]? = some p) (hrest : p.rest = fleet.breaker.tryHalfOpen.map some)
    (hquiet : ∀ q ∈ s.pending, ¬fleet.clears q) : fleet.Sound (fleet.step s (.call k true)) := by
  have hmem := Tasks.mem h
  have hplaced := hs.pending p hmem
  have hbegun := hplaced.begun
  have hcounting := hplaced.counting (by unfold Fleet.counts; rw [hrest]; rfl)
  rw [step_call h hrest, exec_up]
  unfold State.note
  dsimp only
  obtain ⟨n, deadline, hexec, hfirst⟩ := exec_incr (fleet.clock s) s.kv fleet.breaker.kHalf
    fleet.breaker.cfg.openDurationMs
  rw [hexec]
  show fleet.Sound ({ s with kv := s.kv.insert fleet.breaker.kHalf (n, deadline) }.goOn fleet k p
    (.done (some (decide (asU32 n ≤ fleet.breaker.cfg.halfOpenMaxCalls)))))
  have hopen : (s.kv.insert fleet.breaker.kHalf (n, deadline))[fleet.breaker.kOpen]?
      = s.kv[fleet.breaker.kOpen]? := by
    rw [Map.getElem?_insert, if_neg fleet.breaker.kOpen_ne_kHalf.symm]
  unfold State.goOn State.answer
  constructor
  . exact hs.time
  . exact hs.placed_erase rfl rfl (Or.inl rfl)
  . intro hclosed
    rw [hopen]
    exact hs.closed hclosed
  . intro t ht
    have hforce := hs.opened t ht
    exact ⟨hforce.started, hforce.fits, by rw [hopen]; exact hforce.opened⟩
  . intro htrip hasked
    dsimp only at htrip hasked
    obtain ⟨t, ht⟩ := Option.isSome_iff_exists.mp htrip
    rw [ht, Option.any_some, decide_eq_true (hcounting t ht), Bool.or_true] at hasked
    cases hasked
  . apply forall_mem_snoc hs.answers
    intro t ht
    refine ⟨fun _ => Nat.le_trans (hcounting t ht) hbegun, fun _ hasked => ?_⟩
    have hnone : s.kv[fleet.breaker.kHalf]? = none := by
      rcases hs.fresh (Option.isSome_iff_exists.mpr ⟨t, ht⟩) hasked with hnone | ⟨q, hq, hclears⟩
      . exact hnone
      . exact absurd hclears (hquiet q hq)
    rw [hfirst hnone]
    exact decide_eq_true hpos

theorem Sound.succeeds (hs : fleet.Sound s) (h : s.pending[k]? = some p)
    (hrest : p.rest = fleet.breaker.onSuccess.map fun _ => none)
    : fleet.Sound (fleet.step s (.call k true)) := by
  rw [step_call h hrest, exec_up]
  have hnote : s.note fleet p true (.del [fleet.breaker.kFails, fleet.breaker.kOpen, fleet.breaker.kHalf])
      = { s with trip := none } := by
    unfold State.note
    simp
  rw [hnote]
  show fleet.Sound { s with
    trip := none
    kv := ((s.kv.erase fleet.breaker.kFails).erase fleet.breaker.kOpen).erase fleet.breaker.kHalf
    pending := s.pending.eraseIdx k }
  constructor
  . exact hs.time
  . exact hs.placed_erase rfl rfl (Or.inr (Or.inl rfl))
  . intro _
    rw [Map.getElem?_erase, if_neg fleet.breaker.kOpen_ne_kHalf.symm, Map.getElem?_erase, if_pos rfl]
  . nofun
  . nofun
  . exact hs.answers

theorem Sound.same (hs : fleet.Sound s) (h : s.pending[k]? = some p) (hp : ¬fleet.clears p) {kv : Kv}
    {pending : List Pending} (hopen : kv[fleet.breaker.kOpen]? = s.kv[fleet.breaker.kOpen]?)
    (hhalf : kv[fleet.breaker.kHalf]? = s.kv[fleet.breaker.kHalf]?)
    (hpending : pending = s.pending.eraseIdx k
      ∨ ∃ p', pending = s.pending.set k p' ∧ fleet.Placed s p')
    : fleet.Sound { s with kv := kv, pending := pending } := by
  constructor
  . exact hs.time
  . rcases hpending with rfl | ⟨p', rfl, hp'⟩
    . exact hs.placed_erase rfl rfl (Or.inl rfl)
    . exact hs.placed_set rfl rfl (Or.inl rfl) ⟨hp'.stage, hp'.begun, hp'.started, hp'.counting⟩
  . intro hclosed
    rw [hopen]
    exact hs.closed hclosed
  . intro t ht
    have hforce := hs.opened t ht
    exact ⟨hforce.started, hforce.fits, by rw [hopen]; exact hforce.opened⟩
  . intro htrip hasked
    apply fresh_of hs hp (fun hnone => by rw [hhalf]; exact hnone) ?_ htrip hasked
    intro q hq hne
    rcases hpending with rfl | ⟨p', rfl, -⟩
    . exact Tasks.mem_eraseIdx_of_ne h hq hne
    . exact Tasks.mem_set_of_ne h hq hne
  . exact hs.answers

theorem Sound.fails (hs : fleet.Sound s) (h : s.pending[k]? = some p)
    (hfits : p.begunAt - fleet.starts p.gateway + fleet.breaker.cfg.openDurationMs < 2 ^ 64)
    (hrest : p.rest = (fleet.breaker.onFailure (fleet.nowMs p.begunAt p.gateway)).map fun _ => none)
    : fleet.Sound (fleet.step s (.call k true)) := by
  have hplaced := hs.pending p (Tasks.mem h)
  have hclears : ¬fleet.clears p := by
    unfold Fleet.clears
    rw [hrest]
    nofun
  obtain ⟨n, deadline, hexec, -⟩ := exec_incr (fleet.clock s) s.kv fleet.breaker.kFails
    fleet.breaker.failsTtlMs
  rw [step_call h hrest, exec_up, hexec]
  show fleet.Sound { s with
    kv := s.kv.insert fleet.breaker.kFails (n, deadline)
    pending := s.pending.set k { p with
      rest := (fleet.breaker.decideTrip (fleet.nowMs p.begunAt p.gateway) (asU32 n)).map fun _ => none } }
  apply hs.same h hclears
  . rw [Map.getElem?_insert, if_neg fleet.breaker.kFails_ne_kOpen]
  . rw [Map.getElem?_insert, if_neg fleet.breaker.kFails_ne_kHalf]
  . refine Or.inr ⟨_, rfl, .decides hfits _ rfl, hplaced.begun, hplaced.started, fun hcounts => ?_⟩
    cases hcounts

theorem Sound.decides (hs : fleet.Sound s) (h : s.pending[k]? = some p)
    (hfits : p.begunAt - fleet.starts p.gateway + fleet.breaker.cfg.openDurationMs < 2 ^ 64) {fails : Nat}
    (hrest : p.rest
      = (fleet.breaker.decideTrip (fleet.nowMs p.begunAt p.gateway) fails).map fun _ => none)
    : fleet.Sound (fleet.step s (.call k true)) := by
  have hplaced := hs.pending p (Tasks.mem h)
  have hclears : ¬fleet.clears p := by
    unfold Fleet.clears
    rw [hrest]
    nofun
  rw [step_call h hrest, exec_up]
  unfold State.note Kv.exec
  dsimp only
  split
  . show fleet.Sound { s with
      kv := s.kv
      pending := s.pending.set k { p with
        rest := (fleet.breaker.trip (fleet.nowMs p.begunAt p.gateway)).map fun _ => none } }
    apply hs.same h hclears rfl rfl
    refine Or.inr ⟨_, rfl, .trips hfits rfl, hplaced.begun, hplaced.started, fun hcounts => ?_⟩
    cases hcounts
  . show fleet.Sound { s with kv := s.kv, pending := s.pending.eraseIdx k }
    exact hs.same h hclears rfl rfl (Or.inl rfl)

theorem le_failsTtlMs (b : SharedCircuitBreaker) : b.cfg.openDurationMs ≤ b.failsTtlMs := by
  have hlt := b.cfg.openDurationMs_lt
  unfold SharedCircuitBreaker.failsTtlMs
  omega

theorem Sound.trips (hs : fleet.Sound s) (h : s.pending[k]? = some p)
    (hfits : p.begunAt - fleet.starts p.gateway + fleet.breaker.cfg.openDurationMs < 2 ^ 64)
    (hrest : p.rest = (fleet.breaker.trip (fleet.nowMs p.begunAt p.gateway)).map fun _ => none)
    (hquiet : ∀ q ∈ s.pending, ¬fleet.counts q) : fleet.Sound (fleet.step s (.call k true)) := by
  have hplaced := hs.pending p (Tasks.mem h)
  have hbegun := hplaced.begun
  have hnow := nowMs_eq hs (Tasks.mem h)
  rw [step_call h hrest, exec_up]
  show fleet.Sound { s with
    trip := some { gateway := p.gateway, failedAt := p.begunAt }
    asked := false
    kv := s.kv.insert fleet.breaker.kOpen
      (asI64 ((fleet.nowMs p.begunAt p.gateway + fleet.breaker.cfg.openDurationMs) % 2 ^ 64),
        (fleet.clock s).map (· + fleet.breaker.failsTtlMs))
    pending := s.pending.set k { p with rest := fleet.breaker.clearHalf.map fun _ => none } }
  constructor
  . exact hs.time
  . refine hs.placed_set rfl rfl (Or.inr (Or.inr hquiet)) ?_
    exact ⟨.clears rfl, hbegun, hplaced.started, fun hcounts => nomatch hcounts⟩
  . nofun
  . intro t ht
    cases ht
    refine ⟨hplaced.started, hfits, (fleet.clock s).map (· + fleet.breaker.failsTtlMs), ?_, ?_⟩
    . dsimp only
      rw [Map.getElem?_insert, if_pos rfl, hnow, Nat.mod_eq_of_lt hfits]
    . intro x hx
      rw [Option.mem_def, Option.map_eq_some_iff] at hx
      obtain ⟨now, hclock, rfl⟩ := hx
      have hnow := mem_clock hclock
      have hle := le_failsTtlMs fleet.breaker
      dsimp only
      omega
  . intro _ _
    refine Or.inr ⟨{ p with rest := fleet.breaker.clearHalf.map fun _ => none }, ?_, rfl⟩
    obtain ⟨as, bs, -, hset, -⟩ := Tasks.split h
    dsimp only
    rw [hset]
    exact List.mem_append_right _ List.mem_cons_self
  . exact hs.answers

theorem Sound.clears (hs : fleet.Sound s) (h : s.pending[k]? = some p)
    (hrest : p.rest = fleet.breaker.clearHalf.map fun _ => none)
    : fleet.Sound (fleet.step s (.call k true)) := by
  have hnote : s.note fleet p true (.del [fleet.breaker.kHalf]) = s := by
    unfold State.note
    simp
  have hopen : (s.kv.erase fleet.breaker.kHalf)[fleet.breaker.kOpen]? = s.kv[fleet.breaker.kOpen]? := by
    rw [Map.getElem?_erase, if_neg fleet.breaker.kOpen_ne_kHalf.symm]
  rw [step_call h hrest, exec_up, hnote]
  show fleet.Sound { s with kv := s.kv.erase fleet.breaker.kHalf, pending := s.pending.eraseIdx k }
  constructor
  . exact hs.time
  . exact hs.placed_erase rfl rfl (Or.inl rfl)
  . intro hclosed
    rw [hopen]
    exact hs.closed hclosed
  . intro t ht
    have hforce := hs.opened t ht
    exact ⟨hforce.started, hforce.fits, by rw [hopen]; exact hforce.opened⟩
  . intro _ _
    left
    rw [Map.getElem?_erase, if_pos rfl]
  . exact hs.answers

theorem Sound.begins (hs : fleet.Sound s) {gateway : Nat} {op : Op} (hstarted : fleet.starts gateway ≤ s.time)
    (hfits : op = .onFailure → s.time - fleet.starts gateway + fleet.breaker.cfg.openDurationMs < 2 ^ 64)
    : fleet.Sound { s with
        pending := s.pending ++
          [{ gateway, op, begunAt := s.time, rest := fleet.program (fleet.nowMs s.time gateway) op }] } := by
  refine { hs with pending := ?_, fresh := ?_ }
  . intro q hq
    rcases List.mem_append.mp hq with hold | hnew
    . exact (hs.pending q hold).of_trip (Nat.le_refl _) (Or.inl rfl)
    . rw [List.mem_singleton] at hnew
      subst hnew
      refine ⟨?_, Nat.le_refl _, hstarted, fun hcounts => ?_⟩
      . cases op with
        | allow => exact .asks rfl rfl
        | onSuccess => exact .succeeds rfl
        | onFailure => exact .fails (hfits rfl) rfl
      . have hop? : (fleet.program (fleet.nowMs s.time gateway) op).op?
            = some (.incr fleet.breaker.kHalf fleet.breaker.cfg.openDurationMs) := hcounts
        cases op with
        | allow => cases hop?
        | onSuccess => cases hop?
        | onFailure =>
          have hkey : fleet.breaker.kFails = fleet.breaker.kHalf := by
            injection hop? with hop
            injection hop
          exact absurd hkey fleet.breaker.kFails_ne_kHalf
  . intro htrip hasked
    refine (hs.fresh htrip hasked).imp_right ?_
    rintro ⟨q, hq, hclears⟩
    exact ⟨q, List.mem_append_left _ hq, hclears⟩

theorem sound_step (hs : fleet.Sound s) (hpos : 1 ≤ fleet.breaker.cfg.halfOpenMaxCalls) {move : Move}
    (horderly : fleet.Orderly s move) : fleet.Sound (fleet.step s move) := by
  cases move with
  | tick time =>
    unfold step
    dsimp only
    split
    . next htime =>
      refine { hs with time := htime.2, pending := ?_ }
      intro q hq
      exact (hs.pending q hq).of_trip htime.1 (Or.inl rfl)
    . exact hs
  | begins gateway op =>
    unfold step
    dsimp only
    split
    . next hstarted =>
      apply hs.begins hstarted
      rintro rfl
      exact horderly
    . exact hs
  | call k up =>
    obtain ⟨rfl, horder⟩ := horderly
    cases h : s.pending[k]? with
    | none =>
      unfold step
      dsimp only
      rw [h]
      exact hs
    | some p =>
      obtain ⟨hsame, htrips, hcounts⟩ := horder p h
      cases (hs.pending p (Tasks.mem h)).stage with
      | asks hop hrest => exact hs.asks h hop hrest (hsame hop)
      | counts hop hrest =>
        apply hs.counts hpos h hrest
        apply hcounts
        unfold Fleet.counts
        rw [hrest]
        rfl
      | succeeds hrest => exact hs.succeeds h hrest
      | fails hfits hrest => exact hs.fails h hfits hrest
      | decides hfits _ hrest => exact hs.decides h hfits hrest
      | trips hfits hrest =>
        apply hs.trips h hfits hrest
        apply htrips
        unfold Fleet.trips
        rw [hrest]
        exact ⟨_, _, _, rfl⟩
      | clears hrest => exact hs.clears h hrest
  | drop k =>
    unfold step
    dsimp only
    refine { hs with pending := ?_, fresh := ?_ }
    . exact hs.placed_erase rfl rfl (Or.inl rfl)
    . intro htrip hasked
      cases h : s.pending[k]? with
      | none =>
        rw [List.eraseIdx_of_length_le (List.getElem?_eq_none_iff.mp h)]
        exact hs.fresh htrip hasked
      | some p =>
        apply fresh_of hs (horderly p h) id ?_ htrip hasked
        exact fun q hq hne => Tasks.mem_eraseIdx_of_ne h hq hne

theorem sound_init : fleet.Sound {} := by
  refine ⟨by decide, nofun, fun _ => ?_, nofun, nofun, nofun⟩
  simp

theorem holds_of_run (hpos : 1 ≤ fleet.breaker.cfg.halfOpenMaxCalls) {moves : List Move}
    (h : Run (Guarded (fun s move => fleet.Orderly s move) fleet.step) {} moves s)
    : ∀ a ∈ s.answers, a.Holds fleet.breaker.cfg.openDurationMs := by
  have hsound : fleet.Sound s := by
    apply Run.invariant (P := fun s => fleet.Sound s) ?_ h sound_init
    rintro s move t hs ⟨horderly, rfl⟩
    exact sound_step hs hpos horderly
  exact hsound.answers

-- One gateway gets the answers of its own breaker as long as a half-open period counts with 32 bits,
-- and gateways that were started together keep to the cool-down as long as no trial is counted while
-- a trip is being recorded.
theorem agrees_and_holds (b : SharedCircuitBreaker) (hpos : 1 ≤ b.cfg.halfOpenMaxCalls)
    : (∀ (ops : List SharedCircuitBreaker.Op) (s : SharedCircuitBreaker.Both),
          Run (Guarded (fun s op => s.InOrder op ∧ s.Counts b op) (SharedCircuitBreaker.Both.step b)) {} ops s →
            ∀ a ∈ s.answers, a.1 = a.2)
        ∧ ∀ (fleet : Fleet) (moves : List Move) (s : State), fleet.breaker = b →
          Run (Guarded (fun s move => fleet.Orderly s move) fleet.step) {} moves s →
            ∀ a ∈ s.answers, a.Holds b.cfg.openDurationMs := by
  constructor
  . intro ops s h
    exact SharedCircuitBreaker.Both.agrees_of_run hpos h
  . rintro fleet moves s rfl h
    exact holds_of_run hpos h

def sharedBreaker : SharedCircuitBreaker :=
  { cfg := .strict, keyPrefix := "wovyr:breaker:openai" }

def startedAt (starts : Nat → Nat) : Fleet :=
  { breaker := sharedBreaker, starts, enforced := true }

theorem orderly_alone (hstarts : ∀ g g', fleet.starts g = fleet.starts g') (halone : s.pending.length ≤ 1)
    : fleet.Orderly s (.call k true) := by
  refine ⟨rfl, fun p hp => ?_⟩
  have honly : ∀ q ∈ s.pending, q = p := by
    intro q hq
    have hmem := Tasks.mem hp
    cases hpending : s.pending with
    | nil =>
      rw [hpending] at hq
      cases hq
    | cons x rest =>
      rw [hpending, List.length_cons] at halone
      have hnil : rest = [] := List.eq_nil_of_length_eq_zero (by omega)
      rw [hpending, hnil, List.mem_singleton] at hq hmem
      rw [hq, hmem]
  refine ⟨fun _ t _ => hstarts _ _, fun htrips q hq hcounts => ?_, fun hcounts q hq hclears => ?_⟩
  . obtain ⟨key, value, ttlMs, hop⟩ := htrips
    rw [honly q hq] at hcounts
    unfold counts at hcounts
    rw [hop] at hcounts
    cases hcounts
  . rw [honly q hq] at hclears
    unfold counts at hcounts
    unfold clears at hclears
    rw [hcounts] at hclears
    cases hclears

-- A failure at 200 seconds, and a trial at 215 seconds by a gateway that was started with the first.
theorem agrees_and_holds_together
    : (∀ a ∈ ([.onFailure 0, .allow 10, .allow 15000, .allow 15000, .onSuccess, .allow 15001].foldl
          (SharedCircuitBreaker.Both.step sharedBreaker) {}).answers, a.1 = a.2)
        ∧ ∀ a ∈ ((startedAt fun _ => 0).after [.tick 200000, .begins 1 .onFailure, .call 0 true,
            .call 0 true, .call 0 true, .call 0 true, .tick 215000, .begins 0 .allow, .call 0 true,
            .call 0 true]).answers, a.Holds 15000 := by
  have hboth := agrees_and_holds sharedBreaker (by decide)
  constructor
  . apply hboth.1 [.onFailure 0, .allow 10, .allow 15000, .allow 15000, .onSuccess, .allow 15001]
    refine .cons ⟨?_, rfl⟩ (.cons ⟨?_, rfl⟩ (.cons ⟨?_, rfl⟩ (.cons ⟨?_, rfl⟩ (.cons ⟨?_, rfl⟩
      (.cons ⟨?_, rfl⟩ (.nil _))))))
    all_goals
      decide
  . apply hboth.2 (startedAt fun _ => 0) [.tick 200000, .begins 1 .onFailure, .call 0 true,
      .call 0 true, .call 0 true, .call 0 true, .tick 215000, .begins 0 .allow, .call 0 true,
      .call 0 true] _ rfl
    have halone {s : State} (h : s.pending.length ≤ 1) : (startedAt fun _ => 0).Orderly s (.call 0 true) :=
      orderly_alone (fun _ _ => rfl) h
    have hfits : 200000 - 0 + 15000 < 2 ^ 64 := by decide
    refine .cons ⟨trivial, rfl⟩ (.cons ⟨hfits, rfl⟩ (.cons ⟨halone ?_, rfl⟩ (.cons ⟨halone ?_, rfl⟩
      (.cons ⟨halone ?_, rfl⟩ (.cons ⟨halone ?_, rfl⟩ (.cons ⟨trivial, rfl⟩ (.cons ⟨trivial, rfl⟩
        (.cons ⟨halone ?_, rfl⟩ (.cons ⟨halone ?_, rfl⟩ (.nil _))))))))))
    all_goals
      decide

-- The gateway that asks was started 100 seconds before the one whose failure tripped the breaker.
theorem not_holds_olderGateway
    : ¬∀ a ∈ ((startedAt fun g => 100000 * g).after [.tick 200000, .begins 1 .onFailure, .call 0 true,
        .call 0 true, .call 0 true, .call 0 true, .begins 0 .allow, .call 0 true, .call 0 true]).answers,
      a.Holds 15000 := by
  intro h
  have hlog : (((startedAt fun g => 100000 * g).after [.tick 200000, .begins 1 .onFailure, .call 0 true,
      .call 0 true, .call 0 true, .call 0 true, .begins 0 .allow, .call 0 true, .call 0 true]).answers.any
        fun a => a.allowed && a.trip.any fun t => decide (a.answeredAt < t.failedAt + 15000)) = true := by
    decide
  obtain ⟨a, ha, hearly⟩ := List.any_eq_true.mp hlog
  rw [Bool.and_eq_true, Option.any_eq_true] at hearly
  obtain ⟨hallowed, t, ht, hlt⟩ := hearly
  have hle := (h a ha t ht).1 hallowed
  rw [decide_eq_true_eq] at hlt
  omega

end Wovyr.Provider.Fleet
