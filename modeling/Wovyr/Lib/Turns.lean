import Mathlib.Data.List.Induction
import Mathlib.Data.List.Nodup
import Wovyr.Lib.Service

/-!
This module contains the turns of a run of a service: which call made which operation, and in which
state.
-/

namespace Service

open List

variable {ι Op : Type} {Res : Op → Type} {σ α : Type}

structure Turn (ι Op σ : Type) where
  time : Nat
  since : Nat
  call : ι
  op : Op
  before : σ

variable (svc : Service ι Op Res σ α)

def Turn.after (t : Turn ι Op σ) : σ :=
  (svc.exec t.op t.before).2

def turn? (s : System svc) : Move ι → Option (Turn ι Op σ)
  | .step k =>
    match s.sessions[k]? with
    | some x =>
      if x.phase = .waiting then
        none
      else
        x.rest.op?.map fun op => ⟨s.history.length, x.since, x.call, op, s.shared⟩
    | none => none
  | _ => none

def turns (s : System svc) : List (Move ι) → List (Turn ι Op σ)
  | [] => []
  | m :: moves => (turn? svc s m).toList ++ turns (svc.move s m) moves

def turnsOf (ts : List (Turn ι Op σ)) (i : Nat) : List (Turn ι Op σ) :=
  ts.filter (·.since == i)

def Chained : σ → List (Turn ι Op σ) → σ → Prop
  | s, [], s' => s = s'
  | s, t :: ts, s' => t.before = s ∧ Chained (t.after svc) ts s'

def Follows {β : Type} (rest : Client Op Res β) : List (Turn ι Op σ) → Client Op Res β → Prop
  | [], m => m = rest
  | _ :: _, .done _ => False
  | t :: ts, .call op next => t.op = op ∧ Follows rest ts (next (svc.exec op t.before).1)

variable {svc}

theorem chained_append {s s' : σ} {ts us : List (Turn ι Op σ)}
    : svc.Chained s (ts ++ us) s' ↔ ∃ u, svc.Chained s ts u ∧ svc.Chained u us s' := by
  induction ts generalizing s with
  | nil => simp [Chained]
  | cons t ts ih => simp [Chained, ih, and_assoc]

theorem chained_snoc {s s' : σ} {ts : List (Turn ι Op σ)} {t : Turn ι Op σ}
    : svc.Chained s (ts ++ [t]) s' ↔ svc.Chained s ts t.before ∧ t.after svc = s' := by
  rw [chained_append]
  constructor
  . rintro ⟨u, hts, rfl, rfl⟩
    exact ⟨hts, rfl⟩
  . rintro ⟨hts, rfl⟩
    exact ⟨_, hts, rfl, rfl⟩

theorem follows_snoc {β : Type} {m : Client Op Res β} {op : Op} {next : Res op → Client Op Res β}
    {ts : List (Turn ι Op σ)} {t : Turn ι Op σ} (h : svc.Follows (.call op next) ts m) (ht : t.op = op)
    : svc.Follows (next (svc.exec op t.before).1) (ts ++ [t]) m := by
  induction ts generalizing m with
  | nil =>
    cases h
    exact ⟨ht, rfl⟩
  | cons u ts ih =>
    cases m with
    | done a => exact h.elim
    | call op' next' => exact ⟨h.1, ih h.2⟩

theorem Follows.split {β : Type} {m rest : Client Op Res β} {ts us : List (Turn ι Op σ)} {t : Turn ι Op σ}
    (h : svc.Follows rest (ts ++ t :: us) m) {op : Op} (hop : t.op = op)
    : ∃ next, svc.Follows (.call op next) ts m ∧ svc.Follows rest us (next (svc.exec op t.before).1) := by
  subst hop
  induction ts generalizing m with
  | nil =>
    cases m with
    | done a => exact h.elim
    | call op next =>
      obtain ⟨rfl, hrest⟩ := h
      exact ⟨next, rfl, hrest⟩
  | cons u ts ih =>
    cases m with
    | done a => exact h.elim
    | call op next =>
      obtain ⟨next', hfollows, hrest⟩ := ih h.2
      exact ⟨next', ⟨h.1, hfollows⟩, hrest⟩

variable (svc) in
def Leaves {β : Type} (post : List (Turn ι Op σ) → β → Prop) : Client Op Res β → List (Turn ι Op σ) → Prop
  | .done b, past => post past b
  | .call op next, past => ∀ t : Turn ι Op σ, t.op = op → Leaves post (next (svc.exec op t.before).1) (past ++ [t])

section

variable {β γ : Type} {post : List (Turn ι Op σ) → β → Prop} {past : List (Turn ι Op σ)}

theorem Leaves.follows {m : Client Op Res β} (h : svc.Leaves post m past) {ts : List (Turn ι Op σ)} {b : β}
    (hfollows : svc.Follows (.done b) ts m) : post (past ++ ts) b := by
  induction ts generalizing m past with
  | nil =>
    cases hfollows
    rw [append_nil]
    exact h
  | cons t ts ih =>
    cases m with
    | done b => exact hfollows.elim
    | call op next =>
      obtain ⟨hop, hrest⟩ := hfollows
      have hts := ih (h t hop) hrest
      rw [append_assoc] at hts
      exact hts

theorem Leaves.bind {m : Client Op Res γ} {f : γ → Client Op Res β}
    (h : svc.Leaves (fun past c => svc.Leaves post (f c) past) m past) : svc.Leaves post (m >>= f) past := by
  induction m generalizing past with
  | done c => exact h
  | call op next ih => exact fun t hop => ih _ (h t hop)

theorem Leaves.imp {post' : List (Turn ι Op σ) → β → Prop} {m : Client Op Res β}
    (himp : ∀ past b, post past b → post' past b) (h : svc.Leaves post m past) : svc.Leaves post' m past := by
  induction m generalizing past with
  | done b => exact himp past b h
  | call op next ih => exact fun t hop => ih _ (h t hop)

end

section

variable {ts us : List (Turn ι Op σ)} {t : Turn ι Op σ} {i : Nat}

theorem snoc_eq_append {before between : List (Turn ι Op σ)} {w : Turn ι Op σ}
    (h : ts ++ [t] = before ++ w :: between)
    : between = [] ∧ w = t ∨ ∃ between', between = between' ++ [t] ∧ ts = before ++ w :: between' := by
  cases between using reverseRecOn with
  | nil => exact Or.inl ⟨rfl, ((append_inj' h rfl).2 |> head_eq_of_cons_eq).symm⟩
  | append_singleton between' last =>
    right
    rw [← cons_append, ← append_assoc] at h
    obtain ⟨hts, hlast⟩ := append_inj' h rfl
    cases hlast
    exact ⟨between', rfl, hts⟩

theorem turnsOf_split {past later : List (Turn ι Op σ)}
    : turnsOf (past ++ t :: later) t.since = turnsOf past t.since ++ t :: turnsOf later t.since := by
  simp [turnsOf]

theorem mem_turnsOf : t ∈ turnsOf ts i ↔ t ∈ ts ∧ t.since = i := by
  simp [turnsOf]

theorem turnsOf_snoc : turnsOf (ts ++ [t]) t.since = turnsOf ts t.since ++ [t] := by
  simp [turnsOf]

theorem turnsOf_snoc_of_ne (h : t.since ≠ i) : turnsOf (ts ++ [t]) i = turnsOf ts i := by
  simp [turnsOf, h]

end

def CalledAt (s : State ι Op Res σ α) (i : Nat) (c : ι) : Prop :=
  ∃ now, s.history[i]? = some ⟨.called c, now⟩

theorem CalledAt.log {s : State ι Op Res σ α} {i : Nat} {c : ι} (h : CalledAt s i c) (event : Event ι α)
    : CalledAt (s.log event) i c := by
  obtain ⟨now, hnow⟩ := h
  exact ⟨now, getElem?_append_of_some hnow⟩

theorem CalledAt.lt {s : State ι Op Res σ α} {i : Nat} {c : ι} (h : CalledAt s i c)
    : i < s.history.length := by
  obtain ⟨now, hnow⟩ := h
  exact (List.getElem?_eq_some_iff.mp hnow).1

theorem CalledAt.unique {s : State ι Op Res σ α} {i : Nat} {c c' : ι} (h : CalledAt s i c)
    (h' : CalledAt s i c') : c = c' := by
  obtain ⟨now, hnow⟩ := h
  obtain ⟨now', hnow'⟩ := h'
  rw [hnow] at hnow'
  cases hnow'
  rfl

/--
What the turns of a run tell: each belongs to a call, and those of a call have gone along its program, to
what is left of it or to its answer.
-/
structure Traced (svc : Service ι Op Res σ α) (s : System svc) (ts : List (Turn ι Op σ)) : Prop where
  turns : ∀ t ∈ ts, t.since < t.time ∧ t.time ≤ s.history.length ∧ CalledAt s t.since t.call
  followed : ∀ i c, CalledAt s i c → ∃ rest, svc.Follows rest (turnsOf ts i) (svc.prog c)
  sessions : ∀ x ∈ s.sessions, CalledAt s x.since x.call
    ∧ svc.Follows x.rest (turnsOf ts x.since) (svc.prog x.call)
  apart : (s.sessions.map Session.since).Nodup
  answered : ∀ j i c a now, s.history[j]? = some ⟨.returned i c a, now⟩ → CalledAt s i c
    ∧ (∀ x ∈ s.sessions, x.since ≠ i) ∧ svc.Follows (.done a) (turnsOf ts i) (svc.prog c)
    ∧ ∀ t ∈ turnsOf ts i, t.time ≤ j
  timed : (ts.map Turn.time).Pairwise (· ≤ ·)

section

variable {s t : System svc} {ts : List (Turn ι Op σ)}

theorem Traced.start (s₀ : σ) : Traced svc { shared := s₀ } [] := by
  constructor
  . simp
  . rintro i c ⟨now, hnow⟩
    cases hnow
  . simp
  . exact List.Pairwise.nil
  . simp
  . exact List.Pairwise.nil

theorem Traced.of_sessions (h : Traced svc s ts) (hhistory : t.history = s.history)
    (hold : ∀ x ∈ t.sessions, ∃ y ∈ s.sessions, y.since = x.since ∧ y.call = x.call ∧ y.rest = x.rest)
    (hapart : (t.sessions.map Session.since).Nodup) : Traced svc t ts := by
  have hcalled : CalledAt t = CalledAt s := by
    funext i c
    unfold CalledAt
    rw [hhistory]
  constructor
  . intro u hu
    rw [hhistory, hcalled]
    exact h.turns u hu
  . rw [hcalled]
    exact h.followed
  . intro x hx
    obtain ⟨y, hy, hsince, hcall, hrest⟩ := hold x hx
    have hsession := h.sessions y hy
    rw [hsince, hcall, hrest] at hsession
    rw [hcalled]
    exact hsession
  . exact hapart
  . intro j i c a now hentry
    rw [hhistory] at hentry
    obtain ⟨hcall, hnone, hfollows, htime⟩ := h.answered j i c a now hentry
    rw [hcalled]
    refine ⟨hcall, ?_, hfollows, htime⟩
    intro x hx
    obtain ⟨y, hy, hsince, -, -⟩ := hold x hx
    rw [← hsince]
    exact hnone y hy
  . exact h.timed

theorem Traced.erase (h : Traced svc s ts) (k : Nat)
    : Traced svc { s with sessions := s.sessions.eraseIdx k } ts := by
  apply h.of_sessions (t := { s with sessions := s.sessions.eraseIdx k }) rfl
  . intro x hx
    exact ⟨x, mem_of_mem_eraseIdx hx, rfl, rfl, rfl⟩
  . exact h.apart.sublist ((eraseIdx_sublist _ _).map _)

theorem map_since_set {k : Nat} {x y : Session ι Op Res σ α} (hx : s.sessions[k]? = some x)
    (hy : y.since = x.since) : (s.sessions.set k y).map Session.since = s.sessions.map Session.since := by
  obtain ⟨as, bs, hxs, hset, -⟩ := Tasks.split hx
  rw [hset, hxs, map_append, map_append, map_cons, map_cons, hy]

theorem Traced.set (h : Traced svc s ts) {k : Nat} {x y : Session ι Op Res σ α}
    (hx : s.sessions[k]? = some x) (hsince : y.since = x.since) (hcall : y.call = x.call)
    (hrest : y.rest = x.rest) (hhistory : t.history = s.history)
    (hsessions : t.sessions = s.sessions.set k y) : Traced svc t ts := by
  apply h.of_sessions hhistory
  . intro z hz
    rw [hsessions] at hz
    rcases Tasks.mem_set hz with hold | rfl
    . exact ⟨z, hold, rfl, rfl, rfl⟩
    . exact ⟨x, Tasks.mem hx, hsince.symm, hcall.symm, hrest.symm⟩
  . rw [hsessions, map_since_set hx hsince]
    exact h.apart

theorem Traced.call (h : Traced svc s ts) (c : ι) : Traced svc (svc.call s c) ts := by
  have hold {i : Nat} {c' : ι} (hc : CalledAt s i c') : CalledAt (svc.call s c) i c' := hc.log (.called c)
  have hnew : CalledAt (svc.call s c) s.history.length c := ⟨s.shared, by simp [Service.call, State.log]⟩
  have hnone : turnsOf ts s.history.length = [] := by
    rw [eq_nil_iff_forall_not_mem]
    intro u hu
    obtain ⟨hu, hsince⟩ := (mem_turnsOf).mp hu
    have hlt := (h.turns u hu).2.2.lt
    omega
  have hlt : ∀ x ∈ s.sessions, x.since < s.history.length := fun x hx => (h.sessions x hx).1.lt
  constructor
  . intro u hu
    obtain ⟨hsince, htime, hcalled⟩ := h.turns u hu
    refine ⟨hsince, ?_, hold hcalled⟩
    simp only [Service.call, State.log, length_append, length_singleton]
    omega
  . rintro i c' ⟨now, hentry⟩
    rcases getElem?_snoc hentry with hentry | ⟨rfl, heq⟩
    . exact h.followed i c' ⟨now, hentry⟩
    . rw [hnone]
      exact ⟨_, rfl⟩
  . apply forall_mem_snoc
    . intro x hx
      obtain ⟨hcalled, hfollows⟩ := h.sessions x hx
      exact ⟨hold hcalled, hfollows⟩
    . refine ⟨hnew, ?_⟩
      show svc.Follows (svc.prog c) (turnsOf ts s.history.length) (svc.prog c)
      rw [hnone]
      rfl
  . show ((s.sessions ++ [_]).map Session.since).Nodup
    rw [map_append, nodup_append]
    refine ⟨h.apart, nodup_singleton _, ?_⟩
    intro i hi j hj
    obtain ⟨x, hx, rfl⟩ := mem_map.mp hi
    cases mem_singleton.mp hj
    exact Nat.ne_of_lt (hlt x hx)
  . intro j i c' a now hentry
    rcases getElem?_snoc hentry with hentry | ⟨rfl, heq⟩
    . obtain ⟨hcalled, hother, hfollows, htime⟩ := h.answered j i c' a now hentry
      refine ⟨hold hcalled, ?_, hfollows, htime⟩
      apply forall_mem_snoc hother
      exact (Nat.ne_of_lt hcalled.lt).symm
    . cases heq
  . exact h.timed

theorem Traced.ret (h : Traced svc s ts) {k : Nat} {x : Session ι Op Res σ α} {a : α}
    (hx : s.sessions[k]? = some x) (hrest : x.rest = .done a)
    : Traced svc { s.log (.returned x.since x.call a) with sessions := s.sessions.eraseIdx k } ts := by
  have hold {i : Nat} {c : ι} (hc : CalledAt s i c) : CalledAt (s.log (.returned x.since x.call a)) i c :=
    hc.log _
  obtain ⟨hcalled, hfollows⟩ := h.sessions x (Tasks.mem hx)
  constructor
  . intro u hu
    obtain ⟨hsince, htime, hcall⟩ := h.turns u hu
    refine ⟨hsince, ?_, hold hcall⟩
    simp only [State.log, length_append, length_singleton]
    omega
  . rintro i c ⟨now, hentry⟩
    rcases getElem?_snoc hentry with hentry | ⟨rfl, heq⟩
    . exact h.followed i c ⟨now, hentry⟩
    . cases heq
  . intro y hy
    obtain ⟨hcall, hy⟩ := h.sessions y (mem_of_mem_eraseIdx hy)
    exact ⟨hold hcall, hy⟩
  . exact h.apart.sublist ((eraseIdx_sublist _ _).map _)
  . intro j i c b now hentry
    rcases getElem?_snoc hentry with hentry | ⟨rfl, heq⟩
    . obtain ⟨hcall, hother, hans⟩ := h.answered j i c b now hentry
      exact ⟨hold hcall, fun y hy => hother y (mem_of_mem_eraseIdx hy), hans⟩
    . cases heq
      refine ⟨hold hcalled, ?_, by rwa [hrest] at hfollows, ?_⟩
      . obtain ⟨as, bs, hxs, -, herase⟩ := Tasks.split hx
        have hapart := h.apart
        rw [hxs, map_append, map_cons, nodup_middle, nodup_cons, ← map_append] at hapart
        intro y hy heq
        rw [herase] at hy
        exact hapart.1 (mem_map.mpr ⟨y, hy, heq⟩)
      . intro u hu
        exact (h.turns u ((mem_turnsOf).mp hu).1).2.1
  . exact h.timed

theorem Traced.step (h : Traced svc s ts) {k : Nat} {x : Session ι Op Res σ α} {op : Op}
    {next : Res op → Client Op Res α} (hx : s.sessions[k]? = some x) (hrest : x.rest = .call op next)
    {shared : σ}
    : Traced svc
        { s with
          shared, sessions := s.sessions.set k { x with rest := next (svc.exec op s.shared).1 } }
        (ts ++ [⟨s.history.length, x.since, x.call, op, s.shared⟩]) := by
  obtain ⟨hcalled, hfollows⟩ := h.sessions x (Tasks.mem hx)
  rw [hrest] at hfollows
  have hgo : svc.Follows (next (svc.exec op s.shared).1)
      (turnsOf (ts ++ [⟨s.history.length, x.since, x.call, op, s.shared⟩]) x.since) (svc.prog x.call) := by
    rw [turnsOf_snoc (t := ⟨s.history.length, x.since, x.call, op, s.shared⟩)]
    exact follows_snoc (t := ⟨s.history.length, x.since, x.call, op, s.shared⟩) hfollows rfl
  have hstay {i : Nat} (hne : x.since ≠ i)
      : turnsOf (ts ++ [⟨s.history.length, x.since, x.call, op, s.shared⟩]) i = turnsOf ts i :=
    turnsOf_snoc_of_ne hne
  constructor
  . apply forall_mem_snoc h.turns
    exact ⟨hcalled.lt, Nat.le_refl _, hcalled⟩
  . intro i c hc
    by_cases hi : x.since = i
    . subst hi
      cases hcalled.unique hc
      exact ⟨_, hgo⟩
    . rw [hstay hi]
      exact h.followed i c hc
  . intro y hy
    obtain ⟨as, bs, hxs, hset, -⟩ := Tasks.split hx
    have hapart := h.apart
    rw [hxs, map_append, map_cons, nodup_middle, nodup_cons, ← map_append] at hapart
    have hother (hy : y ∈ as ++ bs) : CalledAt s y.since y.call ∧ svc.Follows y.rest
        (turnsOf (ts ++ [⟨s.history.length, x.since, x.call, op, s.shared⟩]) y.since) (svc.prog y.call) := by
      have hne : x.since ≠ y.since := by
        intro heq
        exact hapart.1 (mem_map.mpr ⟨y, hy, heq.symm⟩)
      rw [hstay hne]
      apply h.sessions y
      rw [hxs]
      exact mem_append.mpr ((mem_append.mp hy).imp_right (mem_cons_of_mem _))
    dsimp only at hy
    rw [hset] at hy
    rcases mem_append.mp hy with has | hbs
    . exact hother (mem_append_left _ has)
    . rcases mem_cons.mp hbs with rfl | hbs
      . exact ⟨hcalled, hgo⟩
      . exact hother (mem_append_right _ hbs)
  . dsimp only
    rw [map_since_set (y := { x with rest := next (svc.exec op s.shared).1 }) hx rfl]
    exact h.apart
  . intro j i c a now hentry
    obtain ⟨hcall, hother, hans⟩ := h.answered j i c a now hentry
    have hne : x.since ≠ i := hother x (Tasks.mem hx)
    rw [hstay hne]
    refine ⟨hcall, ?_, hans⟩
    intro y hy
    rcases Tasks.mem_set hy with hold | rfl
    . exact hother y hold
    . exact hne
  . rw [map_append, pairwise_append]
    refine ⟨h.timed, pairwise_singleton _ _, ?_⟩
    intro n hn m hm
    obtain ⟨u, hu, rfl⟩ := mem_map.mp hn
    cases mem_singleton.mp hm
    exact (h.turns u hu).2.1

theorem turn?_eq_none {m : Move ι} (hm : ∀ k, m ≠ .step k) : svc.turn? s m = none := by
  cases m with
  | step k => exact absurd rfl (hm k)
  | _ => rfl

theorem traced_act (h : Traced svc s ts) {k : Nat} {x : Session ι Op Res σ α} (hx : s.sessions[k]? = some x)
    {m : Move ι} (hm : ∀ k, m ≠ .step k) : Traced svc (svc.act s k x m) ts := by
  cases m with
  | call c => exact h
  | step k => exact absurd rfl (hm k)
  | enter _ =>
    dsimp only [act]
    split
    . exact h.set (y := { x with phase := .inside, start := s.shared }) hx rfl rfl rfl rfl rfl
    . exact h
  | leave _ =>
    dsimp only [act]
    split
    . exact h.set (y := { x with phase := .outside }) hx rfl rfl rfl rfl rfl
    . exact h
  | ret _ =>
    dsimp only [act]
    split
    . next a _ hrest => exact h.ret hx hrest
    . exact h
  | stop _ => exact h.erase k

theorem traced_move (h : Traced svc s ts) (m : Move ι)
    : Traced svc (svc.move s m) (ts ++ (svc.turn? s m).toList) := by
  cases m with
  | call c =>
    rw [turn?_eq_none (by simp), Option.toList_none, append_nil]
    exact h.call c
  | step k =>
    unfold move turn?
    dsimp only [Move.session?, Option.bind_some]
    cases hx : s.sessions[k]? with
    | none => simpa using h
    | some x =>
      dsimp only [Option.map_some, act]
      split
      . simpa using h
      . cases hrest : x.rest with
        | done a =>
          dsimp only [Client.op?, Option.map_none, Option.toList_none]
          rw [append_nil]
          exact h.set (y := { x with rest := .done a }) hx rfl rfl hrest.symm rfl rfl
        | call op next => exact h.step hx hrest
  | enter k | leave k | ret k | stop k =>
    rw [turn?_eq_none (by simp), Option.toList_none, append_nil]
    unfold move
    dsimp only [Move.session?, Option.bind_some]
    cases hx : s.sessions[k]? with
    | none => exact h
    | some x => exact traced_act h hx (by simp)

theorem traced_run (h : Traced svc s ts) (moves : List (Move ι))
    : Traced svc (svc.run s moves) (ts ++ svc.turns s moves) := by
  induction moves generalizing s ts with
  | nil => simpa [turns, run] using h
  | cons m moves ih =>
    rw [turns, ← append_assoc]
    exact ih (traced_move h m)

theorem chained_move (s : System svc) (m : Move ι)
    : svc.Chained s.shared (svc.turn? s m).toList (svc.move s m).shared := by
  cases m with
  | call c => rfl
  | step k =>
    unfold move turn?
    dsimp only [Move.session?, Option.bind_some]
    cases hx : s.sessions[k]? with
    | none => rfl
    | some x =>
      dsimp only [Option.map_some, act]
      split
      . rfl
      . cases hrest : x.rest with
        | done a => rfl
        | call op next => exact ⟨rfl, rfl⟩
  | enter k | leave k | ret k | stop k =>
    unfold move
    dsimp only [Move.session?, Option.bind_some]
    cases hx : s.sessions[k]? with
    | none => rfl
    | some x =>
      dsimp only [Option.map_some, act]
      first
        | rfl
        | split <;> rfl

theorem chained_run (s : System svc) (moves : List (Move ι))
    : svc.Chained s.shared (svc.turns s moves) (svc.run s moves).shared := by
  induction moves generalizing s with
  | nil => rfl
  | cons m moves ih =>
    rw [turns, chained_append]
    exact ⟨_, chained_move s m, ih _⟩

end

end Service
