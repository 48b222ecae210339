import Mathlib.Data.List.Pairwise
import Wovyr.Lib.Client
import Wovyr.Lib.Run
import Wovyr.Lib.Tasks

/-!
This module contains services that many clients use at a time. A call of a client is served in steps
between which those of others can come, and some calls are served under a lock.
-/

structure Service (ι Op : Type) (Res : Op → Type) (σ α : Type) where
  exec : (op : Op) → σ → Res op × σ
  prog : ι → Client Op Res α
  locked : ι → Bool

namespace Service

open List

variable {ι Op : Type} {Res : Op → Type} {σ α : Type}

inductive Phase where
  | waiting
  | inside
  | outside
deriving DecidableEq

structure Session (ι Op : Type) (Res : Op → Type) (σ α : Type) where
  call : ι
  since : Nat
  start : σ
  phase : Phase
  rest : Client Op Res α

structure Served (ι σ α : Type) where
  since : Nat
  call : ι
  start : σ
  answer : α
  finish : σ

inductive Event (ι α : Type) where
  | called (c : ι)
  | returned (since : Nat) (c : ι) (a : α)
deriving DecidableEq

structure Entry (ι σ α : Type) where
  event : Event ι α
  now : σ

structure State (ι Op : Type) (Res : Op → Type) (σ α : Type) where
  shared : σ
  sessions : List (Session ι Op Res σ α) := []
  served : List (Served ι σ α) := []
  history : List (Entry ι σ α) := []

inductive Move (ι : Type) where
  | call (c : ι)
  | enter (k : Nat)
  | step (k : Nat)
  | leave (k : Nat)
  | ret (k : Nat)
  | stop (k : Nat)
deriving DecidableEq

variable (svc : Service ι Op Res σ α)

abbrev System (_ : Service ι Op Res σ α) := State ι Op Res σ α

def opened (c : ι) (since : Nat) (start : σ) : Session ι Op Res σ α where
  call := c
  since := since
  start := start
  phase := if svc.locked c then .waiting else .outside
  rest := svc.prog c

namespace State

variable (s : State ι Op Res σ α)

def log (event : Event ι α) : State ι Op Res σ α :=
  { s with history := s.history ++ [⟨event, s.shared⟩] }

def isFree : Bool :=
  s.sessions.all fun x => x.phase != .inside

def Made (c : ι) : Prop :=
  ∃ now, ⟨.called c, now⟩ ∈ s.history

end State

def call (s : State ι Op Res σ α) (c : ι) : State ι Op Res σ α :=
  { s.log (.called c) with sessions := s.sessions ++ [svc.opened c s.history.length s.shared] }

def act (s : State ι Op Res σ α) (k : Nat) (x : Session ι Op Res σ α) : Move ι → State ι Op Res σ α
  | .enter _ =>
    if x.phase = .waiting ∧ s.isFree then
      { s with sessions := s.sessions.set k { x with phase := .inside, start := s.shared } }
    else
      s
  | .step _ =>
    if x.phase = .waiting then
      s
    else
      let (rest, shared) := x.rest.step svc.exec s.shared
      { s with shared, sessions := s.sessions.set k { x with rest } }
  | .leave _ =>
    match x.phase, x.rest with
    | .inside, .done a =>
      { s with
        sessions := s.sessions.set k { x with phase := .outside }
        served := s.served ++ [⟨x.since, x.call, x.start, a, s.shared⟩] }
    | _, _ => s
  | .ret _ =>
    match x.phase, x.rest with
    | .outside, .done a =>
      { s.log (.returned x.since x.call a) with sessions := s.sessions.eraseIdx k }
    | _, _ => s
  | .stop _ => { s with sessions := s.sessions.eraseIdx k }
  | .call _ => s

def Move.session? : Move ι → Option Nat
  | .call _ => none
  | .enter k | .step k | .leave k | .ret k | .stop k => some k

def move (s : State ι Op Res σ α) (m : Move ι) : State ι Op Res σ α :=
  match m with
  | .call c => svc.call s c
  | m =>
    match m.session?.bind fun k => s.sessions[k]?.map fun x => (k, x) with
    | some (k, x) => svc.act s k x m
    | none => s

def run (s : State ι Op Res σ α) (moves : List (Move ι)) : State ι Op Res σ α :=
  moves.foldl svc.move s

theorem getElem?_append_of_some {β : Type} {xs ys : List β} {i : Nat} {x : β} (h : xs[i]? = some x)
    : (xs ++ ys)[i]? = some x := by
  rw [List.getElem?_append_left (List.getElem?_eq_some_iff.mp h).1]
  exact h

theorem getElem?_snoc {β : Type} {xs : List β} {i : Nat} {x y : β} (h : (xs ++ [y])[i]? = some x)
    : xs[i]? = some x ∨ i = xs.length ∧ x = y := by
  by_cases hi : i < xs.length
  . rw [List.getElem?_append_left hi] at h
    exact Or.inl h
  . rw [getElem?_append_right (by omega)] at h
    obtain ⟨hlt, heq⟩ := List.getElem?_eq_some_iff.mp h
    simp only [length_singleton, getElem_singleton] at hlt heq
    exact Or.inr ⟨by omega, heq.symm⟩

def CalledBefore (history : List (Entry ι σ α)) (j : Nat) (c : ι) : Prop :=
  ∃ i now, i < j ∧ history[i]? = some ⟨.called c, now⟩

section

variable {s t : State ι Op Res σ α}

theorem made_iff : s.Made = CalledBefore s.history s.history.length := by
  funext c
  apply propext
  constructor
  . rintro ⟨now, hmem⟩
    obtain ⟨i, hi⟩ := mem_iff_getElem?.mp hmem
    exact ⟨i, now, (List.getElem?_eq_some_iff.mp hi).1, hi⟩
  . rintro ⟨i, now, -, hi⟩
    exact ⟨now, mem_of_getElem? hi⟩

structure Later (s t : State ι Op Res σ α) : Prop where
  history : ∃ more, t.history = s.history ++ more
  served : ∃ more, t.served = s.served ++ more

theorem Later.of_eq (hhistory : t.history = s.history) (hserved : t.served = s.served) : Later s t := by
  constructor
  . exact ⟨[], by rw [hhistory, append_nil]⟩
  . exact ⟨[], by rw [hserved, append_nil]⟩

theorem Later.called (h : Later s t) {i : Nat} {x : Entry ι σ α} (hx : s.history[i]? = some x)
    : t.history[i]? = some x := by
  obtain ⟨more, hmore⟩ := h.history
  rw [hmore]
  exact getElem?_append_of_some hx

theorem Later.mem_served (h : Later s t) {y : Served ι σ α} (hy : y ∈ s.served) : y ∈ t.served := by
  obtain ⟨more, hmore⟩ := h.served
  rw [hmore]
  exact mem_append_left _ hy

theorem Later.made (h : Later s t) {c : ι} (hc : s.Made c) : t.Made c := by
  obtain ⟨more, hmore⟩ := h.history
  obtain ⟨now, hmem⟩ := hc
  refine ⟨now, ?_⟩
  rw [hmore]
  exact mem_append_left _ hmem

end

/--
What the calls keep: an invariant, which can tell what was called, and an order in which the shared
state only grows. The answer to a call is measured at the state from which it was served and the present one.
-/
structure Discipline (svc : Service ι Op Res σ α) where
  inv : (ι → Prop) → σ → Prop
  le : σ → σ → Prop
  post : σ → ι → α → σ → Prop
  refl : ∀ s, le s s
  trans : ∀ s t u, le s t → le t u → le s u
  inv_mono : ∀ (made made' : ι → Prop) s, (∀ c, made c → made' c) → inv made s → inv made' s
  post_mono : ∀ s₀ c a s t, post s₀ c a s → le s t → post s₀ c a t

namespace Discipline

variable {svc} (K : Discipline svc) {β γ : Type}

def Works (made : ι → Prop) (post : β → σ → Prop) : Client Op Res β → σ → Prop
  | .done a, s => post a s
  | .call op next, s =>
    K.inv made (svc.exec op s).2 ∧ K.le s (svc.exec op s).2
      ∧ Works made post (next (svc.exec op s).1) (svc.exec op s).2

def Looks (post : β → σ → Prop) : Client Op Res β → σ → Prop
  | .done a, s => post a s
  | .call op next, s =>
    ∀ made t, K.inv made t → K.le s t →
      (svc.exec op t).2 = t ∧ Looks post (next (svc.exec op t).1) t

structure Obeyed : Prop where
  locked : ∀ made c s, svc.locked c = true → made c → K.inv made s →
    K.Works made (K.post s c) (svc.prog c) s
  bare : ∀ made c s, svc.locked c = false → K.inv made s → K.Looks (K.post s c) (svc.prog c) s

variable {K}

section

variable {made made' : ι → Prop} {post : β → σ → Prop} {rest : Client Op Res β} {s t : σ}

theorem Works.mono (hmade : ∀ c, made c → made' c) (h : K.Works made post rest s)
    : K.Works made' post rest s := by
  induction rest generalizing s with
  | done a => exact h
  | call op next ih =>
    obtain ⟨hinv, hle, hrest⟩ := h
    exact ⟨K.inv_mono _ _ _ hmade hinv, hle, ih _ hrest⟩

theorem Works.bind {post : γ → σ → Prop} {m : Client Op Res β} {f : β → Client Op Res γ}
    (h : K.Works made (fun b t => K.Works made post (f b) t) m s) : K.Works made post (m >>= f) s := by
  induction m generalizing s with
  | done b => exact h
  | call op next ih =>
    obtain ⟨hinv, hle, hrest⟩ := h
    exact ⟨hinv, hle, ih _ hrest⟩

theorem Works.imp {post post' : β → σ → Prop} {m : Client Op Res β} (hinv : K.inv made s)
    (himp : ∀ b t, K.inv made t → K.le s t → post b t → post' b t) (h : K.Works made post m s)
    : K.Works made post' m s := by
  induction m generalizing s with
  | done b => exact himp b s hinv (K.refl s) h
  | call op next ih =>
    obtain ⟨hinv', hle, hrest⟩ := h
    refine ⟨hinv', hle, ih _ hinv' ?_ hrest⟩
    intro b t ht hst
    exact himp b t ht (K.trans _ _ _ hle hst)

theorem Looks.bind {post : γ → σ → Prop} {m : Client Op Res β} {f : β → Client Op Res γ}
    (h : K.Looks (fun b t => K.Looks post (f b) t) m s) : K.Looks post (m >>= f) s := by
  induction m generalizing s with
  | done b => exact h
  | call op next ih =>
    intro made t hinv hle
    obtain ⟨heq, hrest⟩ := h made t hinv hle
    exact ⟨heq, ih _ hrest⟩

theorem Looks.imp {post post' : β → σ → Prop} {m : Client Op Res β} (himp : ∀ b t, post b t → post' b t)
    (h : K.Looks post m s) : K.Looks post' m s := by
  induction m generalizing s with
  | done b => exact himp b s h
  | call op next ih =>
    intro made t hinv hle
    obtain ⟨heq, hrest⟩ := h made t hinv hle
    exact ⟨heq, ih _ hrest⟩

theorem Looks.mono (hpost : ∀ a t, K.le s t → post a s → post a t) (hle : K.le s t)
    (h : K.Looks post rest s) : K.Looks post rest t := by
  cases rest with
  | done a => exact hpost a t hle h
  | call op next =>
    intro made u hinv hu
    exact h made u hinv (K.trans _ _ _ hle hu)

theorem Works.run (hinv : K.inv made s) (h : K.Works made post rest s)
    : K.inv made (rest.run svc.exec s).2 ∧ K.le s (rest.run svc.exec s).2
      ∧ post (rest.run svc.exec s).1 (rest.run svc.exec s).2 := by
  induction rest generalizing s with
  | done a => exact ⟨hinv, K.refl s, h⟩
  | call op next ih =>
    obtain ⟨hinv', hle, hrest⟩ := h
    obtain ⟨hend, hle', hpost⟩ := ih _ hinv' hrest
    exact ⟨hend, K.trans _ _ _ hle hle', hpost⟩

end

variable (K) in
def Attends (s : System svc) (x : Session ι Op Res σ α) : Prop :=
  match x.phase with
  | .waiting => x.rest = svc.prog x.call ∧ svc.locked x.call = true
  | .inside =>
    svc.locked x.call = true ∧ (∀ y ∈ s.served, K.le y.finish x.start)
      ∧ K.Works s.Made (K.post x.start x.call) x.rest s.shared
  | .outside =>
    K.Looks (K.post x.start x.call) x.rest s.shared
      ∧ (svc.locked x.call = true → ∃ y ∈ s.served, y.since = x.since ∧ y.call = x.call
          ∧ x.rest = .done y.answer)

variable (K) in
structure Attended (s : System svc) (x : Session ι Op Res σ α) : Prop where
  called : ∃ s₀, s.history[x.since]? = some ⟨.called x.call, s₀⟩ ∧ K.le s₀ x.start
  reached : K.le x.start s.shared
  attends : K.Attends s x

variable (K) in
structure Answered (s : System svc) (i : Nat) (c : ι) (a : α) (now : σ) : Prop where
  called : ∃ s₀ start, s.history[i]? = some ⟨.called c, s₀⟩ ∧ K.le s₀ start ∧ K.post start c a now
  served : svc.locked c = true → ∃ y ∈ s.served, y.since = i ∧ y.call = c ∧ y.answer = a

variable (K) in
structure Chronicle (s : System svc) : Prop where
  invs : ∀ (j : Nat) (x : Entry ι σ α), s.history[j]? = some x → K.inv (CalledBefore s.history j) x.now
  ordered : (s.history.map Entry.now).Pairwise K.le
  answered : ∀ (j i : Nat) c a now, s.history[j]? = some ⟨.returned i c a, now⟩ →
    i < j ∧ K.Answered s i c a now

variable (K) in
structure Ordered (s : System svc) : Prop where
  serially : s.served.Pairwise fun x y => K.le x.finish y.start
  served : ∀ x ∈ s.served, K.post x.start x.call x.answer x.finish
    ∧ (∃ s₀, s.history[x.since]? = some ⟨.called x.call, s₀⟩ ∧ K.le s₀ x.start)
    ∧ K.le x.start x.finish ∧ K.le x.finish s.shared

variable (K) in
structure Kept (s : System svc) : Prop where
  inv : K.inv s.Made s.shared
  alone : s.sessions.countP (·.phase == .inside) ≤ 1
  attended : ∀ x ∈ s.sessions, K.Attended s x
  chronicle : K.Chronicle s
  reached : ∀ x ∈ s.history, K.le x.now s.shared
  ordered : K.Ordered s

section

variable {s t : System svc} {x : Session ι Op Res σ α}

theorem Attended.mono (h : K.Attended s x) (hlater : Later s t) (hle : K.le s.shared t.shared)
    (hinside : x.phase = .inside → t.shared = s.shared ∧ t.served = s.served) : K.Attended t x := by
  obtain ⟨⟨s₀, hcall, hle₀⟩, hreached, hattends⟩ := h
  refine ⟨⟨s₀, hlater.called hcall, hle₀⟩, K.trans _ _ _ hreached hle, ?_⟩
  unfold Attends at hattends ⊢
  cases hphase : x.phase with
  | waiting =>
    rw [hphase] at hattends
    exact hattends
  | inside =>
    rw [hphase] at hattends
    obtain ⟨hshared, hserved⟩ := hinside hphase
    obtain ⟨hlocked, hstart, hworks⟩ := hattends
    rw [hshared, hserved]
    exact ⟨hlocked, hstart, Works.mono (fun _ => hlater.made) hworks⟩
  | outside =>
    rw [hphase] at hattends
    obtain ⟨hlooks, hanswer⟩ := hattends
    refine ⟨Looks.mono (fun a u hu hpost => K.post_mono _ _ _ _ _ hpost hu) hle hlooks, ?_⟩
    intro hlocked
    obtain ⟨y, hy, hyx⟩ := hanswer hlocked
    exact ⟨y, hlater.mem_served hy, hyx⟩

theorem Answered.mono (hlater : Later s t) {i : Nat} {c : ι} {a : α} {now : σ} (h : K.Answered s i c a now)
    : K.Answered t i c a now := by
  obtain ⟨⟨s₀, start, hcall, hle, hpost⟩, hserved⟩ := h
  refine ⟨⟨s₀, start, hlater.called hcall, hle, hpost⟩, ?_⟩
  intro hlocked
  obtain ⟨y, hy, hyc⟩ := hserved hlocked
  exact ⟨y, hlater.mem_served hy, hyc⟩

theorem Ordered.mono (h : K.Ordered s) (hlater : Later s t) (hserved : t.served = s.served)
    (hle : K.le s.shared t.shared) : K.Ordered t := by
  constructor
  . rw [hserved]
    exact h.serially
  . intro x hx
    rw [hserved] at hx
    obtain ⟨hpost, ⟨s₀, hcall, hle₀⟩, hstart, hfinish⟩ := h.served x hx
    exact ⟨hpost, ⟨s₀, hlater.called hcall, hle₀⟩, hstart, K.trans _ _ _ hfinish hle⟩

theorem Chronicle.mono (h : K.Chronicle s) (hlater : Later s t) (hhistory : t.history = s.history)
    : K.Chronicle t := by
  constructor
  . rw [hhistory]
    exact h.invs
  . rw [hhistory]
    exact h.ordered
  . intro j i c a now hentry
    rw [hhistory] at hentry
    obtain ⟨hlt, hans⟩ := h.answered j i c a now hentry
    exact ⟨hlt, hans.mono hlater⟩

end

theorem calledBefore_append {history more : List (Entry ι σ α)} {j : Nat} {c : ι}
    (h : CalledBefore history j c) : CalledBefore (history ++ more) j c := by
  obtain ⟨i, now, hi, hentry⟩ := h
  exact ⟨i, now, hi, getElem?_append_of_some hentry⟩

theorem kept_log {s : System svc} (h : K.Kept s) {event : Event ι α}
    (hanswered : ∀ i c a, event = .returned i c a → K.Answered s i c a s.shared)
    : K.Kept (s.log event) := by
  have hlater : Later s (s.log event) := ⟨⟨_, rfl⟩, ⟨[], (append_nil _).symm⟩⟩
  constructor
  . exact K.inv_mono _ _ _ (fun _ => hlater.made) h.inv
  . exact h.alone
  . intro x hx
    exact (h.attended x hx).mono hlater (K.refl _) fun _ => ⟨rfl, rfl⟩
  . constructor
    . intro j y hy
      rcases getElem?_snoc hy with hold | ⟨rfl, rfl⟩
      . exact K.inv_mono _ _ _ (fun _ => calledBefore_append) (h.chronicle.invs j y hold)
      . apply K.inv_mono _ _ _ (fun _ => calledBefore_append)
        rw [← made_iff]
        exact h.inv
    . show (map Entry.now (s.history ++ [_])).Pairwise K.le
      rw [map_append, pairwise_append]
      refine ⟨h.chronicle.ordered, pairwise_singleton _ _, ?_⟩
      intro now hnow now' hnow'
      obtain ⟨y, hy, rfl⟩ := mem_map.mp hnow
      rw [mem_singleton.mp hnow']
      exact h.reached y hy
    . intro j i c a now hentry
      rcases getElem?_snoc hentry with hold | ⟨rfl, heq⟩
      . obtain ⟨hlt, hans⟩ := h.chronicle.answered j i c a now hold
        exact ⟨hlt, hans.mono hlater⟩
      . cases heq
        have hans := hanswered i c a rfl
        obtain ⟨s₀, start, hcall, -, -⟩ := hans.called
        exact ⟨(List.getElem?_eq_some_iff.mp hcall).1, hans.mono hlater⟩
  . apply forall_mem_snoc h.reached
    exact K.refl _
  . exact h.ordered.mono hlater rfl (K.refl _)

theorem kept_set {s t : System svc} (h : K.Kept s) {k : Nat} {x y : Session ι Op Res σ α}
    (hx : s.sessions[k]? = some x) (hlater : Later s t) (hhistory : t.history = s.history)
    (hsessions : t.sessions = s.sessions.set k y) (hinv : K.inv t.Made t.shared)
    (hle : K.le s.shared t.shared) (hfree : x.phase ≠ .inside → t.shared = s.shared ∧ t.served = s.served)
    (halone : y.phase = .inside → x.phase = .inside ∨ s.isFree = true) (hy : K.Attended t y)
    (hordered : K.Ordered t) : K.Kept t := by
  obtain ⟨as, bs, hxs, hset, -⟩ := Tasks.split hx
  have hcount := h.alone
  rw [hxs, countP_append, countP_cons] at hcount
  constructor
  . exact hinv
  . rw [hsessions, hset, countP_append, countP_cons]
    by_cases hinside : y.phase = .inside
    . rcases halone hinside with hold | hfree
      . simp only [hold, hinside] at hcount ⊢
        exact hcount
      . have hnone : s.sessions.countP (·.phase == .inside) = 0 := by
          rw [countP_eq_zero]
          intro z hz
          simpa using all_eq_true.mp hfree z hz
        rw [hxs, countP_append, countP_cons] at hnone
        split <;> omega
    . simp only [hinside, beq_iff_eq, if_false]
      omega
  . intro z hz
    rw [hsessions, hset] at hz
    have hother (hz : z ∈ as ++ bs) : K.Attended t z := by
      have hold : z ∈ s.sessions := by
        rw [hxs]
        exact mem_append.mpr ((mem_append.mp hz).imp_right (mem_cons_of_mem _))
      apply (h.attended z hold).mono hlater hle
      intro hzin
      apply hfree
      intro hxin
      have hpos : 0 < (as ++ bs).countP (·.phase == .inside) :=
        countP_pos_iff.mpr ⟨z, hz, by simp [hzin]⟩
      rw [countP_append] at hpos
      simp only [hxin, beq_self_eq_true, if_true] at hcount
      omega
    rcases mem_append.mp hz with has | hbs
    . exact hother (mem_append_left _ has)
    . rcases mem_cons.mp hbs with rfl | hbs
      . exact hy
      . exact hother (mem_append_right _ hbs)
  . exact h.chronicle.mono hlater hhistory
  . intro z hz
    rw [hhistory] at hz
    exact K.trans _ _ _ (h.reached z hz) hle
  . exact hordered

theorem kept_erase {s : System svc} (h : K.Kept s) (k : Nat)
    : K.Kept { s with sessions := s.sessions.eraseIdx k } := by
  have hlater : Later s { s with sessions := s.sessions.eraseIdx k } := .of_eq rfl rfl
  constructor
  . exact h.inv
  . exact Nat.le_trans (eraseIdx_sublist _ _).countP_le h.alone
  . intro x hx
    exact (h.attended x (mem_of_mem_eraseIdx hx)).mono hlater (K.refl _) fun _ => ⟨rfl, rfl⟩
  . exact h.chronicle.mono hlater rfl
  . exact h.reached
  . exact h.ordered.mono hlater rfl (K.refl _)

theorem kept_call (hK : K.Obeyed) {s : System svc} (h : K.Kept s) (c : ι) : K.Kept (svc.call s c) := by
  have hlog : K.Kept (s.log (.called c)) := kept_log h (by simp)
  have hlater : Later (s.log (.called c)) (svc.call s c) := .of_eq rfl rfl
  constructor
  . exact hlog.inv
  . show (s.sessions ++ [svc.opened c _ _]).countP _ ≤ 1
    have hopened : (svc.opened c s.history.length s.shared).phase ≠ .inside := by
      unfold opened
      split <;> simp
    rw [countP_append, countP_singleton]
    simpa [hopened] using h.alone
  . have hold : ∀ x ∈ s.sessions, K.Attended (svc.call s c) x := by
      intro x hx
      exact (hlog.attended x hx).mono hlater (K.refl _) fun _ => ⟨rfl, rfl⟩
    apply forall_mem_snoc hold
    refine ⟨⟨s.shared, ?_, K.refl _⟩, K.refl _, ?_⟩
    . simp [opened, call, State.log]
    . unfold Attends opened
      cases hlocked : svc.locked c with
      | true => exact ⟨rfl, rfl⟩
      | false =>
        refine ⟨hK.bare _ c _ hlocked hlog.inv, ?_⟩
        simp
  . exact hlog.chronicle.mono hlater rfl
  . exact hlog.reached
  . exact hlog.ordered.mono hlater rfl (K.refl _)

theorem kept_act (hK : K.Obeyed) {s : System svc} (h : K.Kept s) {k : Nat} {x : Session ι Op Res σ α}
    (hx : s.sessions[k]? = some x) (m : Move ι) : K.Kept (svc.act s k x m) := by
  obtain ⟨⟨s₀, hcall, hle₀⟩, hreached, hattends⟩ := h.attended x (Tasks.mem hx)
  have hmade : s.Made x.call := ⟨s₀, mem_of_getElem? hcall⟩
  unfold Attends at hattends
  cases m with
  | call c => exact h
  | enter _ =>
    dsimp only [act]
    split
    . next hturn =>
      obtain ⟨hphase, hfree⟩ := hturn
      rw [hphase] at hattends
      obtain ⟨hrest, hlocked⟩ := hattends
      have hlater : Later s
          { s with sessions := s.sessions.set k { x with phase := .inside, start := s.shared } } :=
        .of_eq rfl rfl
      apply kept_set h hx hlater rfl rfl h.inv (K.refl _) (fun _ => ⟨rfl, rfl⟩) (fun _ => Or.inr hfree)
      . refine ⟨⟨s₀, hcall, K.trans _ _ _ hle₀ hreached⟩, K.refl _, ?_⟩
        refine ⟨hlocked, fun y hy => (h.ordered.served y hy).2.2.2, ?_⟩
        dsimp only
        rw [hrest]
        exact hK.locked _ _ _ hlocked hmade h.inv
      . exact h.ordered.mono hlater rfl (K.refl _)
    . exact h
  | step _ =>
    dsimp only [act]
    split
    . exact h
    . next hturn =>
      have hlater (shared : σ) (rest : Client Op Res α)
          : Later s { s with shared, sessions := s.sessions.set k { x with rest } } :=
        .of_eq rfl rfl
      rcases hrest : x.rest with a | ⟨op, next⟩
      . apply kept_set h hx (hlater s.shared (.done a)) rfl rfl h.inv (K.refl _) (fun _ => ⟨rfl, rfl⟩) Or.inl
        . refine ⟨⟨s₀, hcall, hle₀⟩, hreached, ?_⟩
          unfold Attends
          rw [hrest] at hattends
          exact hattends
        . exact h.ordered.mono (hlater _ _) rfl (K.refl _)
      . rw [hrest] at hattends
        obtain hphase | hphase : x.phase = .inside ∨ x.phase = .outside := by
          cases hphase : x.phase with
          | waiting => exact absurd hphase hturn
          | inside => exact Or.inl rfl
          | outside => exact Or.inr rfl
        . rw [hphase] at hattends
          obtain ⟨hlocked, hserial, hinv, hle, hworks⟩ := hattends
          apply kept_set h hx (hlater (svc.exec op s.shared).2 (next (svc.exec op s.shared).1)) rfl rfl hinv hle
            (absurd hphase) fun _ => Or.inl hphase
          . refine ⟨⟨s₀, hcall, hle₀⟩, K.trans _ _ _ hreached hle, ?_⟩
            unfold Attends
            dsimp only
            rw [hphase]
            exact ⟨hlocked, hserial, hworks⟩
          . exact h.ordered.mono (hlater _ _) rfl hle
        . rw [hphase] at hattends
          obtain ⟨hattends, hanswer⟩ := hattends
          obtain ⟨heq, hlooks⟩ := hattends _ _ h.inv (K.refl _)
          rw [Client.step_call, heq]
          apply kept_set h hx (hlater s.shared (next (svc.exec op s.shared).1)) rfl rfl h.inv (K.refl _)
            (fun _ => ⟨rfl, rfl⟩) fun hinside => Or.inl hinside
          . refine ⟨⟨s₀, hcall, hle₀⟩, hreached, ?_⟩
            unfold Attends
            dsimp only
            rw [hphase]
            refine ⟨hlooks, ?_⟩
            intro hlocked
            obtain ⟨y, -, -, -, hdone⟩ := hanswer hlocked
            cases hdone
          . exact h.ordered.mono (hlater _ _) rfl (K.refl _)
  | leave _ =>
    dsimp only [act]
    split
    . next a hphase hrest =>
      rw [hphase, hrest] at hattends
      obtain ⟨hlocked, hserial, hpost⟩ := hattends
      have hlater : Later s
          { s with
            sessions := s.sessions.set k { x with phase := .outside }
            served := s.served ++ [⟨x.since, x.call, x.start, a, s.shared⟩] } :=
        ⟨⟨[], (append_nil _).symm⟩, ⟨_, rfl⟩⟩
      apply kept_set h hx hlater rfl rfl h.inv (K.refl _) (absurd hphase) (by simp)
      . refine ⟨⟨s₀, hcall, hle₀⟩, hreached, ?_⟩
        unfold Attends
        dsimp only
        rw [hrest]
        refine ⟨hpost, ?_⟩
        intro _
        exact ⟨_, mem_append_right _ (mem_singleton_self _), rfl, rfl, rfl⟩
      . constructor
        . dsimp only
          rw [pairwise_append]
          refine ⟨h.ordered.serially, pairwise_singleton _ _, ?_⟩
          intro y hy z hz
          rw [mem_singleton.mp hz]
          exact hserial y hy
        . exact forall_mem_snoc h.ordered.served ⟨hpost, ⟨s₀, hcall, hle₀⟩, hreached, K.refl _⟩
    . exact h
  | ret _ =>
    dsimp only [act]
    split
    . next a hphase hrest =>
      rw [hphase, hrest] at hattends
      obtain ⟨hpost, hanswer⟩ := hattends
      have hlog : K.Kept (s.log (.returned x.since x.call a)) := by
        apply kept_log h
        rintro i c b ⟨⟩
        refine ⟨⟨s₀, x.start, hcall, hle₀, hpost⟩, ?_⟩
        intro hlocked
        obtain ⟨y, hy, hsince, hyc, hya⟩ := hanswer hlocked
        cases hya
        exact ⟨y, hy, hsince, hyc, rfl⟩
      exact kept_erase hlog k
    . exact h
  | stop _ => exact kept_erase h k

theorem kept_move (hK : K.Obeyed) {s : System svc} (h : K.Kept s) (m : Move ι) : K.Kept (svc.move s m) := by
  unfold move
  split
  . exact kept_call hK h _
  . split
    . next k x hk =>
      obtain ⟨k', -, hx⟩ := Option.bind_eq_some_iff.mp hk
      obtain ⟨x', hx', heq⟩ := Option.map_eq_some_iff.mp hx
      cases heq
      exact kept_act hK h hx' m
    . exact h

theorem kept_run (hK : K.Obeyed) {s₀ : σ} (hinv : K.inv (fun _ => False) s₀) (moves : List (Move ι))
    : K.Kept (svc.run { shared := s₀ } moves) := by
  have hstart : K.Kept ({ shared := s₀ } : System svc) := by
    constructor
    . exact K.inv_mono _ _ _ (fun _ => False.elim) hinv
    . exact Nat.zero_le _
    . simp
    . constructor
      . simp
      . exact List.Pairwise.nil
      . simp
    . simp
    . constructor
      . exact List.Pairwise.nil
      . simp
  suffices hrun : ∀ s : System svc, K.Kept s → K.Kept (svc.run s moves) from hrun _ hstart
  intro s hs
  induction moves generalizing s with
  | nil => exact hs
  | cons m moves ih => exact ih _ (kept_move hK hs m)

section

variable {s : System svc}

theorem Kept.le_of_le (h : K.Kept s) {j m : Nat} {x y : Entry ι σ α} (hx : s.history[j]? = some x)
    (hy : s.history[m]? = some y) (hjm : j ≤ m) : K.le x.now y.now := by
  obtain hlt | rfl := Nat.lt_or_eq_of_le hjm
  . have hordered := pairwise_iff_getElem.mp h.chronicle.ordered
    obtain ⟨hj, rfl⟩ := List.getElem?_eq_some_iff.mp hx
    obtain ⟨hm, rfl⟩ := List.getElem?_eq_some_iff.mp hy
    have hle := hordered j m (by simpa using hj) (by simpa using hm) hlt
    rw [getElem_map, getElem_map] at hle
    exact hle
  . rw [hx] at hy
    cases hy
    exact K.refl _

theorem Kept.served_apart (h : K.Kept s) {x y : Served ι σ α} (hx : x ∈ s.served) (hy : y ∈ s.served)
    (hne : x.since ≠ y.since) : K.le x.finish y.start ∨ K.le y.finish x.start := by
  have hordered : s.served.Pairwise fun x y => K.le x.finish y.start ∨ K.le y.finish x.start :=
    h.ordered.serially.imp Or.inl
  have : Std.Symm fun x y : Served ι σ α => K.le x.finish y.start ∨ K.le y.finish x.start :=
    ⟨fun _ _ => Or.symm⟩
  apply hordered.forall hx hy
  intro heq
  exact hne (by rw [heq])

end

end Service.Discipline
