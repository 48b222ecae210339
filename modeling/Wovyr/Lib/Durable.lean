import Wovyr.Lib.Prog

/-!
This module contains programs that pay for their writes: a program stops instead of the write that
is one too many. What was written outlasts the program, everything else that is worth watching is
logged.
-/

/--
How a state divides into what is stored, what is logged and the number of writes that are left.
-/
structure Durable (σ τ κ : Type) where
  store : σ → τ
  log : σ → List κ
  left : σ → Nat
  refill : σ → Nat → σ
  left_refill : ∀ s n, left (refill s n) = n
  refill_refill : ∀ s m n, refill (refill s m) n = refill s n
  refill_left : ∀ s, refill s (left s) = s
  store_refill : ∀ s n, store (refill s n) = store s
  log_refill : ∀ s n, log (refill s n) = log s

namespace Durable

variable {σ τ κ ε α β : Type} (D : Durable σ τ κ)

def pay (f : σ → σ) : Prog σ ε Unit :=
  fun s => if D.left s = 0 then (.halted, s) else (.ok (), f (D.refill s (D.left s - 1)))

def stop (m : Prog σ ε α) (s : σ) (n : Nat) : σ :=
  (m (D.refill s n)).2

def before (m : Prog σ ε α) (s : σ) : Nat → σ
  | 0 => s
  | n + 1 => D.stop m s n

def recent (m : Prog σ ε α) (s : σ) (n : Nat) : List κ :=
  (D.log (D.stop m s n)).drop (D.log (D.before m s n)).length

structure Aside (f : σ → σ) : Prop where
  refill : ∀ s n, f (D.refill s n) = D.refill (f s) n
  store : ∀ s, D.store (f s) = D.store s

structure Writes (f : σ → σ) : Prop where
  refill : ∀ s n, f (D.refill s n) = D.refill (f s) n
  log : ∀ s, D.log (f s) = D.log s

-- What a program logs, one entry after the other, with what it comes to.
def Logs (m : Prog σ ε α) (Q : Outcome ε α → List κ → Prop) : Prop :=
  ∀ s, ∃ new, D.log (m s).2 = D.log s ++ new ∧ Q (m s).1 new

section

variable {D : Durable σ τ κ} {Q Q' : Outcome ε α → List κ → Prop} {R : Outcome ε β → List κ → Prop}

theorem Logs.silent {m : Prog σ ε α} (h : ∀ s, D.log (m s).2 = D.log s ∧ Q (m s).1 []) : D.Logs m Q :=
  fun s => ⟨[], by rw [(h s).1, List.append_nil], (h s).2⟩

theorem Logs.pure (a : α) (h : Q (.ok a) []) : D.Logs (pure a : Prog σ ε α) Q :=
  .silent fun _ => ⟨rfl, h⟩

theorem Logs.fail (err : ε) (h : Q (.err err) []) : D.Logs (Prog.fail err : Prog σ ε α) Q :=
  .silent fun _ => ⟨rfl, h⟩

theorem Logs.halt (h : Q .halted []) : D.Logs (Prog.halt : Prog σ ε α) Q :=
  .silent fun _ => ⟨rfl, h⟩

theorem Logs.ofOption (o : Option α) (hsome : ∀ a, o = some a → Q (.ok a) []) (hnone : Q .halted [])
    : D.Logs (Prog.ofOption o : Prog σ ε α) Q := by
  cases o with
  | none => exact .halt hnone
  | some a => exact .pure a (hsome a rfl)

theorem Logs.pay {f : σ → σ} (hf : D.Writes f) {Q : Outcome ε Unit → List κ → Prop} (hok : Q (.ok ()) [])
    (hhalted : Q .halted []) : D.Logs (D.pay f : Prog σ ε Unit) Q := by
  apply Logs.silent
  intro s
  unfold Durable.pay
  split
  . exact ⟨rfl, hhalted⟩
  . exact ⟨by rw [hf.log, D.log_refill], hok⟩

theorem Logs.post {m : Prog σ ε α} (h : D.Logs m Q) (hQ : ∀ o new, Q o new → Q' o new) : D.Logs m Q' := by
  intro s
  obtain ⟨new, hlog, hm⟩ := h s
  exact ⟨new, hlog, hQ _ _ hm⟩

theorem Logs.seq {m : Prog σ ε α} {f : α → Prog σ ε β} {P : α → Outcome ε β → List κ → Prop}
    (hm : D.Logs m Q) (hf : ∀ a new, Q (.ok a) new → D.Logs (f a) (P a))
    (hok : ∀ a new o new', Q (.ok a) new → P a o new' → R o (new ++ new'))
    (herr : ∀ err new, Q (.err err) new → R (.err err) new)
    (hhalted : ∀ new, Q .halted new → R .halted new) : D.Logs (m >>= f) R := by
  intro s
  obtain ⟨new, hlog, hQ⟩ := hm s
  rw [Prog.bind_apply]
  generalize m s = x at hlog hQ
  obtain ⟨o, t⟩ := x
  cases o with
  | ok a =>
    obtain ⟨new', hlog', hP⟩ := hf a new hQ t
    exact ⟨new ++ new', by rw [hlog', hlog, List.append_assoc], hok a new _ new' hQ hP⟩
  | err err => exact ⟨new, hlog, herr err new hQ⟩
  | halted => exact ⟨new, hlog, hhalted new hQ⟩

theorem Logs.bind {m : Prog σ ε α} {f : α → Prog σ ε β} {P : α → Outcome ε β → List κ → Prop}
    (hm : D.Logs m Q) (hf : ∀ a, D.Logs (f a) (P a))
    (hok : ∀ a new o new', Q (.ok a) new → P a o new' → R o (new ++ new'))
    (herr : ∀ err new, Q (.err err) new → R (.err err) new)
    (hhalted : ∀ new, Q .halted new → R .halted new) : D.Logs (m >>= f) R :=
  .seq hm (fun a _ _ => hf a) hok herr hhalted

theorem Logs.after {m : Prog σ ε α} {f : α → Prog σ ε β} {p : α → Prop}
    (hm : D.Logs m fun o new => new = [] ∧ ∀ a, o = .ok a → p a) (hf : ∀ a, p a → D.Logs (f a) R)
    (herr : ∀ err, R (.err err) []) (hhalted : R .halted []) : D.Logs (m >>= f) R := by
  apply Logs.seq hm (fun a _ h => hf a (h.2 a rfl))
  . rintro a new o new' ⟨rfl, -⟩ h
    exact h
  . rintro err new ⟨rfl, -⟩
    exact herr err
  . rintro new ⟨rfl, -⟩
    exact hhalted

def Quiet (D : Durable σ τ κ) (m : Prog σ ε α) (p : α → Prop) : Prop :=
  D.Logs m fun o new => new = [] ∧ ∀ a, o = .ok a → p a

variable {p : α → Prop} {q : β → Prop}

theorem Quiet.pure (a : α) (h : p a) : D.Quiet (pure a : Prog σ ε α) p := by
  apply Logs.pure
  refine ⟨rfl, ?_⟩
  intro a' ha
  cases ha
  exact h

theorem Quiet.bind {m : Prog σ ε α} {f : α → Prog σ ε β} (hm : D.Quiet m p)
    (hf : ∀ a, p a → D.Quiet (f a) q) : D.Quiet (m >>= f) q :=
  Logs.after hm hf (fun _ => ⟨rfl, nofun⟩) ⟨rfl, nofun⟩

theorem Quiet.ofOption (o : Option α) (h : ∀ a, o = some a → p a)
    : D.Quiet (Prog.ofOption o : Prog σ ε α) p := by
  apply Logs.ofOption
  . intro a ha
    refine ⟨rfl, ?_⟩
    intro a' ha'
    cases ha'
    exact h a ha
  . exact ⟨rfl, nofun⟩

theorem Quiet.logs {m : Prog σ ε α} (h : D.Quiet m p) {R : α → List κ → Prop} (hR : ∀ a, p a → R a [])
    : D.Logs m fun o new => ∀ a, o = .ok a → R a new := by
  apply Logs.post h
  rintro o new ⟨rfl, hp⟩ a ha
  exact hR a (hp a ha)

theorem Quiet.of_ok {m : Prog σ ε α} (h : D.Quiet m p) {s t : σ} {a : α} (hm : m s = (.ok a, t))
    : D.log t = D.log s ∧ p a := by
  obtain ⟨new, hlog, rfl, hp⟩ := h s
  rw [hm] at hlog hp
  exact ⟨hlog.trans (List.append_nil _), hp a rfl⟩

theorem Quiet.first {m : Prog σ ε α} {f : α → Prog σ ε β} (hm : D.Quiet m p)
    {R : β → List κ → Prop} (hf : ∀ a, p a → D.Logs (f a) fun o new => ∀ b, o = .ok b → R b new)
    : D.Logs (m >>= f) fun o new => ∀ b, o = .ok b → R b new :=
  Logs.after hm hf (fun _ => nofun) nofun

end

end Durable

/--
What is watched of a program: an invariant of the store, what may be logged over a store, how a write
can change the store and which errors the program may end with.
-/
structure Watch (σ τ κ ε : Type) extends Durable σ τ κ where
  inv : τ → Prop
  may : τ → κ → Prop
  grows : τ → τ → Prop
  fault : ε → Prop

namespace Watch

variable {σ τ κ ε α β : Type} (W : Watch σ τ κ ε)

def Calm (s t : σ) : Prop :=
  W.store t = W.store s ∧ ∃ new, W.log t = W.log s ++ new ∧ ∀ x ∈ new, W.may (W.store s) x

def Next (x y : Outcome ε α × σ) : Prop :=
  y = (x.1, W.refill x.2 (W.left x.2 + 1))
    ∨ (x.1 = .halted ∧ W.left x.2 = 0 ∧ W.left y.2 = 0
      ∧ ∃ u, W.log u = W.log x.2 ∧ W.grows (W.store x.2) (W.store u) ∧ W.Calm u y.2)

structure Ends (Q : α → τ → Prop) (s : σ) (n : Nat) (x : Outcome ε α × σ) : Prop where
  inv : W.inv (W.store x.2)
  ok : ∀ a, x.1 = .ok a → Q a (W.store x.2)
  err : ∀ err, x.1 = .err err → W.fault err
  left : W.left x.2 ≤ n
  calm : n = 0 → W.Calm s x.2

def Keeps (P : τ → Prop) (m : Prog σ ε α) (Q : α → τ → Prop) : Prop :=
  ∀ s, W.inv (W.store s) → P (W.store s) → ∀ n,
    W.Ends Q s n (m (W.refill s n)) ∧ W.Next (m (W.refill s n)) (m (W.refill s (n + 1)))

variable {W} {P P' : τ → Prop} {Q Q' : α → τ → Prop} {R : β → τ → Prop}

theorem Calm.refl (s : σ) : W.Calm s s :=
  ⟨rfl, [], by simp, by simp⟩

theorem Calm.trans {s t u : σ} (hst : W.Calm s t) (htu : W.Calm t u) : W.Calm s u := by
  obtain ⟨hstore, new, hlog, hnew⟩ := hst
  obtain ⟨hstore', new', hlog', hnew'⟩ := htu
  refine ⟨hstore'.trans hstore, new ++ new', ?_, ?_⟩
  . rw [hlog', hlog, List.append_assoc]
  . intro x hx
    cases List.mem_append.mp hx with
    | inl hx => exact hnew x hx
    | inr hx =>
      rw [← hstore]
      exact hnew' x hx

theorem Calm.refill {s : σ} (n : Nat) : W.Calm s (W.refill s n) :=
  ⟨W.store_refill s n, [], by simp [W.log_refill], by simp⟩

theorem Keeps.still {m : Prog σ ε α} {o : σ → Outcome ε α} {f : σ → σ} (hf : W.Aside f)
    (hlog : ∀ s, W.log (f s) = W.log s) (ho : ∀ s n, o (W.refill s n) = o s)
    (hm : ∀ s, m s = (o s, f s))
    (hok : ∀ s a, W.inv (W.store s) → P (W.store s) → o s = .ok a → Q a (W.store s))
    (herr : ∀ s err, W.inv (W.store s) → P (W.store s) → o s = .err err → W.fault err)
    : W.Keeps P m Q := by
  intro s hinv hs n
  have hrun (n : Nat) : m (W.refill s n) = (o s, W.refill (f s) n) := by
    rw [hm, ho, hf.refill]
  have hstore : W.store (W.refill (f s) n) = W.store s := by
    rw [W.store_refill, hf.store]
  rw [hrun n, hrun (n + 1)]
  refine ⟨⟨?_, ?_, ?_, ?_, ?_⟩, .inl ?_⟩
  . rw [hstore]
    exact hinv
  . intro a ha
    rw [hstore]
    exact hok s a hinv hs ha
  . exact fun err => herr s err hinv hs
  . simp only [W.left_refill]
    omega
  . intro _
    refine ⟨hstore, [], ?_, by simp⟩
    rw [W.log_refill, hlog, List.append_nil]
  . simp only [W.left_refill, W.refill_refill]

theorem aside_id : W.Aside (fun s => s) :=
  ⟨fun _ _ => rfl, fun _ => rfl⟩

theorem Keeps.pure (a : α) (h : ∀ t, W.inv t → P t → Q a t)
    : W.Keeps P (pure a : Prog σ ε α) Q := by
  refine Keeps.still (o := fun _ => .ok a) aside_id (fun _ => rfl) (fun _ _ => rfl) (fun _ => rfl) ?_ nofun
  intro s a' hinv hs ha
  cases ha
  exact h _ hinv hs

theorem Keeps.fail (err : ε) (h : ∀ t, W.inv t → P t → W.fault err)
    : W.Keeps P (Prog.fail err : Prog σ ε α) Q := by
  refine Keeps.still (o := fun _ => .err err) aside_id (fun _ => rfl) (fun _ _ => rfl) (fun _ => rfl) nofun ?_
  intro s err' hinv hs herr
  cases herr
  exact h _ hinv hs

theorem Keeps.halt : W.Keeps P (Prog.halt : Prog σ ε α) Q :=
  Keeps.still (o := fun _ => .halted) aside_id (fun _ => rfl) (fun _ _ => rfl) (fun _ => rfl) nofun nofun

theorem Keeps.gets (f : σ → α) (hf : ∀ s n, f (W.refill s n) = f s)
    (h : ∀ s, W.inv (W.store s) → P (W.store s) → Q (f s) (W.store s))
    : W.Keeps P (Prog.gets f : Prog σ ε α) Q := by
  refine Keeps.still (o := fun s => .ok (f s)) aside_id (fun _ => rfl) ?_ (fun _ => rfl) ?_ nofun
  . intro s n
    rw [hf]
  . intro s a hinv hs ha
    cases ha
    exact h s hinv hs

theorem Keeps.aside {f : σ → σ} (hf : W.Aside f) (hlog : ∀ s, W.log (f s) = W.log s)
    {Q : Unit → τ → Prop} (h : ∀ t, W.inv t → P t → Q () t)
    : W.Keeps P (Prog.modify f : Prog σ ε Unit) Q := by
  refine Keeps.still (o := fun _ => .ok ()) hf hlog (fun _ _ => rfl) (fun _ => rfl) ?_ nofun
  exact fun s a hinv hs _ => h _ hinv hs

theorem Keeps.logs {f : σ → σ} (x : σ → κ) (hf : W.Aside f) (hlog : ∀ s, W.log (f s) = W.log s ++ [x s])
    {Q : Unit → τ → Prop} (h : ∀ s, W.inv (W.store s) → P (W.store s) → W.may (W.store s) (x s))
    (hQ : ∀ t, W.inv t → P t → Q () t)
    : W.Keeps P (Prog.modify f : Prog σ ε Unit) Q := by
  intro s hinv hs n
  have hrun (n : Nat) : (Prog.modify f : Prog σ ε Unit) (W.refill s n) = (.ok (), W.refill (f s) n) := by
    unfold Prog.modify
    rw [hf.refill]
  have hstore : W.store (W.refill (f s) n) = W.store s := by
    rw [W.store_refill, hf.store]
  rw [hrun n, hrun (n + 1)]
  refine ⟨⟨?_, ?_, nofun, ?_, ?_⟩, .inl ?_⟩
  . rw [hstore]
    exact hinv
  . intro _ _
    rw [hstore]
    exact hQ _ hinv hs
  . simp only [W.left_refill]
    omega
  . intro _
    refine ⟨hstore, [x s], ?_, ?_⟩
    . rw [W.log_refill, hlog]
    . intro y hy
      rw [List.mem_singleton.mp hy]
      exact h s hinv hs
  . simp only [W.left_refill, W.refill_refill]

theorem Keeps.pay {f : σ → σ} (hf : W.Writes f) {Q : Unit → τ → Prop}
    (h : ∀ s, W.inv (W.store s) → P (W.store s) →
      W.inv (W.store (f s)) ∧ W.grows (W.store s) (W.store (f s)) ∧ Q () (W.store (f s)))
    : W.Keeps P (W.toDurable.pay f : Prog σ ε Unit) Q := by
  intro s hinv hs n
  have hzero : (W.toDurable.pay f : Prog σ ε Unit) (W.refill s 0) = (.halted, W.refill s 0) := by
    unfold Durable.pay
    rw [W.left_refill, if_pos rfl]
  have hsucc (n : Nat) : (W.toDurable.pay f : Prog σ ε Unit) (W.refill s (n + 1))
      = (.ok (), W.refill (f s) n) := by
    unfold Durable.pay
    rw [W.left_refill, if_neg (by omega), W.refill_refill, Nat.add_sub_cancel, hf.refill]
  obtain ⟨hinv', hgrows, hQ⟩ := h s hinv hs
  cases n with
  | zero =>
    rw [hzero, hsucc 0]
    refine ⟨⟨?_, nofun, nofun, ?_, fun _ => .refill 0⟩, .inr ⟨rfl, ?_, ?_, W.refill (f s) 0, ?_, ?_, .refl _⟩⟩
    . rw [W.store_refill]
      exact hinv
    . exact Nat.le_of_eq (W.left_refill s 0)
    . exact W.left_refill s 0
    . exact W.left_refill (f s) 0
    . rw [W.log_refill, W.log_refill, hf.log]
    . rw [W.store_refill, W.store_refill]
      exact hgrows
  | succ n =>
    rw [hsucc n, hsucc (n + 1)]
    refine ⟨⟨?_, ?_, nofun, ?_, by omega⟩, .inl ?_⟩
    . rw [W.store_refill]
      exact hinv'
    . intro _ _
      rw [W.store_refill]
      exact hQ
    . rw [W.left_refill]
      omega
    . simp only [W.left_refill, W.refill_refill]

theorem Keeps.bind {m : Prog σ ε α} {f : α → Prog σ ε β} (hm : W.Keeps P m Q)
    (hf : ∀ a, W.Keeps (Q a) (f a) R) : W.Keeps P (m >>= f) R := by
  intro s hinv hs n
  obtain ⟨hends, hnext⟩ := hm s hinv hs n
  obtain ⟨hends', -⟩ := hm s hinv hs (n + 1)
  rw [Prog.bind_apply, Prog.bind_apply]
  generalize m (W.refill s n) = x at hends hnext
  generalize m (W.refill s (n + 1)) = y at hends' hnext
  obtain ⟨o, t⟩ := x
  cases hnext with
  | inl hsame =>
    subst hsame
    cases o with
    | err err =>
      refine ⟨⟨hends.inv, nofun, ?_, hends.left, hends.calm⟩, .inl rfl⟩
      intro err' herr
      cases herr
      exact hends.err err rfl
    | halted => exact ⟨⟨hends.inv, nofun, nofun, hends.left, hends.calm⟩, .inl rfl⟩
    | ok a =>
      obtain ⟨hends₁, hnext₁⟩ := hf a t hends.inv (hends.ok a rfl) (W.left t)
      rw [W.refill_left] at hends₁ hnext₁
      refine ⟨⟨hends₁.inv, hends₁.ok, hends₁.err, Nat.le_trans hends₁.left hends.left, ?_⟩, hnext₁⟩
      intro hn
      have hleft : W.left t = 0 := by
        have := hends.left
        dsimp only at this
        omega
      exact (hends.calm hn).trans (hends₁.calm hleft)
  | inr hmore =>
    obtain ⟨ho, hleft, hleft', u, hlog, hgrows, hcalm⟩ := hmore
    dsimp only at ho
    subst ho
    refine ⟨⟨hends.inv, nofun, nofun, hends.left, hends.calm⟩, .inr ?_⟩
    obtain ⟨o', v⟩ := y
    refine ⟨rfl, hleft, ?_⟩
    cases o' with
    | err err => exact ⟨hleft', u, hlog, hgrows, hcalm⟩
    | halted => exact ⟨hleft', u, hlog, hgrows, hcalm⟩
    | ok a =>
      obtain ⟨hends₁, -⟩ := hf a v hends'.inv (hends'.ok a rfl) 0
      have hv : W.refill v 0 = v := by
        rw [← hleft', W.refill_left]
      rw [hv] at hends₁
      exact ⟨Nat.le_zero.mp hends₁.left, u, hlog, hgrows, hcalm.trans (hends₁.calm rfl)⟩

theorem Keeps.pre {m : Prog σ ε α} (hP : ∀ t, W.inv t → P' t → P t) (h : W.Keeps P m Q)
    : W.Keeps P' m Q := by
  intro s hinv hs
  exact h s hinv (hP _ hinv hs)

theorem Keeps.post {m : Prog σ ε α} (h : W.Keeps P m Q) (hQ : ∀ a t, W.inv t → Q a t → Q' a t)
    : W.Keeps P m Q' := by
  intro s hinv hs n
  obtain ⟨hends, hnext⟩ := h s hinv hs n
  exact ⟨{ hends with ok := fun a ha => hQ a _ hends.inv (hends.ok a ha) }, hnext⟩

theorem Keeps.given {m : Prog σ ε α} {p : Prop} (hp : ∀ t, W.inv t → P t → p)
    (h : p → W.Keeps P m Q) : W.Keeps P m Q := by
  intro s hinv hs
  exact h (hp _ hinv hs) s hinv hs

theorem Keeps.narrow {m : Prog σ ε α} {inv : τ → Prop} (hinv : ∀ t, inv t → W.inv t)
    (h : ({ W with inv } : Watch σ τ κ ε).Keeps P m Q)
    : W.Keeps (fun t => P t ∧ inv t) m (fun a t => Q a t ∧ inv t) := by
  intro s _ hs n
  obtain ⟨hends, hnext⟩ := h s hs.2 hs.1 n
  refine ⟨⟨hinv _ hends.inv, ?_, hends.err, hends.left, hends.calm⟩, hnext⟩
  exact fun a ha => ⟨hends.ok a ha, hends.inv⟩

theorem Keeps.inv_stop {m : Prog σ ε α} (h : W.Keeps P m Q) {s : σ} (hinv : W.inv (W.store s))
    (hs : P (W.store s)) (n : Nat) : W.inv (W.store (W.stop m s n)) :=
  (h s hinv hs n).1.inv

theorem Keeps.before_stop {m : Prog σ ε α} (h : W.Keeps P m Q) {s : σ} (hinv : W.inv (W.store s))
    (hs : P (W.store s)) (n : Nat)
    : (W.store (W.stop m s n) = W.store (W.before m s n) ∧ W.log (W.stop m s n) = W.log (W.before m s n))
      ∨ ∃ u, W.log u = W.log (W.before m s n)
        ∧ (W.store u = W.store (W.before m s n) ∨ W.grows (W.store (W.before m s n)) (W.store u))
        ∧ W.Calm u (W.stop m s n) := by
  cases n with
  | zero => exact .inr ⟨s, rfl, .inl rfl, (h s hinv hs 0).1.calm rfl⟩
  | succ n =>
    cases (h s hinv hs n).2 with
    | inl hsame =>
      left
      show W.store (m (W.refill s (n + 1))).2 = _ ∧ W.log (m (W.refill s (n + 1))).2 = _
      rw [hsame, W.store_refill, W.log_refill]
      exact ⟨rfl, rfl⟩
    | inr hmore =>
      obtain ⟨-, -, -, u, hlog, hgrows, hcalm⟩ := hmore
      exact .inr ⟨u, hlog, .inr hgrows, hcalm⟩

theorem Keeps.may_recent {m : Prog σ ε α} (h : W.Keeps P m Q) {s : σ} (hinv : W.inv (W.store s))
    (hs : P (W.store s)) (n : Nat)
    : ∀ x ∈ W.recent m s n, W.may (W.store (W.stop m s n)) x := by
  intro x hx
  unfold Durable.recent at hx
  cases h.before_stop hinv hs n with
  | inl hsame =>
    rw [hsame.2, List.drop_length] at hx
    cases hx
  | inr hmore =>
    obtain ⟨u, hlog, -, hstore, new, hnew, hmay⟩ := hmore
    rw [hnew, hlog, List.drop_left] at hx
    rw [hstore]
    exact hmay x hx

end Watch
