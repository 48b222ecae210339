import Mathlib.Logic.Basic

/-!
This module contains programs that pass a state on, end with a result or an error or are cut short,
and a logic for what they keep. The state carries a preorder along which it can only grow.
-/

inductive Outcome (ε α : Type) where
  | ok (a : α)
  | err (e : ε)
  | halted
deriving Repr, DecidableEq

namespace Outcome

variable {ε α : Type}

def ok? : Outcome ε α → Option α
  | ok a => some a
  | _ => none

theorem ok?_eq_some {o : Outcome ε α} {a : α} (h : o.ok? = some a) : o = .ok a := by
  cases o with
  | ok b =>
    cases h
    rfl
  | err e => cases h
  | halted => cases h

end Outcome

def Prog (σ ε α : Type) : Type := σ → Outcome ε α × σ

namespace Prog

variable {σ ε α β : Type}

protected def pure (a : α) : Prog σ ε α :=
  fun s => (.ok a, s)

protected def bind (m : Prog σ ε α) (f : α → Prog σ ε β) : Prog σ ε β :=
  fun s =>
    match m s with
    | (.ok a, t) => f a t
    | (.err e, t) => (.err e, t)
    | (.halted, t) => (.halted, t)

instance : Monad (Prog σ ε) where
  pure := Prog.pure
  bind := Prog.bind

def fail (e : ε) : Prog σ ε α :=
  fun s => (.err e, s)

def halt : Prog σ ε α :=
  fun s => (.halted, s)

def gets (f : σ → α) : Prog σ ε α :=
  fun s => (.ok (f s), s)

def modify (f : σ → σ) : Prog σ ε Unit :=
  fun s => (.ok (), f s)

def ofOption : Option α → Prog σ ε α
  | some a => pure a
  | none => halt

def ofExcept : Except ε α → Prog σ ε α
  | .ok a => pure a
  | .error e => fail e

def mapErr {ε' : Type} (f : ε → ε') (m : Prog σ ε α) : Prog σ ε' α :=
  fun s =>
    match m s with
    | (.ok a, t) => (.ok a, t)
    | (.err e, t) => (.err (f e), t)
    | (.halted, t) => (.halted, t)

theorem pure_apply (a : α) (s : σ) : (pure a : Prog σ ε α) s = (.ok a, s) :=
  rfl

theorem bind_apply (m : Prog σ ε α) (f : α → Prog σ ε β) (s : σ)
    : (m >>= f) s
        =
      match m s with
      | (.ok a, t) => f a t
      | (.err e, t) => (.err e, t)
      | (.halted, t) => (.halted, t) :=
  rfl

theorem pure_bind (a : α) (f : α → Prog σ ε β) : (pure a >>= f) = f a :=
  rfl

theorem fail_bind (e : ε) (f : α → Prog σ ε β) : (fail e >>= f) = fail e :=
  rfl

theorem bind_of_ok {m : Prog σ ε α} {f : α → Prog σ ε β} {s t : σ} {a : α} (h : m s = (.ok a, t))
    : (m >>= f) s = f a t := by
  rw [bind_apply, h]

theorem bind_of_err {m : Prog σ ε α} {f : α → Prog σ ε β} {s t : σ} {e : ε} (h : m s = (.err e, t))
    : (m >>= f) s = (.err e, t) := by
  rw [bind_apply, h]

theorem of_bind_ok {m : Prog σ ε α} {f : α → Prog σ ε β} {s t : σ} {b : β} (h : (m >>= f) s = (.ok b, t))
    : ∃ a u, m s = (.ok a, u) ∧ f a u = (.ok b, t) := by
  rw [bind_apply] at h
  cases hm : m s with
  | mk o u =>
    rw [hm] at h
    cases o with
    | ok a => exact ⟨a, u, rfl, h⟩
    | err e => cases h
    | halted => cases h

theorem of_ofOption_ok {o : Option α} {s t : σ} {a : α} (h : (ofOption o : Prog σ ε α) s = (.ok a, t))
    : o = some a ∧ t = s := by
  cases o with
  | none => cases h
  | some b =>
    cases h
    exact ⟨rfl, rfl⟩

theorem of_ofExcept_ok {x : Except ε α} {s t : σ} {a : α} (h : ofExcept x s = (.ok a, t))
    : x = .ok a ∧ t = s := by
  cases x with
  | error e => cases h
  | ok b =>
    cases h
    exact ⟨rfl, rfl⟩

theorem bind_pure_state (m : Prog σ ε α) (f : α → β) (s : σ)
    : ((m >>= fun a => pure (f a)) s).2 = (m s).2 := by
  rw [bind_apply]
  cases m s with
  | mk o t => cases o <;> rfl

theorem bind_assoc {γ : Type} (m : Prog σ ε α) (f : α → Prog σ ε β) (g : β → Prog σ ε γ)
    : (m >>= f >>= g) = (m >>= fun a => f a >>= g) := by
  funext s
  simp only [bind_apply]
  cases m s with
  | mk o t => cases o <;> rfl

def Commutes (f : σ → σ) (m : Prog σ ε α) : Prop :=
  ∀ s, m (f s) = ((m s).1, f (m s).2)

variable {f : σ → σ}

theorem Commutes.pure (a : α) : Commutes f (pure a : Prog σ ε α) :=
  fun _ => rfl

theorem Commutes.fail (e : ε) : Commutes f (fail e : Prog σ ε α) :=
  fun _ => rfl

theorem Commutes.bind {m : Prog σ ε α} {k : α → Prog σ ε β} (hm : Commutes f m)
    (hk : ∀ a, Commutes f (k a)) : Commutes f (m >>= k) := by
  intro s
  simp only [bind_apply]
  rw [hm s]
  cases m s with
  | mk o t =>
    cases o with
    | ok a => exact hk a t
    | err e | halted => rfl

theorem Commutes.gets {g : σ → α} (h : ∀ s, g (f s) = g s) : Commutes f (gets g : Prog σ ε α) := by
  intro s
  unfold Prog.gets
  rw [h s]

theorem Commutes.modify {g : σ → σ} (h : ∀ s, g (f s) = f (g s))
    : Commutes f (modify g : Prog σ ε Unit) := by
  intro s
  unfold Prog.modify
  rw [h s]

theorem Commutes.ofExcept (x : Except ε α) : Commutes f (ofExcept x : Prog σ ε α) := by
  cases x with
  | ok a => exact Commutes.pure a
  | error e => exact Commutes.fail e

theorem Commutes.mapErr {ε' : Type} (g : ε → ε') {m : Prog σ ε α} (h : Commutes f m)
    : Commutes f (mapErr g m) := by
  intro s
  unfold Prog.mapErr
  rw [h s]
  cases m s with
  | mk o t => cases o <;> rfl

end Prog

/--
An invariant of the state, and the preorder along which every program moves it.
-/
structure Keeping (σ : Type) where
  inv : σ → Prop
  le : σ → σ → Prop
  refl : ∀ s, le s s
  trans : ∀ s t u, le s t → le t u → le s u

namespace Keeping

variable {σ ε α β : Type} (K : Keeping σ)

def Stable (P : σ → Prop) : Prop :=
  ∀ s t, K.le s t → P s → P t

def Keeps (P : σ → Prop) (m : Prog σ ε α) (Q : α → σ → Prop) : Prop :=
  ∀ s, K.inv s → P s →
    K.inv (m s).2 ∧ K.le s (m s).2 ∧ ∀ a, (m s).1 = .ok a → Q a (m s).2

variable {K} {P P' : σ → Prop} {Q Q' : α → σ → Prop} {R : β → σ → Prop}

theorem Keeps.pure (a : α) (h : ∀ s, K.inv s → P s → Q a s)
    : K.Keeps P (pure a : Prog σ ε α) Q := by
  intro s hinv hs
  refine ⟨hinv, K.refl s, ?_⟩
  intro a' ha'
  cases ha'
  exact h s hinv hs

theorem Keeps.fail (e : ε) : K.Keeps P (Prog.fail e : Prog σ ε α) Q := by
  intro s hinv _
  refine ⟨hinv, K.refl s, ?_⟩
  intro a ha
  cases ha

theorem Keeps.halt : K.Keeps P (Prog.halt : Prog σ ε α) Q := by
  intro s hinv _
  refine ⟨hinv, K.refl s, ?_⟩
  intro a ha
  cases ha

theorem Keeps.bind {m : Prog σ ε α} {f : α → Prog σ ε β} (hm : K.Keeps P m Q)
    (hf : ∀ a, K.Keeps (Q a) (f a) R) : K.Keeps P (m >>= f) R := by
  intro s hinv hs
  obtain ⟨hinv', hle, hpost⟩ := hm s hinv hs
  rw [Prog.bind_apply]
  cases hms : m s with
  | mk o t =>
    rw [hms] at hinv' hle hpost
    cases o with
    | ok a =>
      obtain ⟨hinv'', hle', hpost'⟩ := hf a t hinv' (hpost a rfl)
      exact ⟨hinv'', K.trans _ _ _ hle hle', hpost'⟩
    | err e =>
      refine ⟨hinv', hle, ?_⟩
      intro a ha
      cases ha
    | halted =>
      refine ⟨hinv', hle, ?_⟩
      intro a ha
      cases ha

theorem Keeps.mapErr {ε' : Type} (f : ε → ε') {m : Prog σ ε α} (h : K.Keeps P m Q)
    : K.Keeps P (Prog.mapErr f m) Q := by
  intro s hinv hs
  have hm := h s hinv hs
  unfold Prog.mapErr
  cases hms : m s with
  | mk o t =>
    rw [hms] at hm
    cases o with
    | ok a =>
      refine ⟨hm.1, hm.2.1, ?_⟩
      intro a' ha'
      cases ha'
      exact hm.2.2 a rfl
    | err e | halted =>
      refine ⟨hm.1, hm.2.1, ?_⟩
      intro a ha
      cases ha

theorem Keeps.pre {m : Prog σ ε α} (hP : ∀ s, K.inv s → P' s → P s) (h : K.Keeps P m Q)
    : K.Keeps P' m Q := by
  intro s hinv hs
  exact h s hinv (hP s hinv hs)

theorem Keeps.post {m : Prog σ ε α} (h : K.Keeps P m Q) (hQ : ∀ a s, Q a s → Q' a s)
    : K.Keeps P m Q' := by
  intro s hinv hs
  obtain ⟨hinv', hle, hpost⟩ := h s hinv hs
  exact ⟨hinv', hle, fun a ha => hQ a _ (hpost a ha)⟩

theorem Keeps.given {m : Prog σ ε α} {p : Prop} (hp : ∀ s, K.inv s → P s → p)
    (h : p → K.Keeps P m Q) : K.Keeps P m Q := by
  intro s hinv hs
  exact h (hp s hinv hs) s hinv hs

theorem Keeps.frame {m : Prog σ ε α} {S : σ → Prop} (hstable : K.Stable S) (h : K.Keeps P m Q)
    : K.Keeps (fun s => P s ∧ S s) m (fun a s => Q a s ∧ S s) := by
  intro s hinv hs
  obtain ⟨hinv', hle, hpost⟩ := h s hinv hs.1
  exact ⟨hinv', hle, fun a ha => ⟨hpost a ha, hstable _ _ hle hs.2⟩⟩

theorem Keeps.result {m : Prog σ ε α} {R : α → σ → Prop} (h : K.Keeps P m Q)
    (hR : ∀ s a t, m s = (.ok a, t) → R a t) : K.Keeps P m (fun a s => Q a s ∧ R a s) := by
  intro s hinv hs
  obtain ⟨hinv', hle, hpost⟩ := h s hinv hs
  exact ⟨hinv', hle, fun a ha => ⟨hpost a ha, hR s a _ (Prod.ext ha rfl)⟩⟩

theorem Keeps.stays {m : Prog σ ε α} (hstable : K.Stable P) (h : K.Keeps P m Q)
    : K.Keeps P m (fun _ => P) := by
  intro s hinv hs
  obtain ⟨hinv', hle, -⟩ := h s hinv hs
  exact ⟨hinv', hle, fun _ _ => hstable _ _ hle hs⟩

theorem Keeps.gets (f : σ → α) (h : ∀ s, K.inv s → P s → Q (f s) s)
    : K.Keeps P (Prog.gets f : Prog σ ε α) Q := by
  intro s hinv hs
  refine ⟨hinv, K.refl s, ?_⟩
  intro a ha
  cases ha
  exact h s hinv hs

theorem Keeps.reads (f : σ → α) : K.Keeps P (Prog.gets f : Prog σ ε α) (fun _ => P) :=
  Keeps.gets f fun _ _ h => h

theorem Keeps.modify (f : σ → σ) {Q : Unit → σ → Prop} (hinv : ∀ s, K.inv s → P s → K.inv (f s))
    (hle : ∀ s, K.inv s → P s → K.le s (f s)) (hQ : ∀ s, K.inv s → P s → Q () (f s))
    : K.Keeps P (Prog.modify f : Prog σ ε Unit) Q := by
  intro s hs hP
  refine ⟨hinv s hs hP, hle s hs hP, ?_⟩
  intro a _
  exact hQ s hs hP

theorem Keeps.ofOption (o : Option α) (h : ∀ a s, o = some a → K.inv s → P s → Q a s)
    : K.Keeps P (Prog.ofOption o : Prog σ ε α) Q := by
  cases o with
  | none => exact Keeps.halt
  | some a => exact Keeps.pure a fun s hinv hs => h a s rfl hinv hs

theorem Keeps.ofExcept (x : Except ε α) (h : ∀ a s, x = .ok a → K.inv s → P s → Q a s)
    : K.Keeps P (Prog.ofExcept x : Prog σ ε α) Q := by
  cases x with
  | error e => exact Keeps.fail e
  | ok a => exact Keeps.pure a fun s hinv hs => h a s rfl hinv hs

end Keeping
