import Wovyr.Lib.Durable

/-!
This module contains a logic of total correctness for programs that are given gas: with enough gas and enough
writes such a program comes to its end, whatever more it is given.
-/

/--
How a state divides, an invariant of it, and what has to be the case for a program to be cut short.
-/
structure Completion (σ τ κ : Type) extends Durable σ τ κ where
  inv : σ → Prop
  cut : Prop

namespace Completion

variable {σ τ κ ε α β : Type} (C : Completion σ τ κ)

def Ends (m : Nat → Prog σ ε α) (s : σ) (gas writes : Nat) (x : Outcome ε α × σ) : Prop :=
  ∀ g, gas ≤ g → ∀ k, m g (C.refill s (writes + k)) = (x.1, C.refill x.2 k)

def Completes (P : σ → Prop) (m : Nat → Prog σ ε α) (Q : α → σ → Prop) : Prop :=
  ∀ s, C.inv s → P s → ∃ gas writes x, C.Ends m s gas writes x
    ∧ C.inv x.2 ∧ (∀ a, x.1 = .ok a → Q a x.2) ∧ (x.1 = .halted → C.cut)

variable {C} {P P' : σ → Prop} {Q Q' : α → σ → Prop} {R : β → σ → Prop}

theorem Completes.pre {m : Nat → Prog σ ε α} (hP : ∀ s, C.inv s → P s → P' s) (h : C.Completes P' m Q)
    : C.Completes P m Q :=
  fun s hinv hs => h s hinv (hP s hinv hs)

theorem Completes.post {m : Nat → Prog σ ε α} (h : C.Completes P m Q') (hQ : ∀ a s, C.inv s → Q' a s → Q a s)
    : C.Completes P m Q := by
  intro s hinv hs
  obtain ⟨gas, writes, x, hends, hinv', hok, hcut⟩ := h s hinv hs
  exact ⟨gas, writes, x, hends, hinv', fun a ha => hQ a _ hinv' (hok a ha), hcut⟩

theorem Completes.given {p : Prop} {m : Nat → Prog σ ε α} (hp : ∀ s, C.inv s → P s → p)
    (h : p → C.Completes P m Q) : C.Completes P m Q :=
  fun s hinv hs => h (hp s hinv hs) s hinv hs

theorem Completes.each {m : Nat → Prog σ ε α} (h : ∀ s, C.inv s → P s → C.Completes (· = s) m Q)
    : C.Completes P m Q :=
  fun s hinv hs => h s hinv hs s hinv rfl

theorem Completes.narrow {m : Nat → Prog σ ε α} {I : σ → Prop} (hinv : ∀ s, I s → C.inv s)
    (h : ({ C with inv := I } : Completion σ τ κ).Completes P m Q)
    : C.Completes (fun s => P s ∧ I s) m (fun a s => Q a s ∧ I s) := by
  intro s _ hs
  obtain ⟨gas, writes, x, hends, hkept, hok, hcut⟩ := h s hs.2 hs.1
  exact ⟨gas, writes, x, hends, hinv _ hkept, fun a ha => ⟨hok a ha, hkept⟩, hcut⟩

theorem Completes.still {m : Prog σ ε α} {o : σ → Outcome ε α} {f : σ → σ}
    (hm : ∀ s n, m (C.refill s n) = (o s, C.refill (f s) n)) (hinv : ∀ s, C.inv s → C.inv (f s))
    (hok : ∀ s a, C.inv s → P s → o s = .ok a → Q a (f s))
    (hcut : ∀ s, C.inv s → P s → o s = .halted → C.cut) : C.Completes P (fun _ => m) Q := by
  intro s hs hP
  refine ⟨0, 0, (o s, f s), ?_, hinv s hs, fun a ha => hok s a hs hP ha, hcut s hs hP⟩
  intro _ _ k
  rw [Nat.zero_add]
  exact hm s k

theorem Completes.pure (a : α) (h : ∀ s, C.inv s → P s → Q a s)
    : C.Completes P (fun _ => (pure a : Prog σ ε α)) Q := by
  refine Completes.still (o := fun _ => .ok a) (f := id) (fun _ _ => rfl) (fun _ h => h) ?_ nofun
  intro s a' hinv hs ha
  cases ha
  exact h s hinv hs

theorem Completes.fail (err : ε) : C.Completes P (fun _ => (Prog.fail err : Prog σ ε α)) Q :=
  Completes.still (o := fun _ => .err err) (f := id) (fun _ _ => rfl) (fun _ h => h) nofun nofun

theorem Completes.halt (h : ∀ s, C.inv s → P s → C.cut)
    : C.Completes P (fun _ => (Prog.halt : Prog σ ε α)) Q :=
  Completes.still (o := fun _ => .halted) (f := id) (fun _ _ => rfl) (fun _ h => h) nofun fun s hinv hs _ => h s hinv hs

theorem Completes.ofOption (o : Option α) (h : ∀ a s, o = some a → C.inv s → P s → Q a s)
    (hnone : ∀ s, o = none → C.inv s → P s → C.cut)
    : C.Completes P (fun _ => (Prog.ofOption o : Prog σ ε α)) Q := by
  cases o with
  | none => exact Completes.halt fun s => hnone s rfl
  | some a => exact Completes.pure a fun s => h a s rfl

theorem Completes.ofExcept (x : Except ε α) (h : ∀ a s, x = .ok a → C.inv s → P s → Q a s)
    : C.Completes P (fun _ => (Prog.ofExcept x : Prog σ ε α)) Q := by
  cases x with
  | ok a => exact Completes.pure a fun s => h a s rfl
  | error err => exact Completes.fail err

theorem Completes.gets (f : σ → α) (hf : ∀ s n, f (C.refill s n) = f s) (h : ∀ s, C.inv s → P s → Q (f s) s)
    : C.Completes P (fun _ => (Prog.gets f : Prog σ ε α)) Q := by
  refine Completes.still (o := fun s => .ok (f s)) (f := id) ?_ (fun _ h => h) ?_ nofun
  . intro s n
    unfold Prog.gets
    rw [hf]
    rfl
  . intro s a hinv hs ha
    cases ha
    exact h s hinv hs

theorem Completes.modify {f : σ → σ} (hf : ∀ s n, f (C.refill s n) = C.refill (f s) n)
    (hinv : ∀ s, C.inv s → C.inv (f s)) {Q : Unit → σ → Prop} (h : ∀ s, C.inv s → P s → Q () (f s))
    : C.Completes P (fun _ => (Prog.modify f : Prog σ ε Unit)) Q := by
  refine Completes.still (o := fun _ => .ok ()) (f := f) ?_ hinv ?_ nofun
  . intro s n
    unfold Prog.modify
    rw [hf]
  . intro s a hinv hs _
    exact h s hinv hs

theorem Completes.pay {f : σ → σ} (hf : ∀ s n, f (C.refill s n) = C.refill (f s) n)
    (hinv : ∀ s, C.inv s → C.inv (f s)) {Q : Unit → σ → Prop} (h : ∀ s, C.inv s → P s → Q () (f s))
    : C.Completes P (fun _ => (C.pay f : Prog σ ε Unit)) Q := by
  intro s hs hP
  refine ⟨0, 1, (.ok (), f s), ?_, hinv s hs, fun _ _ => h s hs hP, nofun⟩
  intro _ _ k
  unfold Durable.pay
  dsimp only
  rw [C.left_refill, if_neg (by omega), C.refill_refill, hf, Nat.add_sub_cancel_left]

theorem Completes.bind {m : Nat → Prog σ ε α} {f : α → Nat → Prog σ ε β} (hm : C.Completes P m Q)
    (hf : ∀ a, C.Completes (Q a) (f a) R) : C.Completes P (fun g => m g >>= fun a => f a g) R := by
  intro s hinv hs
  obtain ⟨gas, writes, ⟨o, t⟩, hends, hinv', hok, hcut⟩ := hm s hinv hs
  cases o with
  | ok a =>
    obtain ⟨gas', writes', y, hends', hrest⟩ := hf a t hinv' (hok a rfl)
    refine ⟨max gas gas', writes + writes', y, ?_, hrest⟩
    intro g hg k
    rw [Nat.add_assoc]
    exact (Prog.bind_of_ok (hends g (by omega) _)).trans (hends' g (by omega) k)
  | err err =>
    refine ⟨gas, writes, (.err err, t), ?_, hinv', nofun, nofun⟩
    intro g hg k
    exact Prog.bind_of_err (hends g hg k)
  | halted =>
    refine ⟨gas, writes, (.halted, t), ?_, hinv', nofun, fun _ => hcut rfl⟩
    intro g hg k
    dsimp only
    rw [Prog.bind_apply, hends g hg k]

theorem Completes.round {m n : Nat → Prog σ ε α} (heq : ∀ g, m (g + 1) = n g) (h : C.Completes P n Q)
    : C.Completes P m Q := by
  intro s hinv hs
  obtain ⟨gas, writes, x, hends, hrest⟩ := h s hinv hs
  refine ⟨gas + 1, writes, x, ?_, hrest⟩
  intro g hg k
  obtain ⟨g, rfl⟩ : ∃ g', g = g' + 1 := ⟨g - 1, by omega⟩
  rw [heq]
  exact hends g (by omega) k

def Runs (C : Completion σ τ κ) (m : Nat → Prog σ ε α) (q : α → Prop) : Prop :=
  C.Completes (fun _ => True) m (fun a _ => q a)

variable {q q' : α → Prop} {r : β → Prop}

theorem Runs.post {m : Nat → Prog σ ε α} (h : C.Runs m q') (hq : ∀ a, q' a → q a) : C.Runs m q :=
  Completes.post h fun a _ _ => hq a

theorem Runs.pure {a : α} (h : q a) : C.Runs (fun _ => (Pure.pure a : Prog σ ε α)) q :=
  Completes.pure a fun _ _ _ => h

theorem Runs.fail (err : ε) : C.Runs (fun _ => (Prog.fail err : Prog σ ε α)) q :=
  Completes.fail err

theorem Runs.halt (h : C.cut) : C.Runs (fun _ => (Prog.halt : Prog σ ε α)) q :=
  Completes.halt fun _ _ _ => h

theorem Runs.ofOption (o : Option α) (hsome : ∀ a, o = some a → q a) (hnone : ¬C.cut → o.isSome = true)
    : C.Runs (fun _ => (Prog.ofOption o : Prog σ ε α)) q := by
  apply Completes.ofOption
  . exact fun a _ ha _ _ => hsome a ha
  . intro s ho _ _
    apply Classical.byContradiction
    intro hcut
    have hsome := hnone hcut
    rw [ho] at hsome
    cases hsome

theorem Runs.ofExcept (x : Except ε α) (h : ∀ a, x = .ok a → q a)
    : C.Runs (fun _ => (Prog.ofExcept x : Prog σ ε α)) q :=
  Completes.ofExcept x fun a _ ha _ _ => h a ha

theorem Runs.gets (f : σ → α) (hf : ∀ s n, f (C.refill s n) = f s) (h : ∀ s, q (f s))
    : C.Runs (fun _ => (Prog.gets f : Prog σ ε α)) q :=
  Completes.gets f hf fun s _ _ => h s

theorem Runs.modify {f : σ → σ} (hf : ∀ s n, f (C.refill s n) = C.refill (f s) n)
    (hinv : ∀ s, C.inv s → C.inv (f s))
    : C.Runs (fun _ => (Prog.modify f : Prog σ ε Unit)) (fun _ => True) :=
  Completes.modify hf hinv fun _ _ _ => trivial

theorem Runs.pay {f : σ → σ} (hf : ∀ s n, f (C.refill s n) = C.refill (f s) n)
    (hinv : ∀ s, C.inv s → C.inv (f s)) : C.Runs (fun _ => (C.pay f : Prog σ ε Unit)) (fun _ => True) :=
  Completes.pay hf hinv fun _ _ _ => trivial

theorem Runs.before {m : Nat → Prog σ ε α} {f : α → Nat → Prog σ ε β} (hm : C.Runs m q)
    (hf : ∀ a, q a → C.Completes (fun _ => True) (f a) R)
    : C.Completes (fun _ => True) (fun g => m g >>= fun a => f a g) R := by
  apply Completes.bind hm
  intro a
  exact Completes.given (fun _ _ h => h) fun h => Completes.pre (fun _ _ _ => trivial) (hf a h)

theorem Runs.bind {m : Nat → Prog σ ε α} {f : α → Nat → Prog σ ε β} (hm : C.Runs m q)
    (hf : ∀ a, q a → C.Runs (f a) r) : C.Runs (fun g => m g >>= fun a => f a g) r :=
  Runs.before hm hf

theorem Runs.round {m n : Nat → Prog σ ε α} (heq : ∀ g, m (g + 1) = n g) (h : C.Runs n q) : C.Runs m q :=
  Completes.round heq h

end Completion
