import Wovyr.Lib.Prog

/-!
This module contains a logic for two runs that are compared with each other: from states that are alike
both come to results that belong together and to states that are alike again, or both break off.
-/

/--
When two states are alike, and what they still have in common once both runs have broken off.
-/
structure Likeness (σ : Type) where
  like : σ → σ → Prop
  cut : σ → σ → Prop
  cut_of_like : ∀ s t, like s t → cut s t

namespace Likeness

variable {σ ε α α' β β' : Type} (L : Likeness σ)

inductive Ends (Q : α → α' → Prop) : Outcome ε α × σ → Outcome ε α' × σ → Prop where
  | ok {a : α} {a' : α'} {s s' : σ} (h : Q a a') (hlike : L.like s s') : Ends Q (.ok a, s) (.ok a', s')
  | broken {o : Outcome ε α} {o' : Outcome ε α'} {s s' : σ} (h : ∀ a, o ≠ .ok a) (h' : ∀ a, o' ≠ .ok a)
    (hcut : L.cut s s') : Ends Q (o, s) (o', s')

def Tallies (Q : α → α' → Prop) (m : Prog σ ε α) (m' : Prog σ ε α') : Prop :=
  ∀ s s', L.like s s' → L.Ends Q (m s) (m' s')

def Repeats (m : Prog σ ε α) : Prop :=
  L.Tallies Eq m m

variable {L} {Q : α → α' → Prop} {R : β → β' → Prop}

theorem Tallies.pure {a : α} {a' : α'} (h : Q a a')
    : L.Tallies Q (pure a : Prog σ ε α) (pure a' : Prog σ ε α') :=
  fun _ _ hlike => .ok h hlike

theorem Tallies.bind {m : Prog σ ε α} {m' : Prog σ ε α'} {f : α → Prog σ ε β} {f' : α' → Prog σ ε β'}
    (hm : L.Tallies Q m m') (hf : ∀ a a', Q a a' → L.Tallies R (f a) (f' a'))
    : L.Tallies R (m >>= f) (m' >>= f') := by
  intro s s' hlike
  have hends := hm s s' hlike
  rw [Prog.bind_apply, Prog.bind_apply]
  generalize m s = x at hends
  generalize m' s' = x' at hends
  cases hends with
  | ok h hlike' => exact hf _ _ h _ _ hlike'
  | @broken o o' t t' h h' hcut =>
    cases o with
    | ok a => exact absurd rfl (h a)
    | err err =>
      cases o' with
      | ok a => exact absurd rfl (h' a)
      | err err' => exact .broken nofun nofun hcut
      | halted => exact .broken nofun nofun hcut
    | halted =>
      cases o' with
      | ok a => exact absurd rfl (h' a)
      | err err' => exact .broken nofun nofun hcut
      | halted => exact .broken nofun nofun hcut

theorem Repeats.pure (a : α) : L.Repeats (pure a : Prog σ ε α) :=
  Tallies.pure rfl

theorem Repeats.fail (err : ε) : L.Repeats (Prog.fail err : Prog σ ε α) :=
  fun s s' hlike => .broken nofun nofun (L.cut_of_like s s' hlike)

theorem Repeats.halt : L.Repeats (Prog.halt : Prog σ ε α) :=
  fun s s' hlike => .broken nofun nofun (L.cut_of_like s s' hlike)

theorem Repeats.bind {m : Prog σ ε α} {f : α → Prog σ ε β} (hm : L.Repeats m)
    (hf : ∀ a, L.Repeats (f a)) : L.Repeats (m >>= f) := by
  apply Tallies.bind hm
  rintro a _ rfl
  exact hf a

theorem Repeats.gets (f : σ → α) (hf : ∀ s s', L.like s s' → f s = f s')
    : L.Repeats (Prog.gets f : Prog σ ε α) :=
  fun s s' hlike => .ok (hf s s' hlike) hlike

theorem Repeats.ofOption (o : Option α) : L.Repeats (Prog.ofOption o : Prog σ ε α) := by
  cases o with
  | none => exact .halt
  | some a => exact .pure a

theorem Repeats.ofExcept (x : Except ε α) : L.Repeats (Prog.ofExcept x : Prog σ ε α) := by
  cases x with
  | error err => exact .fail err
  | ok a => exact .pure a

theorem Repeats.ok_iff {m : Prog σ ε α} (h : L.Repeats m) {s s' : σ} (hlike : L.like s s')
    : (∀ a, (m s).1 = .ok a ↔ (m s').1 = .ok a) ∧ L.cut (m s).2 (m s').2 := by
  have hends := h s s' hlike
  generalize m s = x at hends
  generalize m s' = x' at hends
  cases hends with
  | ok heq hlike' =>
    subst heq
    exact ⟨fun _ => Iff.rfl, L.cut_of_like _ _ hlike'⟩
  | broken ho ho' hcut => exact ⟨fun a => iff_of_false (ho a) (ho' a), hcut⟩

end Likeness
