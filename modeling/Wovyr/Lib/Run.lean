/-!
This module contains the runs of a labelled transition relation and the rule that an invariant of
every step is an invariant of every run.
-/

inductive Run (step : σ → α → σ → Prop) : σ → List α → σ → Prop where
  | nil (s : σ) : Run step s [] s
  | cons {s t u : σ} {a : α} {as : List α} : step s a t → Run step t as u → Run step s (a :: as) u

namespace Run

variable {step : σ → α → σ → Prop} {P : σ → Prop}

theorem invariant (hstep : ∀ s a t, P s → step s a t → P t) {s t : σ} {as : List α}
    (h : Run step s as t) (hs : P s) : P t := by
  induction h with
  | nil => exact hs
  | cons hst _ ih => exact ih (hstep _ _ _ hs hst)

theorem snoc {s t u : σ} {a : α} {as : List α} (h : Run step s as t) (hstep : step t a u)
    : Run step s (as ++ [a]) u := by
  induction h with
  | nil => exact .cons hstep (.nil _)
  | cons hst _ ih => exact .cons hst (ih hstep)

theorem append {s t u : σ} {as bs : List α} (h : Run step s as t) (hrest : Run step t bs u)
    : Run step s (as ++ bs) u := by
  induction h with
  | nil => exact hrest
  | cons hst _ ih => exact .cons hst (ih hrest)

theorem of_append {s u : σ} {as bs : List α} (h : Run step s (as ++ bs) u)
    : ∃ t, Run step s as t ∧ Run step t bs u := by
  induction as generalizing s with
  | nil => exact ⟨s, .nil s, h⟩
  | cons a as ih =>
    cases h with
    | cons hst hrest =>
      obtain ⟨t, hfirst, hlast⟩ := ih hrest
      exact ⟨t, .cons hst hfirst, hlast⟩

end Run

theorem forall_mem_snoc {p : α → Prop} {xs : List α} {x : α} (h : ∀ y ∈ xs, p y) (hx : p x)
    : ∀ y ∈ xs ++ [x], p y := by
  intro y hy
  rcases List.mem_append.mp hy with hold | hnew
  . exact h y hold
  . cases List.mem_singleton.mp hnew
    exact hx

def Guarded (guard : σ → α → Prop) (step : σ → α → σ) (s : σ) (a : α) (t : σ) : Prop :=
  guard s a ∧ t = step s a

theorem Run.foldl {guard : σ → α → Prop} {step : σ → α → σ} {s t : σ} {as : List α}
    (h : Run (Guarded guard step) s as t) : t = as.foldl step s := by
  induction h with
  | nil => rfl
  | cons hst _ ih => rw [ih, hst.2, List.foldl_cons]

theorem Run.of_take {guard : σ → α → Prop} {step : σ → α → σ} {s : σ} {as : List α}
    (h : ∀ k (hk : k < as.length), guard ((as.take k).foldl step s) as[k])
    : Run (Guarded guard step) s as (as.foldl step s) := by
  induction as generalizing s with
  | nil => exact .nil s
  | cons a as ih =>
    exact .cons ⟨h 0 (Nat.succ_pos _), rfl⟩ (ih fun k hk => h (k + 1) (Nat.succ_lt_succ hk))

/--
If a step keeps a property exactly if the guard of the step is met, then the property holds after a run
exactly if the guard is met at every step.
-/
theorem Run.iff_guarded {guard : σ → α → Prop} {step : σ → α → σ} {I P : σ → Prop}
    (hinv : ∀ s a, I s → I (step s a)) (hstep : ∀ s a, I s → (P (step s a) ↔ P s ∧ guard s a))
    {s : σ} (hs : I s) (hp : P s) (as : List α)
    : P (as.foldl step s) ↔ Run (Guarded guard step) s as (as.foldl step s) := by
  have hback : ∀ (as : List α) (s : σ), I s → P (as.foldl step s) → P s := by
    intro as
    induction as with
    | nil => exact fun _ _ h => h
    | cons a as ih =>
      intro s hs h
      exact ((hstep s a hs).mp (ih (step s a) (hinv s a hs) h)).1
  constructor
  . intro h
    induction as generalizing s with
    | nil => exact .nil s
    | cons a as ih =>
      have hnext := hback as (step s a) (hinv s a hs) h
      exact .cons ⟨((hstep s a hs).mp hnext).2, rfl⟩ (ih (hinv s a hs) hnext h)
  . intro h
    induction as generalizing s with
    | nil => exact hp
    | cons a as ih =>
      obtain ⟨t, hguard, hrest⟩ : ∃ t, Guarded guard step s a t
          ∧ Run (Guarded guard step) t as ((a :: as).foldl step s) := by
        cases h with
        | cons hst hrest => exact ⟨_, hst, hrest⟩
      obtain ⟨hguard, rfl⟩ := hguard
      exact ih (hinv s a hs) ((hstep s a hs).mpr ⟨hp, hguard⟩) hrest

theorem Run.forall_take_iff {guard : σ → α → Prop} {step : σ → α → σ} {I P : σ → Prop}
    (hinv : ∀ s a, I s → I (step s a)) (hstep : ∀ s a, I s → P s → (P (step s a) ↔ guard s a))
    {s : σ} (hs : I s) (hp : P s) (as : List α)
    : (∀ k, P ((as.take k).foldl step s)) ↔ Run (Guarded guard step) s as (as.foldl step s) := by
  induction as generalizing s with
  | nil => exact iff_of_true (fun k => by simpa using hp) (.nil s)
  | cons a as ih =>
    constructor
    . intro h
      have hnext : P (step s a) := h 1
      exact .cons ⟨(hstep s a hs hp).mp hnext, rfl⟩ ((ih (hinv s a hs) hnext).mp fun k => h (k + 1))
    . intro h k
      cases h with
      | cons hst hrest =>
        obtain ⟨hguard, rfl⟩ := hst
        cases k with
        | zero => exact hp
        | succ k => exact (ih (hinv s a hs) ((hstep s a hs hp).mpr hguard)).mpr hrest k

def answers (step : σ → α → β × σ) (s : σ) : List α → List β
  | [] => []
  | a :: as => (step s a).1 :: answers step (step s a).2 as

theorem answers_eq {step : σ → α → β × σ} {step' : τ → α → β × τ} {R : σ → τ → Prop} {p : α → Prop}
    (hstep : ∀ s t a, R s t → p a → (step s a).1 = (step' t a).1 ∧ R (step s a).2 (step' t a).2)
    {s : σ} {t : τ} (h : R s t) {as : List α} (has : ∀ a ∈ as, p a)
    : answers step s as = answers step' t as := by
  induction as generalizing s t with
  | nil => rfl
  | cons a as ih =>
    obtain ⟨heq, hnext⟩ := hstep s t a h (has a List.mem_cons_self)
    rw [answers, answers, heq, ih hnext fun b hb => has b (List.mem_cons_of_mem _ hb)]
