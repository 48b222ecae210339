/-!
This module contains programs that call a shared object. A call is atomic, between two calls of a
program those of others can come.
-/

inductive Client (Op : Type) (Res : Op → Type) (α : Type) where
  | done (a : α)
  | call (op : Op) (next : Res op → Client Op Res α)

namespace Client

variable {Op : Type} {Res : Op → Type} {σ α β : Type} (exec : (op : Op) → σ → Res op × σ)

def map (f : α → β) : Client Op Res α → Client Op Res β
  | .done a => .done (f a)
  | .call op next => .call op fun res => (next res).map f

protected def bind : Client Op Res α → (α → Client Op Res β) → Client Op Res β
  | .done a, f => f a
  | .call op next, f => .call op fun res => (next res).bind f

instance : Monad (Client Op Res) where
  pure := .done
  bind := Client.bind

def perform (op : Op) : Client Op Res (Res op) :=
  .call op .done

def run : Client Op Res α → σ → α × σ
  | .done a, s => (a, s)
  | .call op next, s =>
    let (res, s) := exec op s
    (next res).run s

def acts : Client Op Res α → σ → List (Op × σ)
  | .done _, _ => []
  | .call op next, s =>
    let (res, s') := exec op s
    (op, s) :: (next res).acts s'

def Makes (may : Op → σ → Prop) (post : α → σ → Prop) : Client Op Res α → σ → Prop
  | .done a, s => post a s
  | .call op next, s => may op s ∧ Makes may post (next (exec op s).1) (exec op s).2

def step : Client Op Res α → σ → Client Op Res α × σ
  | .done a, s => (.done a, s)
  | .call op next, s =>
    let (res, s) := exec op s
    (next res, s)

def op? : Client Op Res α → Option Op
  | .done _ => none
  | .call op _ => some op

@[simp]
theorem run_done (a : α) (s : σ) : (Client.done a : Client Op Res α).run exec s = (a, s) := rfl

@[simp]
theorem run_call (op : Op) (next : Res op → Client Op Res α) (s : σ)
    : (Client.call op next).run exec s = (next (exec op s).1).run exec (exec op s).2 := rfl

theorem run_bind (m : Client Op Res α) (f : α → Client Op Res β) (s : σ)
    : (m >>= f).run exec s = (f (m.run exec s).1).run exec (m.run exec s).2 := by
  induction m generalizing s with
  | done a => rfl
  | call op next ih => exact ih _ _

@[simp]
theorem step_call (op : Op) (next : Res op → Client Op Res α) (s : σ)
    : (Client.call op next).step exec s = (next (exec op s).1, (exec op s).2) := rfl

section

variable {exec} {may : Op → σ → Prop} {post : α → σ → Prop} {s : σ}

theorem Makes.acts {m : Client Op Res α} (h : m.Makes exec may post s)
    : ∀ act ∈ m.acts exec s, may act.1 act.2 := by
  induction m generalizing s with
  | done a => simp [Client.acts]
  | call op next ih =>
    obtain ⟨hmay, hrest⟩ := h
    intro act hact
    rcases List.mem_cons.mp hact with rfl | hact
    . exact hmay
    . exact ih _ hrest act hact

theorem Makes.bind {m : Client Op Res β} {f : β → Client Op Res α}
    (h : m.Makes exec may (fun b t => (f b).Makes exec may post t) s) : (m >>= f).Makes exec may post s := by
  induction m generalizing s with
  | done b => exact h
  | call op next ih => exact ⟨h.1, ih _ h.2⟩

theorem Makes.imp {post' : α → σ → Prop} {m : Client Op Res α} (himp : ∀ a t, post a t → post' a t)
    (h : m.Makes exec may post s) : m.Makes exec may post' s := by
  induction m generalizing s with
  | done a => exact himp a s h
  | call op next ih => exact ⟨h.1, ih _ h.2⟩

end

end Client
