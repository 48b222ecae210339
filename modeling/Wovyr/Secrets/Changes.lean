import Wovyr.Lib.Turns
import Wovyr.Secrets.Sealed

/-!
This module contains the changes of a secret in the order in which they are made, whatever the order of the
steps of the calls. None is lost if no call writes over what it has not read.
-/

namespace Wovyr.Secrets

open EncryptedFileSecretStore List

abbrev System := Service.State Call Op Res Disk Answer

abbrev Turn := Service.Turn Call Op Disk

def Call.isCreate : Call → Bool
  | .create _ _ _ => true
  | _ => false

def Call.isRotate : Call → Bool
  | .rotate _ _ _ => true
  | _ => false

def Call.isDelete : Call → Bool
  | .delete _ _ => true
  | _ => false

structure Change where
  time : Nat
  since : Nat
  call : Call
  after : Option Secret
deriving DecidableEq

section

variable (store : EncryptedFileSecretStore) (k : Key)

def served (s : Disk) : Option Secret :=
  match (store.get k.1 k.2).run s with
  | (.ok o, _) => o
  | (.error _, _) => none

def changes? (s : Disk) : Op → Bool
  | .get _ _ => false
  | .put secret => decide (secret.key = k) && ((store.put secret).run s).1.isOk
  | .delete ns name =>
    decide ((ns, name) = k)
      && match ((delete ns name).run s).1 with
        | .ok existed => existed
        | .error _ => false

def change? (t : Turn) : Option Change :=
  if changes? store k t.before t.op then
    some ⟨t.time, t.since, t.call, served store k (t.after store.service)⟩
  else
    none

def changes (ts : List Turn) : List Change :=
  ts.filterMap (change? store k)

-- Where a call writes the secret, it is still the one that the call has read.
def Fresh (ts : List Turn) : Prop :=
  ∀ past t later secret, ts = past ++ t :: later → t.op = .put secret → secret.key = k →
    ∀ u ∈ Service.turnsOf past t.since, served store k u.before = served store k t.before

/--
The changes of a secret, of which a call that succeeded made one while it was served: a secret is created
once until it is deleted, a rotation has a version of its own and keeps the value before it, and what is
deleted is gone until it is created.
-/
structure Unlost (s : System) (ts : List Turn) : Prop where
  answered : ∀ j i c r now, s.history[j]? = some ⟨.returned i c (.ok r), now⟩ → c.key = k →
    r ≠ .deleted false → ∃ x ∈ changes store k ts, x.since = i ∧ x.call = c ∧ i < x.time ∧ x.time ≤ j
      ∧ ∀ m, r = .metadata m → ∃ secret, x.after = some secret ∧ secret.metadata = m
  timed : ((changes store k ts).map Change.time).Pairwise (· ≤ ·)
  created : ∀ x between y, x :: between ++ [y] <:+: changes store k ts → x.call.isCreate = true →
    y.call.isCreate = true → ∃ z ∈ between, z.call.isDelete = true
  rising : ∀ x between y, x :: between ++ [y] <:+: changes store k ts → y.call.isRotate = true →
    (∀ z ∈ x :: between, z.call.isDelete = false) →
    ∃ old new, x.after = some old ∧ y.after = some new ∧ old.version < new.version
  rotated : ∀ before y later tenant name value, changes store k ts = before ++ y :: later →
    y.call = .rotate tenant name value → ∃ x old new, before.getLast? = some x ∧ x.after = some old
      ∧ y.after = some new ∧ new.value = value ∧ new.previous = some old.value
  deleted : ∀ x ∈ changes store k ts, x.call.isDelete = true → x.after = none
  gone : ∀ x y, [x, y] <:+: changes store k ts → x.call.isDelete = true → y.call.isCreate = true
  served : served store k s.shared = (changes store k ts).getLast?.bind Change.after

end

def Change.Follows (x : Change) (o : Option Secret) : Prop :=
  match x.call with
  | .create tenant name value => o = none ∧ x.after = some (.new tenant name value)
  | .rotate _ _ newValue => ∃ old new, o = some old ∧ old.rotate newValue = some new ∧ x.after = some new
  | .delete _ _ => (∃ old, o = some old) ∧ x.after = none

def Lawful : Option Secret → List Change → Option Secret → Prop
  | o, [], o' => o = o'
  | o, x :: xs, o' => x.Follows o ∧ Lawful x.after xs o'

section

variable {o o' : Option Secret} {xs ys : List Change} {x y : Change}

theorem lawful_append : Lawful o (xs ++ ys) o' ↔ ∃ m, Lawful o xs m ∧ Lawful m ys o' := by
  induction xs generalizing o with
  | nil => simp [Lawful]
  | cons x xs ih => simp [Lawful, ih, and_assoc]

theorem lawful_infix {zs : List Change} (h : Lawful o xs o') (hzs : zs <:+: xs)
    : ∃ m m', Lawful m zs m' := by
  obtain ⟨before, later, rfl⟩ := hzs
  obtain ⟨m', hbefore, -⟩ := (lawful_append).mp h
  obtain ⟨m, -, hzs⟩ := (lawful_append).mp hbefore
  exact ⟨m, m', hzs⟩

theorem Lawful.last (h : Lawful none xs o) : o = xs.getLast?.bind Change.after := by
  cases xs using reverseRecOn with
  | nil => exact h.symm
  | append_singleton xs x =>
    obtain ⟨m, -, -, rfl⟩ := (lawful_append).mp h
    rw [getLast?_append_of_ne_nil _ (cons_ne_nil _ _)]
    rfl

theorem Secret.rotate_eq {old new : Secret} {value : String} (h : old.rotate value = some new)
    : new.version = old.version + 1 ∧ new.value = value ∧ new.previous = some old.value
      ∧ new.key = old.key := by
  unfold Secret.rotate at h
  split at h
  . cases h
    exact ⟨rfl, rfl, rfl, rfl⟩
  . cases h

theorem Lawful.alive {old : Secret} (h : Lawful (some old) xs o)
    (hdelete : ∀ z ∈ xs, z.call.isDelete = false) : ∃ new, o = some new ∧ old.version ≤ new.version := by
  induction xs generalizing old with
  | nil => exact ⟨old, h.symm, Nat.le_refl _⟩
  | cons x xs ih =>
    obtain ⟨hx, hxs⟩ := h
    have hxs' := fun z hz => hdelete z (mem_cons_of_mem _ hz)
    unfold Change.Follows at hx
    split at hx
    . cases hx.1
    . obtain ⟨_, next, ⟨⟩, hrotate, hafter⟩ := hx
      rw [hafter] at hxs
      obtain ⟨new, ho, hle⟩ := ih hxs hxs'
      have hversion := (Secret.rotate_eq hrotate).1
      exact ⟨new, ho, by omega⟩
    . next hcall =>
      have hx := hdelete x mem_cons_self
      rw [hcall] at hx
      cases hx

theorem Lawful.created {between : List Change} (h : Lawful o (x :: between ++ [y]) o')
    (hx : x.call.isCreate = true) (hy : y.call.isCreate = true)
    : ∃ z ∈ between, z.call.isDelete = true := by
  obtain ⟨m, ⟨hfollows, hbetween⟩, hlast, -⟩ := (lawful_append).mp h
  by_contra hnone
  cases hcall : x.call with
  | rotate _ _ _ | delete _ _ =>
    rw [hcall] at hx
    cases hx
  | create tenant name value =>
    unfold Change.Follows at hfollows
    rw [hcall] at hfollows
    rw [hfollows.2] at hbetween
    have halive := hbetween.alive fun z hz => by
      by_contra hdelete
      exact hnone ⟨z, hz, by simpa using hdelete⟩
    obtain ⟨new, rfl, -⟩ := halive
    cases hcall' : y.call with
    | rotate _ _ _ | delete _ _ =>
      rw [hcall'] at hy
      cases hy
    | create _ _ _ =>
      unfold Change.Follows at hlast
      rw [hcall'] at hlast
      cases hlast.1

theorem Lawful.rising {between : List Change} (h : Lawful o (x :: between ++ [y]) o')
    (hy : y.call.isRotate = true) (hdelete : ∀ z ∈ x :: between, z.call.isDelete = false)
    : ∃ old new, x.after = some old ∧ y.after = some new ∧ old.version < new.version := by
  obtain ⟨m, ⟨hfollows, hbetween⟩, hlast, -⟩ := (lawful_append).mp h
  obtain ⟨old, hold⟩ : ∃ old, x.after = some old := by
    unfold Change.Follows at hfollows
    split at hfollows
    . exact ⟨_, hfollows.2⟩
    . obtain ⟨_, new, -, -, hafter⟩ := hfollows
      exact ⟨new, hafter⟩
    . next hcall =>
      have hx := hdelete x mem_cons_self
      rw [hcall] at hx
      cases hx
  rw [hold] at hbetween
  obtain ⟨mid, rfl, hle⟩ := hbetween.alive fun z hz => hdelete z (mem_cons_of_mem _ hz)
  cases hcall : y.call with
  | create _ _ _ | delete _ _ =>
    rw [hcall] at hy
    cases hy
  | rotate _ _ value =>
    unfold Change.Follows at hlast
    rw [hcall] at hlast
    obtain ⟨_, new, ⟨⟩, hrotate, hafter⟩ := hlast
    have hversion := (Secret.rotate_eq hrotate).1
    exact ⟨old, new, hold, hafter, by omega⟩

theorem Lawful.rotated {before later : List Change} {tenant name value : String}
    (h : Lawful none (before ++ y :: later) o) (hcall : y.call = .rotate tenant name value)
    : ∃ x old new, before.getLast? = some x ∧ x.after = some old ∧ y.after = some new
      ∧ new.value = value ∧ new.previous = some old.value := by
  obtain ⟨m, hbefore, hfollows, -⟩ := (lawful_append).mp h
  unfold Change.Follows at hfollows
  rw [hcall] at hfollows
  obtain ⟨old, new, rfl, hrotate, hafter⟩ := hfollows
  obtain ⟨x, hx, hold⟩ := Option.bind_eq_some_iff.mp hbefore.last.symm
  obtain ⟨-, hvalue, hprevious, -⟩ := Secret.rotate_eq hrotate
  exact ⟨x, old, new, hx, hold, hafter, hvalue, hprevious⟩

theorem Change.Follows.deleted (h : x.Follows o) (hx : x.call.isDelete = true) : x.after = none := by
  unfold Change.Follows at h
  split at h
  . next hcall =>
    rw [hcall] at hx
    cases hx
  . next hcall =>
    rw [hcall] at hx
    cases hx
  . exact h.2

theorem Lawful.gone (h : Lawful o [x, y] o') (hx : x.call.isDelete = true) : y.call.isCreate = true := by
  obtain ⟨hfollows, hlast, -⟩ := h
  rw [hfollows.deleted hx] at hlast
  unfold Change.Follows at hlast
  split at hlast
  . next hcall => simp [hcall, Call.isCreate]
  . obtain ⟨_, _, hold, -⟩ := hlast
    cases hold
  . obtain ⟨⟨_, hold⟩, -⟩ := hlast
    cases hold

end

section

variable {store : EncryptedFileSecretStore} {k : Key} {ts us : List Turn} {t : Turn}

def written (secret : Secret) : Except (Option Error) Unit → Client Op Res Answer
  | .ok () => .done (.ok (.metadata secret.metadata))
  | .error e => .done (.error e)

theorem SecretRef.new_eq (ns name : String)
    : (∃ e, SecretRef.new ns name = .error e) ∨ SecretRef.new ns name = .ok ⟨ns, name⟩ := by
  unfold SecretRef.new
  split
  . exact Or.inl ⟨_, rfl⟩
  . split
    . exact Or.inl ⟨_, rfl⟩
    . exact Or.inr rfl

theorem prog_create (tenant name value : String)
    : (∃ e, store.service.prog (.create tenant name value) = .done (.error e))
      ∨ store.service.prog (.create tenant name value) = .call (.get tenant name) fun
        | .ok none => .call (.put (.new tenant name value)) (written (.new tenant name value))
        | .ok (some _) =>
          .done (.error (some (.conflict s!"secret `{(SecretRef.mk tenant name).display}` already exists")))
        | .error e => .done (.error e) := by
  show (∃ e, (Reply.metadata <$> Vault.create tenant name value).run = .done (.error e))
    ∨ (Reply.metadata <$> Vault.create tenant name value).run = _
  unfold Vault.create
  rcases SecretRef.new_eq tenant name with ⟨e, hnew⟩ | hnew
  . rw [hnew]
    exact Or.inl ⟨_, rfl⟩
  . rw [hnew]
    right
    refine congrArg (Client.call (Op.get tenant name)) (funext fun res => ?_)
    rcases res with e | old | old
    . rfl
    . refine congrArg (Client.call (Op.put (.new tenant name value))) (funext fun res => ?_)
      cases res with
      | ok u => rfl
      | error e => rfl
    . rfl

theorem prog_rotate (tenant name newValue : String)
    : store.service.prog (.rotate tenant name newValue) = .call (.get tenant name) fun
      | .ok none =>
        .done (.error (some (.notFound s!"secret `secret://{tenant}/{name}` not found")))
      | .ok (some old) =>
        match old.rotate newValue with
        | some new => .call (.put new) (written new)
        | none => .done (.error none)
      | .error e => .done (.error e) := by
  refine congrArg (Client.call (Op.get tenant name)) (funext fun res => ?_)
  rcases res with e | old | old
  . rfl
  . rfl
  . dsimp only
    cases hnew : old.rotate newValue with
    | none =>
      show ((Reply.metadata <$> do
        let secret ← orPanic (old.rotate newValue)
        Store.put secret
        return secret.metadata : Action Reply).run) = _
      rw [hnew]
      rfl
    | some new =>
      show ((Reply.metadata <$> do
        let secret ← orPanic (old.rotate newValue)
        Store.put secret
        return secret.metadata : Action Reply).run) = _
      rw [hnew]
      refine congrArg (Client.call (Op.put new)) (funext fun res => ?_)
      cases res with
      | ok u => rfl
      | error e => rfl

theorem prog_delete (tenant name : String)
    : store.service.prog (.delete tenant name) = .call (.delete tenant name) fun
      | .ok existed => .done (.ok (.deleted existed))
      | .error e => .done (.error e) := by
  refine congrArg (Client.call (Op.delete tenant name)) (funext fun res => ?_)
  cases res with
  | ok existed => rfl
  | error e => rfl

theorem follows_done {op : Op} {next : Res op → Client Op Res Answer} {a : Answer}
    (h : store.service.Follows (.call op next) ts (.done a)) : False := by
  cases ts with
  | nil => cases h
  | cons t ts => exact h

theorem follows_written {op : Op} {next : Res op → Client Op Res Answer} {new : Secret}
    (h : store.service.Follows (.call op next) ts (.call (.put new) (written new))) : ts = [] ∧ op = .put new := by
  cases ts with
  | nil =>
    cases h
    exact ⟨rfl, rfl⟩
  | cons t ts =>
    obtain ⟨-, hrest⟩ := h
    generalize (store.service.exec (.put new) t.before).1 = res at hrest
    cases res with
    | ok u => exact (follows_done hrest).elim
    | error e => exact (follows_done hrest).elim

structure Writes (store : EncryptedFileSecretStore) (c : Call) (u : Turn) (secret : Secret) : Prop where
  read : u.op = .get c.key.1 c.key.2
  wrote : (∃ tenant name value, c = .create tenant name value ∧ secret = .new tenant name value
      ∧ ((store.get c.key.1 c.key.2).run u.before).1 = .ok none)
    ∨ ∃ tenant name value old, c = .rotate tenant name value ∧ old.rotate value = some secret
      ∧ ((store.get c.key.1 c.key.2).run u.before).1 = .ok (some old)

theorem writes_of_follows {c : Call} {secret : Secret} {next : Res (.put secret) → Client Op Res Answer}
    (h : store.service.Follows (.call (.put secret) next) ts (store.service.prog c))
    : ∃ u, ts = [u] ∧ Writes store c u secret := by
  cases c with
  | create tenant name value =>
    rcases @prog_create store tenant name value with ⟨e, hprog⟩ | hprog
    . rw [hprog] at h
      exact (follows_done h).elim
    . rw [hprog] at h
      cases ts with
      | nil => cases h
      | cons u ts =>
        obtain ⟨hop, hrest⟩ := h
        cases hres : (store.service.exec (.get tenant name) u.before).1 with
        | error e =>
          rw [hres] at hrest
          exact (follows_done hrest).elim
        | ok o =>
          rw [hres] at hrest
          cases o with
          | some old => exact (follows_done hrest).elim
          | none =>
            obtain ⟨rfl, heq⟩ := follows_written hrest
            cases heq
            exact ⟨u, rfl, hop, Or.inl ⟨tenant, name, value, rfl, rfl, hres⟩⟩
  | rotate tenant name value =>
    rw [prog_rotate] at h
    cases ts with
    | nil => cases h
    | cons u ts =>
      obtain ⟨hop, hrest⟩ := h
      cases hres : (store.service.exec (.get tenant name) u.before).1 with
      | error e =>
        rw [hres] at hrest
        exact (follows_done hrest).elim
      | ok o =>
        rw [hres] at hrest
        cases o with
        | none => exact (follows_done hrest).elim
        | some old =>
          dsimp only at hrest
          cases hnew : old.rotate value with
          | none =>
            rw [hnew] at hrest
            exact (follows_done hrest).elim
          | some new =>
            rw [hnew] at hrest
            obtain ⟨rfl, heq⟩ := follows_written hrest
            cases heq
            exact ⟨u, rfl, hop, Or.inr ⟨tenant, name, value, old, rfl, hnew, hres⟩⟩
  | delete tenant name =>
    rw [prog_delete] at h
    cases ts with
    | nil => cases h
    | cons u ts =>
      obtain ⟨-, hrest⟩ := h
      generalize (store.service.exec (.delete tenant name) u.before).1 = res at hrest
      cases res with
      | ok existed => exact (follows_done hrest).elim
      | error e => exact (follows_done hrest).elim

inductive Succeeds (store : EncryptedFileSecretStore) (c : Call) (t : Turn) : Reply → Prop where
  | put (secret : Secret) (h : t.op = .put secret) (hok : ((store.put secret).run t.before).1 = .ok ())
    : Succeeds store c t (.metadata secret.metadata)
  | delete (existed : Bool) (h : t.op = .delete c.key.1 c.key.2)
    (hok : ((delete c.key.1 c.key.2).run t.before).1 = .ok existed)
    : Succeeds store c t (.deleted existed)

theorem follows_ok_done {r : Reply} {a : Answer} (h : store.service.Follows (.done (.ok r)) ts (.done a))
    : ts = [] ∧ a = .ok r := by
  cases ts with
  | nil =>
    cases h
    exact ⟨rfl, rfl⟩
  | cons t ts => exact h.elim

theorem succeeds_written {c : Call} {r : Reply} {new : Secret}
    (h : store.service.Follows (.done (.ok r)) ts (.call (.put new) (written new)))
    : ∃ t, ts = [t] ∧ Succeeds store c t r := by
  cases ts with
  | nil => cases h
  | cons t ts =>
    obtain ⟨hop, hrest⟩ := h
    cases hres : (store.service.exec (.put new) t.before).1 with
    | error e =>
      rw [hres] at hrest
      obtain ⟨-, heq⟩ := follows_ok_done hrest
      cases heq
    | ok u =>
      rw [hres] at hrest
      obtain ⟨rfl, heq⟩ := follows_ok_done hrest
      cases heq
      exact ⟨t, rfl, .put new hop hres⟩

theorem succeeds_of_follows {c : Call} {r : Reply}
    (h : store.service.Follows (.done (.ok r)) ts (store.service.prog c))
    : ∃ past t, ts = past ++ [t] ∧ Succeeds store c t r := by
  cases c with
  | create tenant name value =>
    rcases @prog_create store tenant name value with ⟨e, hprog⟩ | hprog
    . rw [hprog] at h
      obtain ⟨-, heq⟩ := follows_ok_done h
      cases heq
    . rw [hprog] at h
      cases ts with
      | nil => cases h
      | cons u ts =>
        obtain ⟨-, hrest⟩ := h
        generalize (store.service.exec (.get tenant name) u.before).1 = res at hrest
        rcases res with e | old | old
        . obtain ⟨-, heq⟩ := follows_ok_done hrest
          cases heq
        . obtain ⟨t, rfl, hsucceeds⟩ := succeeds_written (c := .create tenant name value) hrest
          exact ⟨[u], t, rfl, hsucceeds⟩
        . obtain ⟨-, heq⟩ := follows_ok_done hrest
          cases heq
  | rotate tenant name value =>
    rw [prog_rotate] at h
    cases ts with
    | nil => cases h
    | cons u ts =>
      obtain ⟨-, hrest⟩ := h
      generalize (store.service.exec (.get tenant name) u.before).1 = res at hrest
      rcases res with e | old | old
      . obtain ⟨-, heq⟩ := follows_ok_done hrest
        cases heq
      . obtain ⟨-, heq⟩ := follows_ok_done hrest
        cases heq
      . dsimp only at hrest
        cases hnew : old.rotate value with
        | none =>
          rw [hnew] at hrest
          obtain ⟨-, heq⟩ := follows_ok_done hrest
          cases heq
        | some new =>
          rw [hnew] at hrest
          obtain ⟨t, rfl, hsucceeds⟩ := succeeds_written (c := .rotate tenant name value) hrest
          exact ⟨[u], t, rfl, hsucceeds⟩
  | delete tenant name =>
    rw [prog_delete] at h
    cases ts with
    | nil => cases h
    | cons t ts =>
      obtain ⟨hop, hrest⟩ := h
      cases hres : (store.service.exec (.delete tenant name) t.before).1 with
      | error e =>
        rw [hres] at hrest
        obtain ⟨-, heq⟩ := follows_ok_done hrest
        cases heq
      | ok existed =>
        rw [hres] at hrest
        obtain ⟨rfl, heq⟩ := follows_ok_done hrest
        cases heq
        exact ⟨[], t, rfl, .delete existed hop hres⟩

theorem served_eq {s : Disk} (h : s.Sound store) : served store k s = s.secret k := by
  unfold served
  rw [run_get h]

theorem secret_key {s : Disk} {secret : Secret} (h : s.Sound store) (hsecret : s.secret k = some secret)
    : secret.key = k := by
  obtain ⟨r, hr, rfl⟩ := Option.map_eq_some_iff.mp hsecret
  exact (h.opens k r hr).1

theorem Writes.key {c : Call} {u : Turn} {secret : Secret} (h : Writes store c u secret)
    (hsound : u.before.Sound store) : secret.key = c.key := by
  rcases h.wrote with ⟨tenant, name, value, rfl, rfl, -⟩ | ⟨tenant, name, value, old, rfl, hrotate, hget⟩
  . rfl
  . rw [run_get hsound (Call.key _)] at hget
    rw [(Secret.rotate_eq hrotate).2.2.2]
    exact secret_key hsound (Except.ok.inj hget)

theorem sound_after {t : Turn} (h : t.before.Sound store) : (t.after store.service).Sound store := by
  unfold Service.Turn.after
  show (store.exec t.op t.before).2.Sound store
  cases t.op with
  | get ns name =>
    show ((store.get ns name).run t.before).2.Sound store
    rw [run_get h (ns, name)]
    exact h
  | put secret =>
    obtain ⟨out, s, hrun, hput⟩ := run_put h secret
    show ((store.put secret).run t.before).2.Sound store
    rw [hrun]
    rcases hput with ⟨-, hputs⟩ | ⟨-, hsound, -⟩
    . exact hputs.sound
    . exact hsound
  | delete ns name =>
    obtain ⟨s, hrun, hputs⟩ := run_delete h (ns, name)
    show ((delete ns name).run t.before).2.Sound store
    rw [hrun]
    exact hputs.sound

theorem sound_chained {s s' : Disk} (h : store.service.Chained s ts s') (hs : s.Sound store)
    : s'.Sound store ∧ ∀ t ∈ ts, t.before.Sound store := by
  induction ts generalizing s with
  | nil =>
    cases h
    exact ⟨hs, by simp⟩
  | cons t ts ih =>
    obtain ⟨rfl, hts⟩ := h
    obtain ⟨hend, hall⟩ := ih hts (sound_after hs)
    refine ⟨hend, ?_⟩
    intro u hu
    rcases mem_cons.mp hu with rfl | hu
    . exact hs
    . exact hall u hu

theorem sound_start : Disk.Sound store {} := by
  constructor
  . intro tenant r hr
    simp [Kms.Disk.record] at hr
  . intro k r hr
    simp at hr

theorem lawful_snoc {o m : Option Secret} {xs : List Change} {x : Change} (h : Lawful o xs m)
    (hx : x.Follows m) : Lawful o (xs ++ [x]) x.after :=
  (lawful_append).mpr ⟨m, h, hx, rfl⟩

theorem changes_snoc : changes store k (ts ++ [t]) = changes store k ts ++ (change? store k t).toList := by
  unfold changes
  rw [filterMap_append]
  cases h : change? store k t <;> simp [h]

theorem changes?_put {s t : Disk} {secret : Secret} {out : Except (Option Error) Unit}
    (h : (store.put secret).run s = (out, t))
    : changes? store k s (.put secret) = (decide (secret.key = k) && out.isOk) := by
  show (decide (secret.key = k) && ((store.put secret).run s).1.isOk) = _
  rw [h]

theorem changes?_delete {s t : Disk} {ns name : String} {existed : Bool}
    (h : (delete ns name).run s = (.ok existed, t))
    : changes? store k s (.delete ns name) = (decide ((ns, name) = k) && existed) := by
  show (decide ((ns, name) = k)
    && match ((delete ns name).run s).1 with
      | .ok existed => existed
      | .error _ => false) = _
  rw [h]

theorem lawful_turn {past : List Turn}
    (hlawful : Lawful none (changes store k past) (t.before.secret k))
    (hsound : t.before.Sound store)
    (hput : ∀ secret, t.op = .put secret → ∃ u, Writes store t.call u secret ∧ u.before.Sound store
      ∧ (secret.key = k → served store k u.before = served store k t.before))
    (hdelete : ∀ ns name, t.op = .delete ns name → t.call = .delete ns name)
    : Lawful none (changes store k (past ++ [t])) ((t.after store.service).secret k) := by
  have hsame (hnone : changes? store k t.before t.op = false)
      (hsecret : (t.after store.service).secret k = t.before.secret k)
      : Lawful none (changes store k (past ++ [t])) ((t.after store.service).secret k) := by
    rw [changes_snoc, hsecret]
    unfold change?
    rw [hnone]
    simpa using hlawful
  have hchange (hsome : changes? store k t.before t.op = true)
      (hfollows : ∀ x : Change, x.call = t.call → x.after = (t.after store.service).secret k →
        x.Follows (t.before.secret k))
      : Lawful none (changes store k (past ++ [t])) ((t.after store.service).secret k) := by
    rw [changes_snoc]
    unfold change?
    rw [hsome, served_eq (sound_after hsound)]
    exact lawful_snoc hlawful (hfollows _ rfl rfl)
  have hafter : t.after store.service = (store.exec t.op t.before).2 := rfl
  cases hop : t.op with
  | get ns name =>
    apply hsame
    . rw [hop]
      rfl
    . rw [hafter, hop]
      show ((store.get ns name).run t.before).2.secret k = _
      rw [run_get hsound (ns, name)]
  | put secret =>
    obtain ⟨out, s, hrun, hout⟩ := run_put hsound secret
    have hs : t.after store.service = s := by
      rw [hafter, hop]
      show ((store.put secret).run t.before).2 = s
      rw [hrun]
    rcases hout with ⟨rfl, hputs⟩ | ⟨⟨e, rfl⟩, -, hsecret⟩
    . by_cases hkey : secret.key = k
      . apply hchange
        . rw [hop, changes?_put hrun]
          simp [hkey, Except.isOk, Except.toBool]
        . intro x hcall hx
          rw [hs, hputs.secret, if_pos hkey] at hx
          obtain ⟨u, hwrites, husound, hfresh⟩ := hput secret hop
          have hread : ((store.get t.call.key.1 t.call.key.2).run u.before).1 = .ok (t.before.secret k) := by
            rw [run_get husound, ← hwrites.key husound, hkey, ← served_eq hsound, ← served_eq husound,
              hfresh hkey]
          unfold Change.Follows
          rw [hcall]
          rcases hwrites.wrote with ⟨tenant, name, value, hc, rfl, hget⟩ | ⟨tenant, name, value, old, hc, hrotate, hget⟩
          . rw [hget] at hread
            rw [hc]
            exact ⟨(Except.ok.inj hread).symm, hx⟩
          . rw [hget] at hread
            rw [hc]
            exact ⟨old, secret, (Except.ok.inj hread).symm, hrotate, hx⟩
      . apply hsame
        . rw [hop, changes?_put hrun]
          simp [hkey]
        . rw [hs, hputs.secret, if_neg hkey]
    . apply hsame
      . rw [hop, changes?_put hrun]
        simp [Except.isOk, Except.toBool]
      . rw [hs, hsecret]
  | delete ns name =>
    obtain ⟨s, hrun, hputs⟩ := run_delete hsound (ns, name)
    have hs : t.after store.service = s := by
      rw [hafter, hop]
      show ((delete ns name).run t.before).2 = s
      rw [hrun]
    have hcall := hdelete ns name hop
    by_cases hkey : (ns, name) = k
    . cases hexisted : t.before.secret k with
      | some old =>
        apply hchange
        . rw [hop, changes?_delete hrun]
          rw [hkey, hexisted]
          simp
        . intro x hx hxafter
          rw [hs, hputs.secret, if_pos hkey] at hxafter
          unfold Change.Follows
          rw [hx, hcall]
          exact ⟨⟨old, hexisted⟩, hxafter⟩
      | none =>
        apply hsame
        . rw [hop, changes?_delete hrun]
          rw [hkey, hexisted]
          simp
        . rw [hs, hputs.secret, if_pos hkey, hexisted]
    . apply hsame
      . rw [hop, changes?_delete hrun]
        simp [hkey]
      . rw [hs, hputs.secret, if_neg hkey]

theorem delete_of_follows {c : Call} {ns name : String} {next : Res (.delete ns name) → Client Op Res Answer}
    (h : store.service.Follows (.call (.delete ns name) next) ts (store.service.prog c))
    : c = .delete ns name := by
  cases c with
  | create tenant n value =>
    rcases @prog_create store tenant n value with ⟨e, hprog⟩ | hprog
    . rw [hprog] at h
      exact (follows_done h).elim
    . rw [hprog] at h
      cases ts with
      | nil => cases h
      | cons u ts =>
        obtain ⟨-, hrest⟩ := h
        generalize (store.service.exec (.get tenant n) u.before).1 = res at hrest
        rcases res with e | old | old
        . exact (follows_done hrest).elim
        . cases (follows_written hrest).2
        . exact (follows_done hrest).elim
  | rotate tenant n value =>
    rw [prog_rotate] at h
    cases ts with
    | nil => cases h
    | cons u ts =>
      obtain ⟨-, hrest⟩ := h
      generalize (store.service.exec (.get tenant n) u.before).1 = res at hrest
      rcases res with e | old | old
      . exact (follows_done hrest).elim
      . exact (follows_done hrest).elim
      . dsimp only at hrest
        cases hnew : old.rotate value with
        | none =>
          rw [hnew] at hrest
          exact (follows_done hrest).elim
        | some new =>
          rw [hnew] at hrest
          cases (follows_written hrest).2
  | delete tenant n =>
    rw [prog_delete] at h
    cases ts with
    | nil =>
      cases h
      rfl
    | cons u ts =>
      obtain ⟨-, hrest⟩ := h
      generalize (store.service.exec (.delete tenant n) u.before).1 = res at hrest
      cases res with
      | ok existed => exact (follows_done hrest).elim
      | error e => exact (follows_done hrest).elim

section

variable {s : System}

theorem follows_before (h : Service.Traced store.service s ts) {past later : List Turn}
    (hts : ts = past ++ t :: later) {op : Op} (hop : t.op = op)
    : ∃ next, store.service.Follows (.call op next) (Service.turnsOf past t.since)
      (store.service.prog t.call) := by
  obtain ⟨-, -, hcalled⟩ := h.turns t (by simp [hts])
  obtain ⟨rest, hfollows⟩ := h.followed t.since t.call hcalled
  rw [hts, Service.turnsOf_split] at hfollows
  obtain ⟨next, hpast, -⟩ := hfollows.split hop
  exact ⟨next, hpast⟩

theorem lawful_chained (h : Service.Traced store.service s ts) (hfresh : Fresh store k ts) {past later : List Turn}
    {u : Disk} (hts : ts = past ++ later) (hpast : store.service.Chained {} past u)
    : Lawful none (changes store k past) (u.secret k) := by
  induction past using reverseRecOn generalizing later u with
  | nil =>
    cases hpast
    simp [changes, Lawful, Disk.secret]
  | append_singleton past t ih =>
    obtain ⟨hbefore, rfl⟩ := (Service.chained_snoc).mp hpast
    rw [append_assoc, singleton_append] at hts
    obtain ⟨hsound, hsounds⟩ := sound_chained hbefore sound_start
    apply lawful_turn (ih hts hbefore) hsound
    . intro secret hop
      obtain ⟨next, hfollows⟩ := follows_before h hts hop
      obtain ⟨u, hu, hwrites⟩ := writes_of_follows hfollows
      have hmem : u ∈ Service.turnsOf past t.since := by
        rw [hu]
        exact mem_singleton_self u
      refine ⟨u, hwrites, hsounds u ((Service.mem_turnsOf).mp hmem).1, ?_⟩
      intro hkey
      exact hfresh past t later secret hts hop hkey u hmem
    . intro ns name hop
      obtain ⟨next, hfollows⟩ := follows_before h hts hop
      exact delete_of_follows hfollows

theorem change?_time {x : Change} (h : change? store k t = some x) : x.time = t.time := by
  unfold change? at h
  split at h
  . cases h
    rfl
  . cases h

theorem Succeeds.change {c : Call} {r : Reply} (h : Succeeds store c t r) (hsound : t.before.Sound store)
    (hput : ∀ secret, t.op = .put secret → secret.key = c.key) (hr : r ≠ .deleted false)
    : ∃ x, change? store c.key t = some x ∧ x.since = t.since ∧ x.call = t.call ∧ x.time = t.time
      ∧ ∀ m, r = .metadata m → ∃ secret, x.after = some secret ∧ secret.metadata = m := by
  have hchange (hsome : changes? store c.key t.before t.op = true)
      : change? store c.key t
        = some ⟨t.time, t.since, t.call, (t.after store.service).secret c.key⟩ := by
    unfold change?
    rw [hsome, served_eq (sound_after hsound)]
    rfl
  cases h with
  | put secret hop hok =>
    obtain ⟨out, s, hrun, hout⟩ := run_put hsound secret
    rw [hrun] at hok
    dsimp only at hok
    subst hok
    have hkey := hput secret hop
    refine ⟨_, hchange ?_, rfl, rfl, rfl, ?_⟩
    . rw [hop, changes?_put hrun]
      simp [hkey, Except.isOk, Except.toBool]
    . rintro _ ⟨⟩
      rcases hout with ⟨-, hputs⟩ | ⟨⟨e, he⟩, -⟩
      . have hs : t.after store.service = s := by
          unfold Service.Turn.after
          rw [hop]
          show ((store.put secret).run t.before).2 = s
          rw [hrun]
        refine ⟨secret, ?_, rfl⟩
        rw [hs, hputs.secret, if_pos hkey]
      . cases he
  | delete existed hop hok =>
    have hexisted : existed = true := by
      cases existed with
      | true => rfl
      | false => exact absurd rfl hr
    subst hexisted
    refine ⟨_, hchange ?_, rfl, rfl, rfl, by simp⟩
    rw [hop, changes?_delete (Prod.ext hok rfl)]
    simp

/--
If every call writes a secret only as long as it is still the one that the call has read, no change of it is
lost, whatever the order of the steps of the calls.
-/
theorem unlost (store : EncryptedFileSecretStore) (k : Key) (moves : List (Service.Move Call))
    (hfresh : Fresh store k (store.service.turns { shared := {} } moves))
    : Unlost store k (store.service.run { shared := {} } moves)
        (store.service.turns { shared := {} } moves) := by
  have htraced := Service.traced_run (@Service.Traced.start _ _ _ _ _ store.service {}) moves
  have hchain := @Service.chained_run _ _ _ _ _ store.service { shared := {} } moves
  rw [nil_append] at htraced
  generalize hts : store.service.turns { shared := {} } moves = ts at *
  obtain ⟨hsound, hsounds⟩ := sound_chained hchain sound_start
  have hlawful := lawful_chained htraced hfresh (append_nil ts).symm hchain
  constructor
  . rintro j i c r now hentry rfl hr
    obtain ⟨hcalled, -, hfollows, htime⟩ := htraced.answered j i c _ now hentry
    obtain ⟨past, t, hpast, hsucceeds⟩ := succeeds_of_follows hfollows
    have hmem : t ∈ Service.turnsOf ts i := by
      rw [hpast]
      exact mem_append_right _ (mem_singleton_self t)
    obtain ⟨ht, hsince⟩ := (Service.mem_turnsOf).mp hmem
    obtain ⟨hlt, -, hcalled'⟩ := htraced.turns t ht
    rw [hsince] at hlt hcalled'
    have hcall := hcalled'.unique hcalled
    obtain ⟨x, hx, hxsince, hxcall, hxtime, hmetadata⟩ := hsucceeds.change (hsounds t ht)
      (fun secret hop => by
        rw [hpast] at hfollows
        obtain ⟨next, hbefore, -⟩ := hfollows.split hop
        obtain ⟨u, rfl, hwrites⟩ := writes_of_follows hbefore
        have hu : u ∈ Service.turnsOf ts i := by
          rw [hpast]
          exact mem_append_left _ (mem_singleton_self u)
        exact hwrites.key (hsounds u ((Service.mem_turnsOf).mp hu).1)) hr
    refine ⟨x, mem_filterMap.mpr ⟨t, ht, hx⟩, hxsince.trans hsince, hxcall.trans hcall, ?_, ?_, hmetadata⟩
    . rw [hxtime]
      exact hlt
    . rw [hxtime]
      exact htime t hmem
  . unfold changes
    rw [pairwise_map, pairwise_filterMap]
    apply (pairwise_map.mp htraced.timed).imp
    intro t u hle x hx y hy
    rw [change?_time hx, change?_time hy]
    exact hle
  . intro x between y hwithin hx hy
    obtain ⟨m, m', h⟩ := lawful_infix hlawful hwithin
    exact h.created hx hy
  . intro x between y hwithin hy hdelete
    obtain ⟨m, m', h⟩ := lawful_infix hlawful hwithin
    exact h.rising hy hdelete
  . intro before y later tenant name value hsplit hcall
    rw [hsplit] at hlawful
    exact hlawful.rotated hcall
  . intro x hx hdelete
    obtain ⟨before, later, hsplit⟩ := append_of_mem hx
    rw [hsplit] at hlawful
    obtain ⟨m, -, hfollows, -⟩ := (lawful_append).mp hlawful
    exact hfollows.deleted hdelete
  . intro x y hwithin hx
    obtain ⟨m, m', h⟩ := lawful_infix hlawful hwithin
    exact h.gone hx
  . rw [served_eq hsound]
    exact hlawful.last

end

def Op.secret? : Op → Option Secret
  | .put secret => some secret
  | _ => none

theorem fresh_of_all (h : ∀ n : Fin ts.length, ∀ secret ∈ ts[n].op.secret?, secret.key = k →
      ∀ u ∈ Service.turnsOf (ts.take n) ts[n].since, served store k u.before = served store k ts[n].before)
    : Fresh store k ts := by
  rintro past t later secret rfl hop
  have hpast := h ⟨past.length, by simp⟩ secret
  simpa [hop, Op.secret?] using hpast

end

-- Two rotations are under way at once, and another secret is created between the read and the write of one.
def overlapping : List (Service.Move Call) :=
  [.call (.create "acme" "token" "v1"), .step 0, .step 0, .ret 0, .call (.rotate "acme" "token" "v2"),
    .call (.rotate "acme" "token" "v3"), .call (.create "acme" "other" "w"), .step 1, .step 2, .step 2, .step 1,
    .step 0, .step 0, .ret 2, .ret 1, .ret 0, .call (.delete "acme" "token"), .step 0, .ret 0]

theorem unlost_overlapping
    : Unlost ⟨⟨.root⟩⟩ ("acme", "token")
        ((mk ⟨.root⟩).service.run { shared := {} } overlapping)
        ((mk ⟨.root⟩).service.turns { shared := {} } overlapping) := by
  apply unlost
  apply fresh_of_all
  decide

def atOnce : List (Service.Move Call) :=
  [.call (.create "acme" "token" "v1"), .step 0, .step 0, .ret 0, .call (.rotate "acme" "token" "v2"),
    .call (.rotate "acme" "token" "v3"), .step 0, .step 1, .step 0, .step 1, .ret 0, .ret 0]

theorem changes_at_once
    : changes ⟨⟨.root⟩⟩ ("acme", "token")
        ((mk ⟨.root⟩).service.turns { shared := {} } atOnce)
      = [⟨1, 0, .create "acme" "token" "v1", some ⟨"acme", "token", "v1", none, 1⟩⟩,
        ⟨4, 2, .rotate "acme" "token" "v2", some ⟨"acme", "token", "v2", some "v1", 2⟩⟩,
        ⟨4, 3, .rotate "acme" "token" "v3", some ⟨"acme", "token", "v3", some "v1", 2⟩⟩] := by
  decide

theorem not_unlost_at_once
    : ¬Unlost ⟨⟨.root⟩⟩ ("acme", "token")
        ((mk ⟨.root⟩).service.run { shared := {} } atOnce)
        ((mk ⟨.root⟩).service.turns { shared := {} } atOnce) := by
  intro h
  have hrising := h.rising ⟨4, 2, .rotate "acme" "token" "v2", some ⟨"acme", "token", "v2", some "v1", 2⟩⟩ []
    ⟨4, 3, .rotate "acme" "token" "v3", some ⟨"acme", "token", "v3", some "v1", 2⟩⟩
  rw [changes_at_once] at hrising
  obtain ⟨old, new, hold, hnew, hlt⟩ := hrising (suffix_cons _ _).isInfix rfl (by simp [Call.isDelete])
  cases hold
  cases hnew
  exact Nat.lt_irrefl _ hlt

end Wovyr.Secrets
