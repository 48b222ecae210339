import Wovyr.Secrets.Vault

/-!
This module relates the store that seals the secrets to a map of secrets: what was put can be read, as long
as nobody destroys a key, and the other secrets stay what they are.
-/

namespace Wovyr.Secrets

open EncryptedFileSecretStore

def EncryptedRecord.plain (record : EncryptedRecord) : Secret where
  ns := record.ns
  name := record.name
  value := record.sealedValue.sealedText.plaintext
  previous := record.sealedPrevious.map (·.sealedText.plaintext)
  version := record.version

structure EncryptedRecord.Opens (s : Kms.Disk) (record : EncryptedRecord) : Prop where
  value : Kms.Envelope.Opens s record.ns record.sealedValue
  previous : ∀ p, record.sealedPrevious = some p → Kms.Envelope.Opens s record.ns p

def Secret.key (secret : Secret) : Key :=
  (secret.ns, secret.name)

def Disk.secret (s : Disk) (k : Key) : Option Secret :=
  s.secrets[k]?.map EncryptedRecord.plain

structure Disk.Sound (store : EncryptedFileSecretStore) (s : Disk) : Prop where
  kms : s.kms.Sound store.kms.rootKey fun _ => False
  opens : ∀ (k : Key) r, s.secrets[k]? = some r → (r.ns, r.name) = k ∧ r.Opens s.kms

section

variable {store : EncryptedFileSecretStore} {s : Disk}

theorem EncryptedRecord.Opens.mono {s t : Kms.Disk} {record : EncryptedRecord} (h : record.Opens s)
    (hle : Kms.Grows s t) : record.Opens t :=
  ⟨h.value.mono hle, fun p hp => (h.previous p hp).mono hle⟩

section

variable {α β : Type} {m : Store α} {f : α → Store β} {t : Disk}

theorem run_bind_ok {a : α} (h : m.run s = (.ok a, t)) : (m >>= f).run s = (f a).run t := by
  show ExceptT.bindCont f (m.run s).1 (m.run s).2 = _
  rw [h]
  rfl

theorem run_bind_error {e : Option Error} (h : m.run s = (.error e, t))
    : (m >>= f).run s = (.error e, t) := by
  show ExceptT.bindCont f (m.run s).1 (m.run s).2 = _
  rw [h]
  rfl

end

def Sealing {α : Type} (store : EncryptedFileSecretStore) (s : Disk) (post : α → Kms.Disk → Prop)
    (m : Store α) : Prop :=
  ∃ out kms, m.run s = (out, { s with kms }) ∧ kms.Sound store.kms.rootKey (fun _ => False)
    ∧ Kms.Grows s.kms kms ∧ ∀ a, out = .ok a → post a kms

theorem sealing_bind {α β : Type} {m : Store α} {f : α → Store β} {post : β → Kms.Disk → Prop}
    (h : Sealing store s
      (fun a kms => Kms.Grows s.kms kms → Sealing store { s with kms } post (f a)) m)
    : Sealing store s post (m >>= f) := by
  obtain ⟨out, kms, hrun, hsound, hle, hpost⟩ := h
  cases out with
  | error e => exact ⟨.error e, kms, run_bind_error hrun, hsound, hle, by simp⟩
  | ok a =>
    obtain ⟨out', kms', hrun', hsound', hle', hpost'⟩ := hpost a rfl hle
    exact ⟨out', kms', (run_bind_ok hrun).trans hrun', hsound', hle.trans hle', hpost'⟩

theorem sealing_pure {α : Type} {post : α → Kms.Disk → Prop} {a : α}
    (h : s.kms.Sound store.kms.rootKey fun _ => False) (hpost : post a s.kms)
    : Sealing store s post (pure a) := by
  refine ⟨.ok a, s.kms, rfl, h, Kms.Grows.refl _, ?_⟩
  rintro _ ⟨⟩
  exact hpost

theorem sealing_seal (h : s.kms.Sound store.kms.rootKey fun _ => False) (tenant plaintext : String)
    : Sealing store s
        (fun sd kms => kms.Sound store.kms.rootKey (fun _ => False) ∧ Kms.Envelope.Opens kms tenant sd
          ∧ sd.sealedText.plaintext = plaintext)
        (withKms (Kms.Envelope.sealData store.kms tenant plaintext)) := by
  obtain ⟨hsound, hle, hpost⟩ := (@Kms.Envelope.works_sealData store.kms _ s.kms tenant h plaintext).run h
  exact ⟨_, _, rfl, hsound, hle, fun sd hsd => ⟨hsound, hpost sd hsd⟩⟩

theorem sealing_encrypt (h : s.Sound store) (secret : Secret)
    : Sealing store s (fun r kms => r.plain = secret ∧ r.Opens kms) (store.encrypt secret) := by
  unfold encrypt
  apply sealing_bind
  obtain ⟨out, kms, hrun, hsound, hle, hpost⟩ := sealing_seal h.kms secret.ns secret.value
  refine ⟨out, kms, hrun, hsound, hle, ?_⟩
  rintro sealedValue rfl -
  obtain ⟨-, hvalue, hplain⟩ := hpost sealedValue rfl
  apply sealing_bind
  cases hprevious : secret.previous with
  | none =>
    apply sealing_pure hsound
    intro _
    apply sealing_pure hsound
    constructor
    . simp [EncryptedRecord.plain, hplain, ← hprevious]
    . exact ⟨hvalue, by simp⟩
  | some p =>
    apply sealing_bind
    obtain ⟨out', kms', hrun', hsound', hle', hpost'⟩ :=
      sealing_seal (s := { s with kms }) hsound secret.ns p
    refine ⟨out', kms', hrun', hsound', hle', ?_⟩
    rintro sd rfl -
    obtain ⟨-, hopens, hp⟩ := hpost' sd rfl
    apply sealing_pure hsound'
    intro _
    apply sealing_pure hsound'
    constructor
    . simp [EncryptedRecord.plain, hplain, hp, ← hprevious]
    . refine ⟨hvalue.mono hle', ?_⟩
      rintro _ ⟨⟩
      exact hopens

theorem run_decrypt (h : s.Sound store) {record : EncryptedRecord} (hopens : record.Opens s.kms)
    : (store.decrypt record).run s = (.ok record.plain, s) := by
  have hopen {sd : Kms.Envelope.SealedData} (hsd : Kms.Envelope.Opens s.kms record.ns sd)
      : (withKms (Kms.Envelope.openData store.kms record.ns sd)).run s
        = (.ok sd.sealedText.plaintext, s) := by
    show (let (out, kms) := (Kms.Envelope.openData store.kms record.ns sd).run.run Kms.exec s.kms
      (out, { s with kms })) = _
    rw [Kms.Envelope.run_openData h.kms hsd]
  unfold decrypt
  rw [run_bind_ok (hopen hopens.value)]
  cases hprevious : record.sealedPrevious with
  | none =>
    unfold EncryptedRecord.plain
    rw [hprevious]
    rfl
  | some p =>
    have hmap : (Option.mapM (fun p => withKms
        (Kms.Envelope.openData store.kms record.ns p)) (some p)).run s
        = (.ok (some p.sealedText.plaintext), s) :=
      run_bind_ok (hopen (hopens.previous p hprevious))
    rw [run_bind_ok hmap]
    unfold EncryptedRecord.plain
    rw [hprevious]
    rfl

theorem run_get (h : s.Sound store) (k : Key) : (store.get k.1 k.2).run s = (.ok (s.secret k), s) := by
  show ((s.secrets[k]?).mapM store.decrypt).run s = _
  unfold Disk.secret
  cases hr : s.secrets[k]? with
  | none => rfl
  | some r => exact run_bind_ok (run_decrypt h (h.opens k r hr).2)

structure Puts (store : EncryptedFileSecretStore) (k : Key) (o : Option Secret) (s t : Disk) : Prop where
  sound : t.Sound store
  secret : ∀ k', t.secret k' = if k = k' then o else s.secret k'

theorem run_put (h : s.Sound store) (secret : Secret)
    : ∃ out t, (store.put secret).run s = (out, t) ∧
        (out = .ok () ∧ Puts store secret.key (some secret) s t
          ∨ (∃ e, out = .error e) ∧ t.Sound store ∧ t.secret = s.secret) := by
  have hkept {kms : Kms.Disk} (hsound : kms.Sound store.kms.rootKey fun _ => False)
      (hle : Kms.Grows s.kms kms) : Disk.Sound store { s with kms } := by
    refine ⟨hsound, ?_⟩
    intro k r hr
    obtain ⟨hkey, hopens⟩ := h.opens k r hr
    exact ⟨hkey, hopens.mono hle⟩
  obtain ⟨out, kms, hrun, hsound, hle, hpost⟩ := sealing_encrypt h secret
  have hsound' := hkept hsound hle
  cases out with
  | error e =>
    refine ⟨.error e, { s with kms }, run_bind_error hrun, Or.inr ⟨⟨e, rfl⟩, hsound', rfl⟩⟩
  | ok r =>
    obtain ⟨rfl, hopens⟩ := hpost r rfl
    refine ⟨.ok (), _, run_bind_ok hrun, Or.inl ⟨rfl, ?_, ?_⟩⟩
    . refine ⟨hsound, ?_⟩
      intro k r' hr'
      rcases Map.of_insert hr' with ⟨hk, rfl⟩ | hr'
      . exact ⟨hk, hopens⟩
      . exact hsound'.opens k r' hr'
    . intro k'
      unfold Disk.secret
      dsimp only
      rw [Map.getElem?_insert]
      show Option.map _ (if r.plain.key = k' then _ else _) = _
      split <;> rfl

theorem run_delete (h : s.Sound store) (k : Key)
    : ∃ t, (delete k.1 k.2).run s = (.ok (s.secret k).isSome, t)
      ∧ Puts store k none s t := by
  have hcontains : s.secrets.contains k = (s.secret k).isSome := by
    rw [Std.ExtTreeMap.contains_eq_isSome_getElem?]
    unfold Disk.secret
    rw [Option.isSome_map]
  have hsecret (k' : Key)
      : Option.map EncryptedRecord.plain (s.secrets.erase k)[k']? = if k = k' then none else s.secret k' := by
    rw [Map.getElem?_erase]
    split <;> rfl
  cases hexisted : (s.secret k).isSome with
  | true =>
    refine ⟨{ s with secrets := s.secrets.erase k }, ?_, ?_, hsecret⟩
    . unfold delete
      rw [run_bind_ok (m := (MonadState.get : Store Disk)) (a := s) (t := s) rfl]
      dsimp only
      rw [hcontains, hexisted]
      rfl
    . refine ⟨h.kms, ?_⟩
      intro k' r hr
      exact h.opens k' r (Map.of_erase hr)
  | false =>
    refine ⟨s, ?_, h, ?_⟩
    . unfold delete
      rw [run_bind_ok (m := (MonadState.get : Store Disk)) (a := s) (t := s) rfl]
      dsimp only
      rw [hcontains, hexisted]
      rfl
    . intro k'
      split
      . next heq =>
        rw [← heq]
        simpa using hexisted
      . rfl

end

end Wovyr.Secrets
