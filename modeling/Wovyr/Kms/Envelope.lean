import Wovyr.Kms.Lifecycle

/-!
This module contains the sealing of a text: each one has a key of its own, which is kept wrapped beside it.
-/

namespace Wovyr.Kms.Envelope

structure Sealed where
  key : KeyBytes
  plaintext : String
deriving DecidableEq

structure SealedData where
  wrappedKey : WrappedDataKey
  sealedText : Sealed
deriving DecidableEq

def openText (key : KeyBytes) (s : Sealed) : Except Error String :=
  if s.key = key then
    .ok s.plaintext
  else
    .error (.invalid "decryption failed (tampered ciphertext or wrong key)")

def sealData (kms : LocalKms) (tenant plaintext : String) : Action SealedData := do
  let (dek, wrapped) ← kms.generateDataKey tenant
  return { wrappedKey := wrapped, sealedText := { key := dek, plaintext } }

def openData (kms : LocalKms) (tenant : String) (s : SealedData) : Action String := do
  let dek ← kms.unwrapDataKey tenant s.wrappedKey
  orFail (openText dek s.sealedText)

def Opens (s : Disk) (tenant : String) (sd : SealedData) : Prop :=
  Issues s tenant sd.wrappedKey sd.sealedText.key

section

variable {kms : LocalKms} {made : Call → Prop} {s : Disk} {tenant : String}

theorem works_sealData (h : s.Sound kms.rootKey made) (plaintext : String)
    : (discipline kms).Works made
        (fun out t => ∀ sd, out = .ok sd → Opens t tenant sd ∧ sd.sealedText.plaintext = plaintext)
        (sealData kms tenant plaintext).run s := by
  unfold sealData
  apply works_bind
  apply Service.Discipline.Works.imp h _ (works_generateDataKey h)
  intro out t ht hle hout
  cases out with
  | error e => simp
  | ok pw =>
    rintro sd ⟨⟩
    exact ⟨(hout pw.1 pw.2 rfl).1, rfl⟩

theorem run_bind {α β : Type} {m : Action α} {a : α} {f : α → Action β} {t : Disk}
    (h : m.run.run exec s = (.ok a, t)) : (m >>= f).run.run exec s = (f a).run.run exec t := by
  have hbind := Client.run_bind exec m.run (ExceptT.bindCont f) s
  rw [h] at hbind
  exact hbind

theorem run_unwrapDataKey {w : WrappedDataKey} {p : KeyBytes} (h : s.Sound kms.rootKey fun _ => False)
    (hw : Issues s tenant w p) : (kms.unwrapDataKey tenant w).run.run exec s = (.ok p, s) := by
  obtain ⟨r, hr, hkeeps⟩ := hw.opens
  have hsound := h tenant r hr
  have hactive : r.destroyed = false := by
    cases hdestroyed : r.destroyed with
    | false => rfl
    | true => exact (hsound.shredded hdestroyed).elim
  have hopens : Kms.Opens w p r := hkeeps.resolve_left (by simp [hactive])
  have hget : (FileKmsStore.get tenant).run.run exec s = (.ok (some r), s) := by
    rw [← hr]
    rfl
  have hrecord : (LocalKms.activeRecord tenant).run.run exec s = (.ok r, s) := by
    unfold LocalKms.activeRecord
    rw [run_bind hget]
    dsimp only
    rw [hactive]
    rfl
  unfold LocalKms.unwrapDataKey
  rw [run_bind hrecord, hopens.unwrap hsound, run_bind (a := w.wrapped.key) (t := s) rfl]
  rw [show openSealed w.wrapped.key w.wrapped = .ok w.wrapped.plaintext from if_pos rfl, hopens.1]
  rfl

theorem run_openData {sd : SealedData} (h : s.Sound kms.rootKey fun _ => False) (hsd : Opens s tenant sd)
    : (openData kms tenant sd).run.run exec s = (.ok sd.sealedText.plaintext, s) := by
  unfold openData
  rw [run_bind (run_unwrapDataKey h hsd)]
  rw [show openText sd.sealedText.key sd.sealedText = .ok sd.sealedText.plaintext from if_pos rfl]
  rfl

end

end Wovyr.Kms.Envelope
