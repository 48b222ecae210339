import Std.Data.String.ToNat
import Wovyr.Lib.Lines
import Wovyr.Plugin.Keyless

/-!
This module contains what certificate authorities, transparency logs and the holders of keys sign, and proves
what of it has to have been signed before a keyless bundle is accepted.
-/

namespace Wovyr.Plugin

open Bytes

structure SigningEvent where
  artifact : List UInt8
  signature : String
  publicKey : String
deriving Repr, DecidableEq

/-- What has been signed, by the key that it was signed with. -/
structure Statements where
  issued : List UInt8 → IdentityCert → Prop
  witnessed : List UInt8 → LogEntryRef → SigningEvent → Prop
  signed : List UInt8 → List UInt8 → Prop

-- The bytes that a log signs for an event that it has integrated under an entry.
def SigningEvent.promise (crates : Crates) (event : SigningEvent) (entry : LogEntryRef) : List UInt8 :=
  if entry.body = "" then
    setCanonicalBytes entry (bodyDigestHex crates.sha256 event.artifact event.signature event.publicKey)
  else
    rekorSetPayload entry

structure Ideal (crates : Crates) (root : KeylessRoot) (st : Statements) : Prop where
  ca : ∀ ca ∈ root.caPublicKeys, ∀ key, Hex.decode ca = some key → ∀ message sig,
    crates.ed25519 key message sig = true → ∃ cert, st.issued key cert ∧ message = cert.canonicalBytes
  log : ∀ log ∈ root.logPublicKeys, ∀ key, Hex.decode log = some key → ∀ message sig,
    verifyPinned crates key message sig = true →
      ∃ entry event, st.witnessed key entry event ∧ message = event.promise crates entry
  holder : ∀ key message sig, crates.ed25519 key message sig = true → st.signed key message

-- No witnessed signing event has the hash of another one.
def Statements.CollisionFree (st : Statements) (sha256 : List UInt8 → List UInt8) (this : SigningEvent) : Prop :=
  ∀ key entry event, st.witnessed key entry event → entry.body = "" →
    sha256 (bytesOf (eventText sha256 event.artifact event.signature event.publicKey))
        = sha256 (bytesOf (eventText sha256 this.artifact this.signature this.publicKey)) →
      eventText sha256 event.artifact event.signature event.publicKey
        = eventText sha256 this.artifact this.signature this.publicKey

structure Accounted (crates : Crates) (root : KeylessRoot) (policy : IdentityPolicy) (st : Statements)
    (manifestBytes : List UInt8) (bundle : KeylessBundle) (publisher : String) : Prop where
  issued : ∃ ca ∈ root.caPublicKeys, ∃ key, Hex.decode ca = some key ∧ ∃ cert, st.issued key cert
    ∧ cert.identity = bundle.cert.identity ∧ cert.publicKey = bundle.cert.publicKey
    ∧ cert.notBeforeMs = bundle.cert.notBeforeMs ∧ cert.notAfterMs = bundle.cert.notAfterMs
  signed : ∃ key, Hex.decode bundle.cert.publicKey = some key ∧ st.signed key manifestBytes
  witnessed : ∃ log ∈ root.logPublicKeys, ∃ key, Hex.decode log = some key ∧ ∃ entry event,
    st.witnessed key entry event
    ∧ crates.sha256 event.artifact = crates.sha256 manifestBytes ∧ event.signature = bundle.signature
    ∧ event.publicKey = bundle.cert.publicKey
    ∧ bundle.cert.notBeforeMs ≤ entry.integratedTimeMs ∧ entry.integratedTimeMs ≤ bundle.cert.notAfterMs
  allowed : policy.allows bundle.cert.identity publisher = true

/--
The issuer, the subject and the coordinates of the entry are single lines, and the entry has no body that
takes the place of the signing event.
-/
structure KeylessBundle.Unambiguous (bundle : KeylessBundle) : Prop where
  issuer : '\n' ∉ bundle.cert.identity.issuer.toList
  subject : '\n' ∉ bundle.cert.identity.subject.toList
  entry : ∀ entry, bundle.logEntry = some entry →
    entry.body = "" ∧ '\n' ∉ entry.uuid.toList ∧ '\n' ∉ entry.logId.toList

structure KeylessBundle.Legible (crates : Crates) (manifestBytes : List UInt8) (bundle : KeylessBundle)
    : Prop where
  cert : ∀ cert : IdentityCert, cert.canonicalBytes = bundle.cert.canonicalBytes →
    cert.identity = bundle.cert.identity ∧ cert.publicKey = bundle.cert.publicKey
      ∧ cert.notBeforeMs = bundle.cert.notBeforeMs ∧ cert.notAfterMs = bundle.cert.notAfterMs
  promise : ∀ entry, bundle.logEntry = some entry → ∀ entry' digest,
    setCanonicalBytes entry' digest = bundle.setBytes crates manifestBytes entry →
      entry'.uuid = entry.uuid ∧ entry'.logIndex = entry.logIndex
        ∧ entry'.integratedTimeMs = entry.integratedTimeMs ∧ entry'.logId = entry.logId
        ∧ digest = bodyDigestHex crates.sha256 manifestBytes bundle.signature bundle.cert.publicKey
  event : ∀ artifact signature publicKey,
    eventText crates.sha256 artifact signature publicKey
        = eventText crates.sha256 manifestBytes bundle.signature bundle.cert.publicKey →
      crates.sha256 artifact = crates.sha256 manifestBytes ∧ signature = bundle.signature
        ∧ publicKey = bundle.cert.publicKey

theorem bytesOf_injective : Function.Injective bytesOf := by
  intro a b h
  exact String.toList_inj.mp (utf8_injective h)

theorem toDigits_no_feed (n : Nat) : '\n' ∉ Nat.toDigits 10 n := by
  intro h
  cases Nat.isDigit_of_mem_toDigits (by decide) (by decide) h

theorem hexLower_no_feed (bytes : List UInt8) : '\n' ∉ (hexLower bytes).toList := by
  intro h
  cases isLowerHex_of_mem_hexLower h

theorem toString_nat_inj {m n : Nat} (h : toString m = toString n) : m = n :=
  Nat.repr_injective h

theorem canonicalText_inj {cert cert' : IdentityCert} (hissuer : '\n' ∉ cert.identity.issuer.toList)
    (hsubject : '\n' ∉ cert.identity.subject.toList) (hkey : '\n' ∉ cert.publicKey.toList)
    (h : cert.canonicalText = cert'.canonicalText)
    : cert'.identity = cert.identity ∧ cert'.publicKey = cert.publicKey
        ∧ cert'.notBeforeMs = cert.notBeforeMs ∧ cert'.notAfterMs = cert.notAfterMs := by
  unfold IdentityCert.canonicalText at h
  have hlines := Lines.join_inj (by rfl) (by
    simp [hissuer, hsubject, hkey, toDigits_no_feed]) h
  simp only [List.cons.injEq, true_and, and_true] at hlines
  obtain ⟨hi, hs, hk, hbefore, hafter⟩ := hlines
  refine ⟨?_, hk.symm, toString_nat_inj hbefore.symm, toString_nat_inj hafter.symm⟩
  cases hid : cert.identity
  cases hid' : cert'.identity
  simp_all

theorem setCanonicalText_inj {entry entry' : LogEntryRef} {digest digest' : String}
    (huuid : '\n' ∉ entry.uuid.toList) (hlog : '\n' ∉ entry.logId.toList) (hdigest : '\n' ∉ digest.toList)
    (h : setCanonicalText entry digest = setCanonicalText entry' digest')
    : entry'.uuid = entry.uuid ∧ entry'.logIndex = entry.logIndex
        ∧ entry'.integratedTimeMs = entry.integratedTimeMs ∧ entry'.logId = entry.logId ∧ digest' = digest := by
  unfold setCanonicalText at h
  have hlines := Lines.join_inj (by rfl) (by simp [huuid, hlog, hdigest, toDigits_no_feed]) h
  simp only [List.cons.injEq, true_and, and_true] at hlines
  obtain ⟨hu, hindex, htime, hl, hd⟩ := hlines
  exact ⟨hu.symm, toString_nat_inj hindex.symm, toString_nat_inj htime.symm, hl.symm, hd.symm⟩

theorem eventText_inj {sha256 : List UInt8 → List UInt8} {artifact artifact' : List UInt8}
    {signature signature' publicKey publicKey' : String} (hsignature : '\n' ∉ signature.toList)
    (hkey : '\n' ∉ publicKey.toList)
    (h : eventText sha256 artifact signature publicKey = eventText sha256 artifact' signature' publicKey')
    : sha256 artifact' = sha256 artifact ∧ signature' = signature ∧ publicKey' = publicKey := by
  unfold eventText at h
  have hlines := Lines.join_inj (by rfl) (by simp [hsignature, hkey, hexLower_no_feed]) h
  simp only [List.cons.injEq, and_true] at hlines
  obtain ⟨hdigest, hs, hk⟩ := hlines
  exact ⟨(hexLower_injective hdigest).symm, hs.symm, hk.symm⟩

theorem setCanonicalBytes_ne_rekor (entry entry' : LogEntryRef) (digest : String)
    : setCanonicalBytes entry digest ≠ rekorSetPayload entry' := by
  intro h
  have htext := congrArg (fun s => s.toList.head?) (bytesOf_injective h)
  simp [setCanonicalText, Text.join] at htext

structure Checked (crates : Crates) (root : KeylessRoot) (policy : IdentityPolicy)
    (manifestBytes : List UInt8) (bundle : KeylessBundle) (publisher : String) : Prop where
  ca : ∃ ca ∈ root.caPublicKeys,
    verifyEd25519 crates ca bundle.cert.canonicalBytes bundle.cert.signature = true
  allowed : policy.allows bundle.cert.identity publisher = true
  signed : verifyEd25519 crates bundle.cert.publicKey manifestBytes bundle.signature = true
  witnessed : ∃ entry, bundle.logEntry = some entry
    ∧ bundle.cert.notBeforeMs ≤ entry.integratedTimeMs ∧ entry.integratedTimeMs ≤ bundle.cert.notAfterMs
    ∧ ∃ log ∈ root.logPublicKeys, verifyWithPinnedKey crates log (bundle.setBytes crates manifestBytes entry)
        entry.signedEntryTimestamp = true

section

variable {crates : Crates} {root : KeylessRoot} {policy : IdentityPolicy} {manifestBytes : List UInt8}
  {bundle : KeylessBundle} {publisher : String} {identity : SignerIdentity}

theorem checked_of_verifyKeyless (hlog : root.logPublicKeys ≠ []) (hpolicy : policy.requireTransparency = true)
    (h : verifyKeyless crates manifestBytes bundle root policy publisher = .ok identity)
    : Checked crates root policy manifestBytes bundle publisher ∧ identity = bundle.cert.identity := by
  unfold verifyKeyless at h
  dsimp only at h
  split at h
  . cases h
  next hca =>
    split at h
    . cases h
    next hallowed =>
      split at h
      . cases h
      next hsigned =>
        simp only [Bool.not_eq_true', Bool.not_eq_false, List.any_eq_true] at hca hallowed hsigned
        split at h
        . cases h
        next entry hentry =>
          split at h
          . cases h
          next hwindow =>
            split at h
            . cases h
            next hset =>
              cases h
              simp only [Bool.or_eq_true, decide_eq_true_eq, not_or, Nat.not_lt] at hwindow
              have hne : root.logPublicKeys.isEmpty = false := List.isEmpty_eq_false_iff.mpr hlog
              simp only [hne, Bool.not_false, Bool.true_and, Bool.not_eq_true', Bool.not_eq_false,
                List.any_eq_true] at hset
              exact ⟨⟨hca, hallowed, hsigned, entry, hentry, hwindow.1, hwindow.2, hset⟩, rfl⟩

theorem verifyKeyless_of_checked (h : Checked crates root policy manifestBytes bundle publisher)
    : verifyKeyless crates manifestBytes bundle root policy publisher = .ok bundle.cert.identity := by
  obtain ⟨hca, hallowed, hsigned, entry, hentry, hbefore, hafter, hset⟩ := h
  rw [← List.any_eq_true] at hca hset
  unfold verifyKeyless
  dsimp only
  rw [hca, hallowed, hsigned, hentry]
  simp [hset, Nat.not_lt.mpr hbefore, Nat.not_lt.mpr hafter]

theorem decode_of_verifyEd25519 {key sig : String} {message : List UInt8}
    (h : verifyEd25519 crates key message sig = true)
    : ∃ keyBytes sigBytes, Hex.decode key = some keyBytes ∧ Hex.decode sig = some sigBytes
        ∧ crates.ed25519 keyBytes message sigBytes = true := by
  unfold verifyEd25519 at h
  split at h
  next keyBytes sigBytes hkey hsig => exact ⟨keyBytes, sigBytes, hkey, hsig, h⟩
  next => cases h

theorem decode_of_verifyWithPinnedKey {key sig : String} {message : List UInt8}
    (h : verifyWithPinnedKey crates key message sig = true)
    : ∃ keyBytes sigBytes, Hex.decode key = some keyBytes ∧ verifyPinned crates keyBytes message sigBytes = true := by
  unfold verifyWithPinnedKey at h
  split at h
  next keyBytes sigBytes hkey _ => exact ⟨keyBytes, sigBytes, hkey, h⟩
  next => cases h

variable {st : Statements}

theorem Ideal.issued (hideal : Ideal crates root st) (hkey : '\n' ∉ bundle.cert.publicKey.toList)
    (hbundle : bundle.Unambiguous) {ca : String} (hca : ca ∈ root.caPublicKeys)
    (h : verifyEd25519 crates ca bundle.cert.canonicalBytes bundle.cert.signature = true)
    : ∃ key, Hex.decode ca = some key ∧ ∃ cert, st.issued key cert
        ∧ cert.identity = bundle.cert.identity ∧ cert.publicKey = bundle.cert.publicKey
        ∧ cert.notBeforeMs = bundle.cert.notBeforeMs ∧ cert.notAfterMs = bundle.cert.notAfterMs := by
  obtain ⟨key, sig, hdecode, -, hvalid⟩ := decode_of_verifyEd25519 h
  obtain ⟨cert, hissued, hbytes⟩ := hideal.ca ca hca key hdecode _ sig hvalid
  refine ⟨key, hdecode, cert, hissued, ?_⟩
  exact canonicalText_inj hbundle.issuer hbundle.subject hkey (bytesOf_injective hbytes)

theorem Ideal.witnessed (hideal : Ideal crates root st) (hkey : '\n' ∉ bundle.cert.publicKey.toList)
    (hsignature : '\n' ∉ bundle.signature.toList) (hbundle : bundle.Unambiguous)
    (hhash : st.CollisionFree crates.sha256 ⟨manifestBytes, bundle.signature, bundle.cert.publicKey⟩)
    {entry : LogEntryRef} (hentry : bundle.logEntry = some entry) {log : String}
    (hlog : log ∈ root.logPublicKeys)
    (h : verifyWithPinnedKey crates log (bundle.setBytes crates manifestBytes entry) entry.signedEntryTimestamp
      = true)
    : ∃ key, Hex.decode log = some key ∧ ∃ entry' event, st.witnessed key entry' event
        ∧ crates.sha256 event.artifact = crates.sha256 manifestBytes ∧ event.signature = bundle.signature
        ∧ event.publicKey = bundle.cert.publicKey ∧ entry'.integratedTimeMs = entry.integratedTimeMs := by
  obtain ⟨hbody, huuid, hid⟩ := hbundle.entry entry hentry
  obtain ⟨key, sig, hdecode, hvalid⟩ := decode_of_verifyWithPinnedKey h
  obtain ⟨entry', event, hwitnessed, hbytes⟩ := hideal.log log hlog key hdecode _ sig hvalid
  refine ⟨key, hdecode, entry', event, hwitnessed, ?_⟩
  unfold KeylessBundle.setBytes SigningEvent.promise at hbytes
  rw [if_pos hbody] at hbytes
  split at hbytes
  next hnative =>
    have htext := setCanonicalText_inj huuid hid (hexLower_no_feed _) (bytesOf_injective hbytes)
    obtain ⟨-, -, htime, -, hdigest⟩ := htext
    have hevent := hhash key entry' event hwitnessed hnative (hexLower_injective hdigest)
    obtain ⟨hartifact, hsig, hpublic⟩ := eventText_inj hsignature hkey hevent.symm
    exact ⟨hartifact, hsig, hpublic, htime⟩
  next => exact absurd hbytes (setCanonicalBytes_ne_rekor _ _ _)

theorem KeylessBundle.Unambiguous.legible (hkey : '\n' ∉ bundle.cert.publicKey.toList)
    (hsignature : '\n' ∉ bundle.signature.toList) (hbundle : bundle.Unambiguous)
    : bundle.Legible crates manifestBytes := by
  refine ⟨?_, ?_, ?_⟩
  . intro cert h
    exact canonicalText_inj hbundle.issuer hbundle.subject hkey (bytesOf_injective h.symm)
  . intro entry hentry entry' digest h
    obtain ⟨hbody, huuid, hid⟩ := hbundle.entry entry hentry
    unfold KeylessBundle.setBytes at h
    rw [if_pos hbody] at h
    exact setCanonicalText_inj huuid hid (hexLower_no_feed _) (bytesOf_injective h.symm)
  . intro artifact signature publicKey h
    exact eventText_inj hsignature hkey h.symm

/--
A bundle whose lines are single lines and whose entry is about the signing event itself is accepted only for
what the certificate authority has issued, the holder of the key has signed, a log has witnessed in time and
the policy allows, and what has been signed can be read in one way only.
-/
theorem verifyKeyless_sound (hideal : Ideal crates root st)
    (hhash : st.CollisionFree crates.sha256 ⟨manifestBytes, bundle.signature, bundle.cert.publicKey⟩)
    (hlog : root.logPublicKeys ≠ []) (hpolicy : policy.requireTransparency = true)
    (hbundle : bundle.Unambiguous)
    (h : verifyKeyless crates manifestBytes bundle root policy publisher = .ok identity)
    : Accounted crates root policy st manifestBytes bundle publisher ∧ identity = bundle.cert.identity
        ∧ bundle.Legible crates manifestBytes := by
  obtain ⟨hchecked, hidentity⟩ := checked_of_verifyKeyless hlog hpolicy h
  obtain ⟨key, sig, hkey, hsig, hvalid⟩ := decode_of_verifyEd25519 hchecked.signed
  have hkeyLine := Hex.decode_no_feed hkey
  obtain ⟨ca, hca, hverified⟩ := hchecked.ca
  obtain ⟨entry, hentry, hbefore, hafter, log, hpinned, hpromise⟩ := hchecked.witnessed
  obtain ⟨logKey, hdecode, entry', event, hwitnessed, hartifact, hsame, hpublic, htime⟩ :=
    hideal.witnessed hkeyLine (Hex.decode_no_feed hsig) hbundle hhash hentry hpinned hpromise
  refine ⟨⟨⟨ca, hca, hideal.issued hkeyLine hbundle hca hverified⟩, ⟨key, hkey, ?_⟩, ?_, hchecked.allowed⟩,
    hidentity, hbundle.legible hkeyLine (Hex.decode_no_feed hsig)⟩
  . exact hideal.holder key manifestBytes sig hvalid
  . refine ⟨log, hpinned, logKey, hdecode, entry', event, hwitnessed, hartifact, hsame, hpublic, ?_, ?_⟩
    . rw [htime]
      exact hbefore
    . rw [htime]
      exact hafter

end

namespace Release

def caKey : List UInt8 :=
  [0xba, 0x32, 0x56, 0x2b, 0x42, 0x1b, 0xc3, 0x1b, 0x04, 0xce, 0xc2, 0x14, 0xbf, 0xac, 0x75, 0x16,
   0x5a, 0xdf, 0xbc, 0xeb, 0x7c, 0xb0, 0x22, 0xf0, 0x6c, 0x7d, 0x32, 0x25, 0x92, 0x8d, 0xc7, 0x03]

def logKey : List UInt8 :=
  [0xa3, 0x96, 0xcc, 0x53, 0xf9, 0x52, 0x24, 0x8e, 0x27, 0x34, 0x08, 0x2f, 0x1e, 0xe4, 0x66, 0xd5,
   0x2e, 0x2e, 0x84, 0xeb, 0x51, 0xe6, 0x30, 0xdd, 0x8b, 0xf6, 0x82, 0x83, 0x42, 0x09, 0x56, 0xab]

def holderKey : List UInt8 :=
  [0x33, 0x49, 0x7f, 0xf5, 0x83, 0xf7, 0x69, 0xce, 0x38, 0xc3, 0xe2, 0x1b, 0xf3, 0x4a, 0x36, 0x86,
   0x14, 0xf5, 0xa8, 0xa3, 0x09, 0x5b, 0xb8, 0x49, 0x27, 0xed, 0x19, 0x5f, 0x36, 0x7e, 0x9c, 0x0a]

def certSignature : List UInt8 :=
  hexBytes ("bca25f2339d07ed764cd977f94e45e3088ca3ac0b58f0b7d1db00d20654940b3"
    ++ "bf0d516ac1470094bf52079a19583fd04c967ba894841828a21f881c6375520b")

def manifestSignature : List UInt8 :=
  hexBytes ("73aa37dca58f892ca64c903e0b8da7def6a0d6c7d65ae89041e2aff8e601ab29"
    ++ "784e94be66405a9dd22e0f5a647f10fde7c57eace9bc72d2fa22e72c7b77e200")

def promiseSignature : List UInt8 :=
  hexBytes ("f64a1c269c3e3482a3bfb2b8867bf0e4d99f7cdbb847742b2fbb1f43eff1bb6d"
    ++ "604941a1a806e242fdbebad7b788f50ebeb68c3b246f4c82d9c42b3902d8cf02")

def manifestDigest : List UInt8 :=
  [0x3d, 0xba, 0xc8, 0xc4, 0xea, 0xf1, 0x8f, 0xfd, 0xfc, 0x12, 0xf0, 0xfe, 0x2b, 0x3d, 0x48, 0xcc,
   0xe2, 0x58, 0x8f, 0x2f, 0x4e, 0xe1, 0x2a, 0xf7, 0x89, 0x72, 0x58, 0xcc, 0x11, 0x3b, 0x9d, 0x62]

def eventDigest : List UInt8 :=
  [0xaa, 0x85, 0x1a, 0xa6, 0x71, 0x38, 0x1d, 0x1f, 0x0f, 0x66, 0x1c, 0x15, 0x91, 0xea, 0xd6, 0x9b,
   0x0f, 0x4f, 0x72, 0xc6, 0x42, 0x5f, 0xe1, 0xed, 0xe9, 0x3b, 0x82, 0x76, 0x82, 0xa0, 0x17, 0x68]

def manifest : List UInt8 :=
  bytesOf "kind: Plugin\n"

def root : KeylessRoot where
  caPublicKeys := [hexLower caKey]
  logPublicKeys := [hexLower logKey]

def policy : IdentityPolicy where
  allow := [{ issuer := "https://ci.example.com", subject := "release@acme.*", publisher := "acme" }]

def cert : IdentityCert where
  publicKey := hexLower holderKey
  identity := { issuer := "https://ci.example.com", subject := "release@acme.dev" }
  notBeforeMs := 1699999940000
  notAfterMs := 1700000600000
  signature := hexLower certSignature

def event : SigningEvent where
  artifact := manifest
  signature := hexLower manifestSignature
  publicKey := cert.publicKey

def entry : LogEntryRef where
  uuid := "fed106ab5b81155df603b0dbff20b4eba31fdfb2a249d2317946b46098045b77"
  logIndex := 0
  integratedTimeMs := 1700000000000
  logId := "fccfc3abf0b76e25164f80b0c2d3d6ff37693b7fcb36e36d76702013f47ad62c"
  signedEntryTimestamp := hexLower promiseSignature

def bundle (logEntry : LogEntryRef) : KeylessBundle where
  cert
  signature := event.signature
  logEntry := some logEntry

def otherEvent : SigningEvent where
  artifact := bytesOf "kind: Plugin # 1\n"
  signature := "f624debd9ff164e72d5a94483e696ac16fb2aea217e1ec9d460a65e21e25b1de"
    ++ "90cc05feb689a3cdcadee54892b68b234973e5ce303e959a4ae9c81232f7e80b"
  publicKey := cert.publicKey

def otherSignature : List UInt8 :=
  hexBytes ("23d4f8b71d14517d78f5ac10a9aaece2f4cd55eb12f34b1e4a08bdaf3be1c705"
    ++ "9db568bee3811e867a22516f9b9e7b22205fda02efae2de78a0b757594ffdf0c")

def otherEntry : LogEntryRef where
  uuid := entry.uuid
  logIndex := 0
  integratedTimeMs := 1700000000000
  logId := entry.logId
  body := "eyJraW5kIjoicmVrb3JkIiwic3BlYyI6eyJkYXRhIjp7Imhhc2giOnsidmFsdWUiOiJmZTcyMGVhMWUzN2VhN2Q0YTNj"
    ++ "ZWJmMDE3ZWM2Nzk4MTgzMjUyNTA4NzAyYTM2YzNhYWEwY2ZiYjk2ZjU3NWUwIn19fX0="
  signedEntryTimestamp := hexLower otherSignature

def crates (promise promiseSignature : List UInt8) : Crates where
  parseYaml _ := .error ""
  parseReq _ := .error ""
  sha256 bytes := if bytes = manifest then manifestDigest else eventDigest
  ed25519 key message sig :=
    (key == caKey && message == cert.canonicalBytes && sig == certSignature)
      || (key == holderKey && message == manifest && sig == manifestSignature)
      || (key == logKey && message == promise && sig == promiseSignature)
  ecdsaP256 _ _ _ := false

def native : Crates :=
  crates (setCanonicalBytes entry (hexLower eventDigest)) promiseSignature

def rekor : Crates :=
  crates (rekorSetPayload otherEntry) otherSignature

def statements (crates : Crates) (e : LogEntryRef) (ev : SigningEvent) : Statements where
  issued key c := key = caKey ∧ c = cert
  witnessed key e' ev' := key = logKey ∧ e' = e ∧ ev' = ev
  signed key message := ∃ sig, crates.ed25519 key message sig = true

section

variable {promise promiseSignature : List UInt8}

theorem sha256_of_ne {bytes : List UInt8} (h : bytes ≠ manifest)
    : (crates promise promiseSignature).sha256 bytes = eventDigest :=
  if_neg h

theorem signed_cert : (crates promise promiseSignature).ed25519 caKey cert.canonicalBytes certSignature = true := by
  simp only [crates, beq_self_eq_true, Bool.and_self, Bool.true_or]

theorem signed_manifest : (crates promise promiseSignature).ed25519 holderKey manifest manifestSignature = true := by
  simp only [crates, beq_self_eq_true, Bool.and_self, Bool.or_true, Bool.true_or]

theorem signed_promise : (crates promise promiseSignature).ed25519 logKey promise promiseSignature = true := by
  simp only [crates, beq_self_eq_true, Bool.and_self, Bool.or_true]

theorem ideal {e : LogEntryRef} {ev : SigningEvent} (h : ev.promise (crates promise promiseSignature) e = promise)
    : Ideal (crates promise promiseSignature) root (statements (crates promise promiseSignature) e ev) := by
  have hca : caKey ≠ holderKey ∧ caKey ≠ logKey := by decide
  have hlog : logKey ≠ caKey ∧ logKey ≠ holderKey := by decide
  have hlength : logKey.length = 32 := rfl
  refine ⟨?_, ?_, fun key message sig h => ⟨sig, h⟩⟩
  . intro ca hmem key hkey message sig hvalid
    cases List.mem_singleton.mp hmem
    rw [Hex.decode_hexLower, Option.some_inj] at hkey
    subst hkey
    simp [crates, hca.1, hca.2] at hvalid
    exact ⟨cert, ⟨rfl, rfl⟩, hvalid.1⟩
  . intro log hmem key hkey message sig hvalid
    cases List.mem_singleton.mp hmem
    rw [Hex.decode_hexLower, Option.some_inj] at hkey
    subst hkey
    simp [verifyPinned, hlength, crates, hlog.1, hlog.2] at hvalid
    exact ⟨e, ev, ⟨rfl, rfl, rfl⟩, hvalid.1.trans h.symm⟩

theorem verifyEd25519_hexLower (c : Crates) (key message sig : List UInt8)
    : verifyEd25519 c (hexLower key) message (hexLower sig) = c.ed25519 key message sig := by
  simp only [verifyEd25519, Hex.decode_hexLower]

theorem verifyWithPinnedKey_logKey (c : Crates) (message sig : List UInt8)
    : verifyWithPinnedKey c (hexLower logKey) message (hexLower sig) = c.ed25519 logKey message sig := by
  have hlength : logKey.length = 32 := rfl
  simp only [verifyWithPinnedKey, Hex.decode_hexLower, verifyPinned, hlength]

theorem verified {logEntry : LogEntryRef} (hlower : cert.notBeforeMs ≤ logEntry.integratedTimeMs)
    (hupper : logEntry.integratedTimeMs ≤ cert.notAfterMs)
    (hsignature : logEntry.signedEntryTimestamp = hexLower promiseSignature)
    (hset : (bundle logEntry).setBytes (crates promise promiseSignature) manifest logEntry = promise)
    : verifyKeyless (crates promise promiseSignature) manifest (bundle logEntry) root policy "acme"
        = .ok cert.identity := by
  have hallowed : policy.allows cert.identity "acme" = true := by decide
  apply verifyKeyless_of_checked
  refine ⟨⟨_, List.mem_singleton_self _, ?_⟩, hallowed, ?_, logEntry, rfl, hlower, hupper, ?_⟩
  . exact (verifyEd25519_hexLower _ _ _ _).trans signed_cert
  . exact (verifyEd25519_hexLower _ _ _ _).trans signed_manifest
  . refine ⟨_, List.mem_singleton_self _, ?_⟩
    rw [hset, hsignature, verifyWithPinnedKey_logKey]
    exact signed_promise

end

theorem promise_event : event.promise native entry = setCanonicalBytes entry (hexLower eventDigest) := by
  have htext : bytesOf (eventText native.sha256 event.artifact event.signature event.publicKey) ≠ manifest := by
    intro h
    have hfeeds := congrArg Lines.feeds (bytesOf_injective h)
    unfold eventText at hfeeds
    rw [Lines.feeds_join] at hfeeds
    have hmanifest : Lines.feeds "kind: Plugin\n" = 1 := by decide
    rw [hmanifest, List.length_cons, List.length_singleton] at hfeeds
    omega
  have hbody : entry.body = "" := rfl
  unfold SigningEvent.promise bodyDigestHex
  rw [if_pos hbody]
  exact congrArg (fun digest => setCanonicalBytes entry (hexLower digest)) (sha256_of_ne htext)

theorem promise_otherEvent : otherEvent.promise rekor otherEntry = rekorSetPayload otherEntry :=
  if_neg (by decide)

end Release

open Release

theorem verifyKeyless_sound_release
    : verifyKeyless native manifest (bundle entry) root policy "acme"
          = .ok cert.identity
        ∧ Accounted native root policy
          (statements native entry event) manifest
          (bundle entry) "acme" := by
  have hverified := verified (by decide) (by decide) rfl promise_event
  refine ⟨hverified, ?_⟩
  refine (verifyKeyless_sound (ideal promise_event) ?_ (by decide) rfl ?_ hverified).1
  . intro key entry event hwitnessed _ _
    obtain ⟨-, -, rfl⟩ := hwitnessed
    rfl
  . refine ⟨by decide, by decide, ?_⟩
    intro entry hentry
    cases hentry
    exact ⟨rfl, by decide, by decide⟩

-- The log has promised something else in the same window.
theorem borrowed_promise
    : Ideal rekor root (statements rekor otherEntry otherEvent)
        ∧ (statements rekor otherEntry otherEvent).CollisionFree
            rekor.sha256 event
        ∧ verifyKeyless rekor manifest (bundle otherEntry)
            root policy "acme" = .ok cert.identity
        ∧ ¬Accounted rekor root policy
            (statements rekor otherEntry otherEvent) manifest
            (bundle otherEntry) "acme" := by
  have hbody : otherEntry.body ≠ "" := by decide
  refine ⟨ideal promise_otherEvent, ?_, ?_, ?_⟩
  . intro key entry event hwitnessed hnative _
    obtain ⟨-, rfl, -⟩ := hwitnessed
    exact absurd hnative hbody
  . exact verified (by decide) (by decide) rfl (if_neg hbody)
  . intro haccounted
    obtain ⟨log, -, key, -, entry, event, ⟨-, -, rfl⟩, -, hsignature, -⟩ := haccounted.witnessed
    revert hsignature
    decide +kernel

end Wovyr.Plugin
