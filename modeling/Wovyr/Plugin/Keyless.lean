import Wovyr.Json.Text
import Wovyr.Plugin.Manifest

/-!
This module contains the digests of artifacts, the trusted publisher keys and keyless signatures
with their certificates and transparency logs.
-/

namespace Wovyr.Plugin.Hex

def digit (c : Char) : Option Nat :=
  if '0' ≤ c ∧ c ≤ '9' then
    some (c.toNat - '0'.toNat)
  else if 'a' ≤ c ∧ c ≤ 'f' then
    some (c.toNat - 'a'.toNat + 10)
  else if 'A' ≤ c ∧ c ≤ 'F' then
    some (c.toNat - 'A'.toNat + 10)
  else
    none

-- `u8::from_str_radix` of two characters takes a plus sign for the first one.
def byte (a b : Char) : Option UInt8 :=
  if a = '+' then
    (digit b).map UInt8.ofNat
  else do
    let high ← digit a
    let low ← digit b
    return UInt8.ofNat (high * 16 + low)

-- No caller looks at the error.
def decode (s : String) : Option (List UInt8) :=
  go s.toList
where
  go : List Char → Option (List UInt8)
    | [] => some []
    | [_] => none
    | a :: b :: rest => do
      let first ← byte a b
      let bytes ← go rest
      return first :: bytes

theorem digit_ne_feed {c : Char} {n : Nat} (h : digit c = some n) : c ≠ '\n' := by
  rintro rfl
  cases h

theorem decode_go_no_feed {cs : List Char} {bytes : List UInt8} (h : decode.go cs = some bytes)
    : '\n' ∉ cs := by
  induction cs using decode.go.induct generalizing bytes with
  | case1 => simp
  | case2 => cases h
  | case3 a b rest ih =>
    simp only [decode.go, Option.bind_eq_bind, Option.bind_eq_some_iff] at h
    obtain ⟨first, hfirst, tail, htail, -⟩ := h
    have hrest := ih htail
    have hpair : a ≠ '\n' ∧ b ≠ '\n' := by
      unfold byte at hfirst
      split at hfirst
      . next hplus =>
        obtain ⟨n, hn, -⟩ := Option.map_eq_some_iff.mp hfirst
        refine ⟨?_, digit_ne_feed hn⟩
        rw [hplus]
        decide
      . simp only [Option.bind_eq_bind, Option.bind_eq_some_iff] at hfirst
        obtain ⟨high, hhigh, low, hlow, -⟩ := hfirst
        exact ⟨digit_ne_feed hhigh, digit_ne_feed hlow⟩
    simp [Ne.symm hpair.1, Ne.symm hpair.2, hrest]

theorem decode_no_feed {s : String} {bytes : List UInt8} (h : decode s = some bytes) : '\n' ∉ s.toList :=
  decode_go_no_feed h

theorem digit_hexDigit {n : Nat} (h : n < 16)
    : digit (Bytes.hexDigit n) = some n ∧ Bytes.hexDigit n ≠ '+' := by
  interval_cases n <;> decide

theorem byte_hexDigit (b : UInt8)
    : byte (Bytes.hexDigit (b.toNat / 16)) (Bytes.hexDigit (b.toNat % 16)) = some b := by
  have hb := b.toNat_lt
  obtain ⟨hhigh, hplus⟩ := digit_hexDigit (n := b.toNat / 16) (by omega)
  obtain ⟨hlow, -⟩ := digit_hexDigit (n := b.toNat % 16) (by omega)
  have hsum : b.toNat / 16 * 16 + b.toNat % 16 = b.toNat := by omega
  unfold byte
  rw [if_neg hplus, hhigh, hlow]
  show some (UInt8.ofNat (b.toNat / 16 * 16 + b.toNat % 16)) = some b
  rw [hsum, UInt8.ofNat_toNat]

theorem decode_hexLower (bytes : List UInt8) : decode (Bytes.hexLower bytes) = some bytes := by
  unfold decode Bytes.hexLower
  rw [String.toList_ofList]
  induction bytes with
  | nil => rfl
  | cons b bytes ih =>
    simp only [List.flatMap_cons, List.cons_append, List.nil_append]
    rw [decode.go, byte_hexDigit, ih]
    rfl

end Hex

def hexBytes (hex : String) : List UInt8 :=
  (Hex.decode hex).getD []

def verifyDigest (sha256 : List UInt8 → List UInt8) (declared : String) (bytes : List UInt8)
    : Except Error Unit :=
  match Text.stripPrefix "sha256:" declared with
  | none => .error (.invalid s!"unsupported artifact digest `{declared}` (expected `sha256:<hex>`)")
  | some hex =>
    let actual := Bytes.hexLower (sha256 bytes)
    if Text.eqIgnoreAsciiCase actual hex then
      .ok ()
    else
      .error (.invalid s!"artifact digest mismatch: declared `{declared}`, computed `sha256:{actual}`")

-- A key for every publisher that is trusted.
abbrev TrustStore := Std.ExtTreeMap String (List UInt8)

def TrustStore.verify (trust : TrustStore) (crates : Crates) (publisher : String)
    (message signature : List UInt8) : Except Error Unit :=
  match trust[publisher]? with
  | none => .error (.invalid s!"untrusted plugin publisher `{publisher}`")
  | some key =>
    if crates.ed25519 key message signature then
      .ok ()
    else
      .error (.invalid s!"plugin signature verification failed for publisher `{publisher}`")

structure SignerIdentity where
  issuer : String
  subject : String
deriving Repr, DecidableEq, Inhabited

structure IdentityCert where
  publicKey : String
  identity : SignerIdentity
  notBeforeMs : Nat
  notAfterMs : Nat
  signature : String
deriving Repr, DecidableEq, Inhabited

def bytesOf (text : String) : List UInt8 :=
  Bytes.utf8 text.toList

def IdentityCert.canonicalText (cert : IdentityCert) : String :=
  Text.join "\n" ["wovyr-identity-cert.v1", cert.identity.issuer, cert.identity.subject, cert.publicKey,
    toString cert.notBeforeMs, toString cert.notAfterMs]

def IdentityCert.canonicalBytes (cert : IdentityCert) : List UInt8 :=
  bytesOf cert.canonicalText

structure LogEntryRef where
  uuid : String
  logIndex : Nat
  integratedTimeMs : Nat
  logId : String
  -- What Rekor signs over. The log of Wovyr has none.
  body : String := ""
  signedEntryTimestamp : String := ""
deriving Repr, DecidableEq, Inhabited

def setCanonicalText (entry : LogEntryRef) (bodyDigestHex : String) : String :=
  Text.join "\n" ["wovyr-set.v1", entry.uuid, toString entry.logIndex, toString entry.integratedTimeMs,
    entry.logId, bodyDigestHex]

def setCanonicalBytes (entry : LogEntryRef) (bodyDigestHex : String) : List UInt8 :=
  bytesOf (setCanonicalText entry bodyDigestHex)

def eventText (sha256 : List UInt8 → List UInt8) (artifact : List UInt8) (signatureHex publicKeyHex : String)
    : String :=
  Text.join "\n" [Bytes.hexLower (sha256 artifact), signatureHex, publicKeyHex]

def bodyDigestHex (sha256 : List UInt8 → List UInt8) (artifact : List UInt8)
    (signatureHex publicKeyHex : String) : String :=
  Bytes.hexLower (sha256 (bytesOf (eventText sha256 artifact signatureHex publicKeyHex)))

def jcsEscape (s : String) : String :=
  String.ofList (s.toList.flatMap Json.escapeChar)

-- In seconds.
def rekorSetPayload (entry : LogEntryRef) : List UInt8 :=
  bytesOf ("\x7b\"body\":\"" ++ jcsEscape entry.body ++ "\",\"integratedTime\":"
    ++ toString (entry.integratedTimeMs / 1000) ++ ",\"logID\":\"" ++ jcsEscape entry.logId
    ++ "\",\"logIndex\":" ++ toString entry.logIndex ++ "\x7d")

structure KeylessBundle where
  cert : IdentityCert
  signature : String
  logEntry : Option LogEntryRef := none
deriving Repr, DecidableEq, Inhabited

structure KeylessRoot where
  caPublicKeys : List String := []
  logPublicKeys : List String := []
deriving Repr, DecidableEq, Inhabited

structure IdentityRule where
  issuer : String
  subject : String
  publisher : String
deriving Repr, DecidableEq, Inhabited

structure IdentityPolicy where
  allow : List IdentityRule := []
  requireTransparency : Bool := true
deriving Repr, DecidableEq, Inhabited

def patternMatches (pattern value : String) : Bool :=
  match Text.stripSuffix "*" pattern with
  | some pre => (Text.stripPrefix pre value).isSome
  | none => pattern == value

def IdentityPolicy.allows (policy : IdentityPolicy) (identity : SignerIdentity) (publisher : String) : Bool :=
  policy.allow.any fun r =>
    r.issuer == identity.issuer && patternMatches r.subject identity.subject
      && patternMatches r.publisher publisher

variable (crates : Crates)

def verifyEd25519 (publicKeyHex : String) (message : List UInt8) (signatureHex : String) : Bool :=
  match Hex.decode publicKeyHex, Hex.decode signatureHex with
  | some key, some sig => crates.ed25519 key message sig
  | _, _ => false

def ed25519SpkiPrefix : List UInt8 :=
  [0x30, 0x2a, 0x30, 0x05, 0x06, 0x03, 0x2b, 0x65, 0x70, 0x03, 0x21, 0x00]

def p256SpkiPrefix : List UInt8 :=
  [0x30, 0x59, 0x30, 0x13, 0x06, 0x07, 0x2a, 0x86, 0x48, 0xce, 0x3d, 0x02, 0x01, 0x06, 0x08, 0x2a, 0x86, 0x48,
    0xce, 0x3d, 0x03, 0x01, 0x07, 0x03, 0x42, 0x00]

-- The algorithm goes by the encoding of the key.
def verifyPinned (key message sig : List UInt8) : Bool :=
  match key.length with
  | 32 => crates.ed25519 key message sig
  | 44 => ed25519SpkiPrefix.isPrefixOf key && crates.ed25519 (key.drop 12) message sig
  | 65 => key.head? == some 0x04 && crates.ecdsaP256 key message sig
  | 91 => p256SpkiPrefix.isPrefixOf key && crates.ecdsaP256 (key.drop 26) message sig
  | _ => false

def verifyWithPinnedKey (keyHex : String) (message : List UInt8) (signatureHex : String) : Bool :=
  match Hex.decode keyHex, Hex.decode signatureHex with
  | some key, some sig => verifyPinned crates key message sig
  | _, _ => false

def KeylessBundle.setBytes (bundle : KeylessBundle) (manifestBytes : List UInt8) (entry : LogEntryRef)
    : List UInt8 :=
  if entry.body = "" then
    setCanonicalBytes entry (bodyDigestHex crates.sha256 manifestBytes bundle.signature bundle.cert.publicKey)
  else
    rekorSetPayload entry

def verifyKeyless (manifestBytes : List UInt8) (bundle : KeylessBundle) (root : KeylessRoot)
    (policy : IdentityPolicy) (publisher : String) : Except Error SignerIdentity :=
  let cert := bundle.cert
  if !root.caPublicKeys.any fun ca => verifyEd25519 crates ca cert.canonicalBytes cert.signature then
    .error (.invalid "keyless certificate is not signed by a pinned CA")
  else if !policy.allows cert.identity publisher then
    .error (.forbidden (s!"identity `{cert.identity.subject}` (issuer `{cert.identity.issuer}`) "
      ++ s!"is not allowed to sign for publisher `{publisher}`"))
  else if !verifyEd25519 crates cert.publicKey manifestBytes bundle.signature then
    .error (.invalid "keyless manifest signature verification failed")
  else
    match bundle.logEntry with
    | none =>
      if policy.requireTransparency then
        .error (.invalid
          "keyless bundle carries no transparency-log entry, which this policy requires")
      else
        .ok cert.identity
    | some entry =>
      if entry.integratedTimeMs < cert.notBeforeMs || cert.notAfterMs < entry.integratedTimeMs then
        .error (.invalid "transparency-log entry falls outside the certificate validity window")
      else if !root.logPublicKeys.isEmpty
          && !root.logPublicKeys.any fun k =>
            verifyWithPinnedKey crates k (bundle.setBytes crates manifestBytes entry)
              entry.signedEntryTimestamp then
        .error (.invalid
          "transparency-log signed entry timestamp does not verify against a pinned log key")
      else
        .ok cert.identity

end Wovyr.Plugin
