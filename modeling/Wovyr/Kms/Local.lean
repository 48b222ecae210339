import Wovyr.Common
import Wovyr.Lib.Map
import Wovyr.Lib.Service

/-!
This module contains the key management: a root key wraps the versions of the keys of the tenants, and
these wrap the keys of the data. The AEAD is ideal, and every generated key is new.
-/

namespace Wovyr.Kms

inductive KeyBytes where
  | root
  | generated (n : Nat)
deriving DecidableEq

structure Sealed where
  key : KeyBytes
  plaintext : KeyBytes
deriving DecidableEq

def openSealed (key : KeyBytes) (s : Sealed) : Except Error KeyBytes :=
  if s.key = key then
    .ok s.plaintext
  else
    .error (.invalid "decryption failed (tampered ciphertext or wrong key)")

structure TenantKeyVersion where
  version : Nat
  wrapped : Sealed
deriving DecidableEq

structure TenantKeyRecord where
  tenant : String
  versions : List TenantKeyVersion
  destroyed : Bool
deriving DecidableEq

namespace TenantKeyRecord

def currentVersion (record : TenantKeyRecord) : Option TenantKeyVersion :=
  record.versions.getLast?

def version (record : TenantKeyRecord) (n : Nat) : Option TenantKeyVersion :=
  record.versions.find? (·.version == n)

end TenantKeyRecord

structure WrappedDataKey where
  tenantKeyVersion : Nat
  wrapped : Sealed
deriving DecidableEq

-- The records of `kms.json`.
abbrev Document := Std.ExtTreeMap String TenantKeyRecord

inductive Op where
  | load
  | persist (map : Document)
  | generateKey (tenant : Option String)

def Res : Op → Type
  | .load => Document
  | .persist _ => Unit
  | .generateKey _ => KeyBytes

structure Disk where
  kms : Document := ∅
  keys : List (Option String) := []

def exec : (op : Op) → Disk → Res op × Disk
  | .load, s => (s.kms, s)
  | .persist map, s => ((), { s with kms := map })
  | .generateKey tenant, s => (.generated s.keys.length, { s with keys := s.keys ++ [tenant] })

-- A program of one call. `none` is a panic.
abbrev Action (α : Type) := ExceptT (Option Error) (Client Op Res) α

def orPanic {α : Type} : Option α → Action α
  | some a => return a
  | none => throw none

def orFail {α : Type} : Except Error α → Action α
  | .ok a => return a
  | .error e => throw (some e)

def generateKey (tenant : Option String) : Action KeyBytes :=
  ExceptT.lift (Client.perform (Op.generateKey tenant))

namespace FileKmsStore

def load : Action Document :=
  ExceptT.lift (Client.perform Op.load)

def persist (map : Document) : Action Unit :=
  ExceptT.lift (Client.perform (Op.persist map))

def get (tenant : String) : Action (Option TenantKeyRecord) := do
  let map ← load
  return map[tenant]?

def put (record : TenantKeyRecord) : Action Unit := do
  let map ← load
  persist (map.insert record.tenant record)

end FileKmsStore

def destroyedError (tenant : String) : Error :=
  .forbidden s!"tenant key `{tenant}` was crypto-shredded and cannot be used again"

structure LocalKms where
  rootKey : KeyBytes

namespace LocalKms

variable (kms : LocalKms)

def provision (tenant : String) : Action TenantKeyRecord := do
  let tenantKey ← generateKey (some tenant)
  let wrapped : Sealed := { key := kms.rootKey, plaintext := tenantKey }
  let record := { tenant, versions := [{ version := 1, wrapped }], destroyed := false }
  FileKmsStore.put record
  return record

def recordOrProvision (tenant : String) : Action TenantKeyRecord := do
  match ← FileKmsStore.get tenant with
  | some record => if record.destroyed then throw (some (destroyedError tenant)) else return record
  | none => kms.provision tenant

def activeRecord (tenant : String) : Action TenantKeyRecord := do
  match ← FileKmsStore.get tenant with
  | some record => if record.destroyed then throw (some (destroyedError tenant)) else return record
  | none => throw (some (.notFound s!"tenant `{tenant}` has no key material"))

def unwrapTenantKey (record : TenantKeyRecord) (version : Nat) : Except Error KeyBytes :=
  match record.version version with
  | some tv => openSealed kms.rootKey tv.wrapped
  | none => .error (.notFound s!"tenant `{record.tenant}` has no key version {version}")

def generateDataKey (tenant : String) : Action (KeyBytes × WrappedDataKey) := do
  let record ← kms.recordOrProvision tenant
  let current ← orPanic record.currentVersion
  let tenantKey ← orFail (kms.unwrapTenantKey record current.version)
  let plaintext ← generateKey none
  let wrapped : Sealed := { key := tenantKey, plaintext }
  return (plaintext, { tenantKeyVersion := current.version, wrapped })

def unwrapDataKey (tenant : String) (wrapped : WrappedDataKey) : Action KeyBytes := do
  let record ← activeRecord tenant
  let tenantKey ← orFail (kms.unwrapTenantKey record wrapped.tenantKeyVersion)
  orFail (openSealed tenantKey wrapped.wrapped)

def rewrapDataKey (tenant : String) (wrapped : WrappedDataKey) : Action WrappedDataKey := do
  let record ← activeRecord tenant
  let oldTenantKey ← orFail (kms.unwrapTenantKey record wrapped.tenantKeyVersion)
  let plaintextDek ← orFail (openSealed oldTenantKey wrapped.wrapped)
  let current ← orPanic record.currentVersion
  let currentTenantKey ← orFail (kms.unwrapTenantKey record current.version)
  let rewrapped : Sealed := { key := currentTenantKey, plaintext := plaintextDek }
  return { tenantKeyVersion := current.version, wrapped := rewrapped }

def nextVersion (record : TenantKeyRecord) : Option Nat :=
  match record.versions.getLast? with
  | none => some 1
  | some v => if v.version + 1 < 2 ^ 32 then some (v.version + 1) else none

def rotateTenantKey (tenant : String) : Action Nat := do
  let record ← kms.recordOrProvision tenant
  let version ← orPanic (nextVersion record)
  let tenantKey ← generateKey (some tenant)
  let wrapped : Sealed := { key := kms.rootKey, plaintext := tenantKey }
  FileKmsStore.put { record with versions := record.versions ++ [{ version, wrapped }] }
  return version

def destroyTenantKey (tenant : String) : Action Unit := do
  let record ← activeRecord tenant
  FileKmsStore.put { record with versions := [], destroyed := true }

end LocalKms

inductive Call where
  | generateDataKey (tenant : String)
  | unwrapDataKey (tenant : String) (wrapped : WrappedDataKey)
  | rewrapDataKey (tenant : String) (wrapped : WrappedDataKey)
  | rotateTenantKey (tenant : String)
  | destroyTenantKey (tenant : String)
deriving DecidableEq

def Call.tenant : Call → String
  | .generateDataKey tenant | .unwrapDataKey tenant _ | .rewrapDataKey tenant _ | .rotateTenantKey tenant
  | .destroyTenantKey tenant => tenant

inductive Reply where
  | dataKey (plaintext : KeyBytes) (wrapped : WrappedDataKey)
  | key (plaintext : KeyBytes)
  | rewrapped (wrapped : WrappedDataKey)
  | version (n : Nat)
  | destroyed
deriving DecidableEq

abbrev Answer := Except (Option Error) Reply

def LocalKms.serve (kms : LocalKms) : Call → Action Reply
  | .generateDataKey tenant => do
    let (plaintext, wrapped) ← kms.generateDataKey tenant
    return .dataKey plaintext wrapped
  | .unwrapDataKey tenant wrapped => do
    let plaintext ← kms.unwrapDataKey tenant wrapped
    return .key plaintext
  | .rewrapDataKey tenant wrapped => do
    let wrapped ← kms.rewrapDataKey tenant wrapped
    return .rewrapped wrapped
  | .rotateTenantKey tenant => do
    let n ← kms.rotateTenantKey tenant
    return .version n
  | .destroyTenantKey tenant => do
    LocalKms.destroyTenantKey tenant
    return .destroyed

def LocalKms.service (kms : LocalKms) : Service Call Op Res Disk Answer where
  exec := exec
  prog c := (kms.serve c).run
  locked
    | .generateDataKey _ | .rotateTenantKey _ | .destroyTenantKey _ => true
    | .unwrapDataKey _ _ | .rewrapDataKey _ _ => false

end Wovyr.Kms
