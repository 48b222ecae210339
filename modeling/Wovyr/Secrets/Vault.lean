import Wovyr.Kms.Envelope

/-!
This module contains the vault of the secrets over the store that seals them. An operation of the store is
atomic, what the vault does with two of them is not.
-/

namespace Wovyr.Secrets

structure SecretRef where
  ns : String
  name : String
deriving DecidableEq

namespace SecretRef

def new (ns name : String) : Except Error SecretRef :=
  if ns.isEmpty || name.isEmpty then
    .error (.invalid "secret reference needs a non-empty namespace and name")
  else if ns.toList.contains '/' then
    .error (.invalid "secret namespace must not contain `/`")
  else
    .ok { ns, name }

def parse (s : String) : Except Error SecretRef :=
  match Text.stripPrefix "secret://" s with
  | none => .error (.invalid "secret reference must start with `secret://`")
  | some rest =>
    match rest.toList.span (· != '/') with
    | (_, []) => .error (.invalid "secret reference must be `secret://<namespace>/<name>`")
    | (ns, _ :: name) => new (String.ofList ns) (String.ofList name)

def readPermission (r : SecretRef) : String :=
  s!"secret:read:{r.name}"

def display (r : SecretRef) : String :=
  s!"secret://{r.ns}/{r.name}"

end SecretRef

structure SecretAccess where
  tenant : String
  granted : List String

structure SecretMetadata where
  ns : String
  name : String
  version : Nat
  reference : String
deriving DecidableEq

structure Secret where
  ns : String
  name : String
  value : String
  previous : Option String
  version : Nat
deriving DecidableEq

namespace Secret

def new (ns name value : String) : Secret where
  ns := ns
  name := name
  value := value
  previous := none
  version := 1

-- An overflow of the version panics.
def rotate (secret : Secret) (newValue : String) : Option Secret :=
  if secret.version + 1 < 2 ^ 32 then
    some { secret with value := newValue, previous := some secret.value, version := secret.version + 1 }
  else
    none

def reference (secret : Secret) : SecretRef where
  ns := secret.ns
  name := secret.name

def metadata (secret : Secret) : SecretMetadata where
  ns := secret.ns
  name := secret.name
  version := secret.version
  reference := secret.reference.display

end Secret

structure EncryptedRecord where
  ns : String
  name : String
  sealedValue : Kms.Envelope.SealedData
  sealedPrevious : Option Kms.Envelope.SealedData
  version : Nat

abbrev Key := String × String

abbrev EncryptedRecordMap := Std.ExtTreeMap Key EncryptedRecord lexOrd.compare

-- The records of `secrets.enc.json`, and what the key management holds.
structure Disk where
  secrets : EncryptedRecordMap := ∅
  kms : Kms.Disk := {}

-- What an operation does under the lock. `none` is a panic.
abbrev Store (α : Type) := ExceptT (Option Error) (StateM Disk) α

structure EncryptedFileSecretStore where
  kms : Kms.LocalKms

namespace EncryptedFileSecretStore

variable (store : EncryptedFileSecretStore)

def withKms {α : Type} (action : Kms.Action α) : Store α :=
  ExceptT.mk fun s =>
    let (out, kms) := action.run.run Kms.exec s.kms
    (out, { s with kms })

def encrypt (secret : Secret) : Store EncryptedRecord := do
  let sealedValue ← withKms (Kms.Envelope.sealData store.kms secret.ns secret.value)
  let sealedPrevious ← secret.previous.mapM fun p => withKms (Kms.Envelope.sealData store.kms secret.ns p)
  return { ns := secret.ns, name := secret.name, sealedValue, sealedPrevious, version := secret.version }

def decrypt (record : EncryptedRecord) : Store Secret := do
  let value ← withKms (Kms.Envelope.openData store.kms record.ns record.sealedValue)
  let previous ← record.sealedPrevious.mapM fun p =>
    withKms (Kms.Envelope.openData store.kms record.ns p)
  return { ns := record.ns, name := record.name, value, previous, version := record.version }

def put (secret : Secret) : Store Unit := do
  let record ← store.encrypt secret
  modify fun s => { s with secrets := s.secrets.insert (record.ns, record.name) record }

def get (ns name : String) : Store (Option Secret) := do
  let s ← MonadState.get
  s.secrets[(ns, name)]?.mapM store.decrypt

def delete (ns name : String) : Store Bool := do
  let s ← MonadState.get
  let existed := s.secrets.contains (ns, name)
  if existed then
    MonadState.set { s with secrets := s.secrets.erase (ns, name) }
  return existed

end EncryptedFileSecretStore

inductive Op where
  | get (ns name : String)
  | put (secret : Secret)
  | delete (ns name : String)
deriving DecidableEq

abbrev Res : Op → Type
  | .get _ _ => Except (Option Error) (Option Secret)
  | .put _ => Except (Option Error) Unit
  | .delete _ _ => Except (Option Error) Bool

def EncryptedFileSecretStore.exec (store : EncryptedFileSecretStore) : (op : Op) → Disk → Res op × Disk
  | .get ns name => (store.get ns name).run
  | .put secret => (store.put secret).run
  | .delete ns name => (EncryptedFileSecretStore.delete ns name).run

abbrev Action (α : Type) := ExceptT (Option Error) (Client Op Res) α

def orFail {α : Type} : Except Error α → Action α
  | .ok a => return a
  | .error e => throw (some e)

def orPanic {α : Type} : Option α → Action α
  | some a => return a
  | none => throw none

namespace Store

def get (ns name : String) : Action (Option Secret) :=
  ExceptT.mk (Client.perform (Op.get ns name))

def put (secret : Secret) : Action Unit :=
  ExceptT.mk (Client.perform (Op.put secret))

def delete (ns name : String) : Action Bool :=
  ExceptT.mk (Client.perform (Op.delete ns name))

end Store

namespace Vault

def create (tenant name value : String) : Action SecretMetadata := do
  let r ← orFail (SecretRef.new tenant name)
  match ← Store.get r.ns r.name with
  | some _ => throw (some (.conflict s!"secret `{r.display}` already exists"))
  | none =>
    let secret := Secret.new r.ns r.name value
    Store.put secret
    return secret.metadata

def rotate (tenant name newValue : String) : Action SecretMetadata := do
  match ← Store.get tenant name with
  | none => throw (some (.notFound s!"secret `secret://{tenant}/{name}` not found"))
  | some secret =>
    let secret ← orPanic (secret.rotate newValue)
    Store.put secret
    return secret.metadata

def delete (tenant name : String) : Action Bool :=
  Store.delete tenant name

end Vault

inductive Call where
  | create (tenant name value : String)
  | rotate (tenant name newValue : String)
  | delete (tenant name : String)
deriving DecidableEq

def Call.key : Call → Key
  | .create tenant name _ | .rotate tenant name _ | .delete tenant name => (tenant, name)

inductive Reply where
  | metadata (secret : SecretMetadata)
  | deleted (existed : Bool)
deriving DecidableEq

abbrev Answer := Except (Option Error) Reply

def Vault.serve : Call → Action Reply
  | .create tenant name value => Reply.metadata <$> Vault.create tenant name value
  | .rotate tenant name newValue => Reply.metadata <$> Vault.rotate tenant name newValue
  | .delete tenant name => Reply.deleted <$> Vault.delete tenant name

-- Several processes and requests with one directory. No lock is held from one operation to the next.
def EncryptedFileSecretStore.service (store : EncryptedFileSecretStore) : Service Call Op Res Disk Answer where
  exec := store.exec
  prog c := (Vault.serve c).run
  locked _ := false

end Wovyr.Secrets
