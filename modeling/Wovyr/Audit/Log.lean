import Wovyr.Common
import Wovyr.Json.Text

/-!
This module contains the audit record, the JSON object that `serde` makes of it and the hash-chained audit log.
The hash function is a parameter: HMAC-SHA256 under the key of the log, or SHA-256.
-/

namespace Wovyr.Audit

inductive ActorType where
  | user
  | service
  | apiKey
  | system
deriving Repr, DecidableEq, Inhabited

structure Actor where
  principal : String
  actorType : ActorType
  tenant : String
deriving Repr, DecidableEq, Inhabited

structure Resource where
  resourceType : String
  id : String
deriving Repr, DecidableEq, Inhabited

inductive Outcome where
  | allowed
  | denied
  | error
deriving Repr, DecidableEq, Inhabited

structure AuditEvent where
  timestampMs : Nat
  actor : Actor
  action : String
  resource : Resource
  outcome : Outcome
  reason : Option String
  requestId : Option String
deriving Repr, DecidableEq, Inhabited

def AuditEvent.new (timestampMs : Nat) (principal tenant action resourceType resourceId : String)
    : AuditEvent where
  timestampMs := timestampMs
  actor := { principal, actorType := .user, tenant }
  action := action
  resource := { resourceType, id := resourceId }
  outcome := .allowed
  reason := none
  requestId := none

def ActorType.name : ActorType → String
  | .user => "user"
  | .service => "service"
  | .apiKey => "api_key"
  | .system => "system"

def Outcome.name : Outcome → String
  | .allowed => "allowed"
  | .denied => "denied"
  | .error => "error"

def Actor.toValue (a : Actor) : Value :=
  .object [("principal", .string a.principal), ("type", .string a.actorType.name),
    ("tenant", .string a.tenant)]

def Resource.toValue (r : Resource) : Value :=
  .object [("type", .string r.resourceType), ("id", .string r.id)]

def optionalField (key : String) (value : Option String) : List (String × Value) :=
  match value with
  | none => []
  | some s => [(key, .string s)]

def AuditEvent.toValue (e : AuditEvent) : Value :=
  .object ([("timestamp_ms", .int e.timestampMs), ("actor", e.actor.toValue),
      ("action", .string e.action), ("resource", e.resource.toValue),
      ("outcome", .string e.outcome.name)]
    ++ optionalField "reason" e.reason ++ optionalField "request_id" e.requestId)

theorem ActorType.name_injective : Function.Injective ActorType.name := by
  intro a b h
  cases a <;> cases b <;> first | rfl | (exact absurd h (by decide))

theorem Outcome.name_injective : Function.Injective Outcome.name := by
  intro a b h
  cases a <;> cases b <;> first | rfl | (exact absurd h (by decide))

theorem Actor.toValue_injective : Function.Injective Actor.toValue := by
  intro a b h
  simp only [toValue, Value.object.injEq, List.cons.injEq, Prod.mk.injEq, Value.string.injEq,
    true_and, and_true] at h
  obtain ⟨hprincipal, htype, htenant⟩ := h
  have htype := ActorType.name_injective htype
  cases a
  cases b
  simp_all

theorem Resource.toValue_injective : Function.Injective Resource.toValue := by
  intro a b h
  simp only [toValue, Value.object.injEq, List.cons.injEq, Prod.mk.injEq, Value.string.injEq,
    true_and, and_true] at h
  cases a
  cases b
  simp_all

theorem optionalField_append_inj {a a' b b' : Option String}
    (h : optionalField "reason" a ++ optionalField "request_id" b
      = optionalField "reason" a' ++ optionalField "request_id" b') : a = a' ∧ b = b' := by
  cases a <;> cases a' <;> cases b <;> cases b' <;> simp_all [optionalField]

theorem AuditEvent.toValue_injective : Function.Injective AuditEvent.toValue := by
  intro a b h
  simp only [toValue, List.cons_append, List.nil_append, Value.object.injEq, List.cons.injEq,
    Prod.mk.injEq, Value.string.injEq, Value.int.injEq, Int.natCast_inj, true_and] at h
  obtain ⟨htime, hactor, haction, hresource, houtcome, hrest⟩ := h
  obtain ⟨hreason, hrequest⟩ := optionalField_append_inj hrest
  have hactor := Actor.toValue_injective hactor
  have hresource := Resource.toValue_injective hresource
  have houtcome := Outcome.name_injective houtcome
  cases a
  cases b
  simp_all

theorem AuditEvent.integral_toValue (e : AuditEvent) : Json.integral e.toValue = true := by
  cases hreason : e.reason <;> cases hrequest : e.requestId <;>
    simp [toValue, Actor.toValue, Resource.toValue, optionalField, hreason, hrequest,
      Json.integral, Json.integralFields]

structure AuditEntry where
  id : String
  seq : Nat
  event : AuditEvent
  prevHash : String
  hash : String
deriving Repr, DecidableEq, Inhabited

inductive Hasher where
  | keyed (hmac : List UInt8 → List UInt8)
  | unkeyed (sha256 : List UInt8 → List UInt8)

-- No number of an entry is a float, so its text does not depend on how a float is written.
def jsonText (v : Value) : List Char :=
  Json.render (fun _ => []) v

-- What the hash of an entry commits to.
def chainInput (prevHash id : String) (seq : Nat) (event : AuditEvent) : List UInt8 :=
  Bytes.utf8 prevHash.toList
    ++ Bytes.utf8 (jsonText (.array [.string id, .int seq, event.toValue]))

def chainHash (key : Hasher) (prevHash id : String) (seq : Nat) (event : AuditEvent) : String :=
  match key with
  | .keyed hmac => Bytes.hexLower (hmac (chainInput prevHash id seq event))
  | .unkeyed sha256 => Bytes.hexLower (sha256 (chainInput prevHash id seq event))

structure HeadAnchor where
  seq : Nat
  hash : String
  mac : String
deriving Repr, DecidableEq, Inhabited

def headInput (seq : Nat) (hash : String) : List UInt8 :=
  Bytes.utf8 "wovyr-audit-head:v1:".toList ++ Bytes.leBytes 8 seq ++ Bytes.utf8 [':']
    ++ Bytes.utf8 hash.toList

def headMac (hmac : List UInt8 → List UInt8) (seq : Nat) (hash : String) : String :=
  Bytes.hexLower (hmac (headInput seq hash))

structure LogFiles where
  entries : List AuditEntry
  head : Option HeadAnchor
deriving Repr, DecidableEq, Inhabited

def LogFiles.empty : LogFiles where
  entries := []
  head := none

def tip (entries : List AuditEntry) : Nat × String :=
  match entries.getLast? with
  | some e => (e.seq + 1, e.hash)
  | none => (0, "")

-- `none` where the next sequence number is out of range of `u64`.
def record (key : Hasher) (files : LogFiles) (event : AuditEvent)
    : Option (AuditEntry × LogFiles) :=
  let (seq, prevHash) := tip files.entries
  if 2 ^ 64 ≤ seq then
    none
  else
    let id := "aud-" ++ toString seq
    let hash := chainHash key prevHash id seq event
    let entry : AuditEntry := { id, seq, event, prevHash, hash }
    let head :=
      match key with
      | .keyed hmac => some { seq, hash, mac := headMac hmac seq hash }
      | .unkeyed _ => files.head
    some (entry, { entries := files.entries ++ [entry], head })

def recordAll (key : Hasher) (files : LogFiles) : List AuditEvent → Option LogFiles
  | [] => some files
  | event :: events =>
    match record key files event with
    | none => none
    | some (_, files) => recordAll key files events

def verifyChain (key : Hasher) (i : Nat) (prev : String) : List AuditEntry → Except Error Unit
  | [] => .ok ()
  | e :: entries =>
    if e.seq ≠ i then
      .error (.invalid s!"audit chain: entry {i} has out-of-order seq {e.seq}")
    else if e.prevHash ≠ prev then
      .error (.invalid s!"audit chain broken at seq {e.seq}: prev_hash mismatch")
    else if e.hash ≠ chainHash key e.prevHash e.id e.seq e.event then
      .error (.invalid s!"audit chain broken at seq {e.seq}: hash mismatch (record tampered)")
    else
      verifyChain key (i + 1) e.hash entries

def verifyHead (hmac : List UInt8 → List UInt8) (entries : List AuditEntry)
    (head : Option HeadAnchor) : Except Error Unit :=
  match head with
  | some anchor =>
    if headMac hmac anchor.seq anchor.hash ≠ anchor.mac then
      .error (.invalid "audit head anchor tampered: MAC mismatch")
    else
      match entries.getLast? with
      | some last =>
        if last.seq < anchor.seq then
          .error (.invalid s!"audit log truncated: head anchor commits to seq {anchor.seq} but the log ends at seq {last.seq}")
        else if (entries[anchor.seq]?).map (·.hash) ≠ some anchor.hash then
          .error (.invalid s!"audit head anchor mismatch at seq {anchor.seq}: log diverged from the anchored head")
        else
          .ok ()
      | none =>
        .error (.invalid s!"audit log empty but head anchor commits to seq {anchor.seq}")
  | none =>
    if entries = [] then
      .ok ()
    else
      .error (.invalid "audit head anchor missing for a non-empty keyed log (removed?)")

def verify (key : Hasher) (files : LogFiles) : Except Error Unit := do
  verifyChain key 0 "" files.entries
  match key with
  | .keyed hmac => verifyHead hmac files.entries files.head
  | .unkeyed _ => return ()

end Wovyr.Audit
