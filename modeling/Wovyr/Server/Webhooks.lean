import Wovyr.Events.Subscription
import Wovyr.Server.Tenancy

/-!
This module contains the routes that manage webhooks, and the outbox through which events are
delivered, step by step.
-/

namespace Wovyr.Server.Webhooks

structure RegisterWebhookRequest where
  url : String
  events : List String
  secret : String

section

variable (digest : List UInt8 → List UInt8) (admins : Tenancy.PlatformAdmins) (tenancy : TenancyState)
  (webhooks : WebhookState) (headers : Headers)

def registerWebhook (req : RegisterWebhookRequest)
    : Except ApiError (WebhookSubscription × WebhookState) := do
  let ctx := Tenancy.context admins tenancy headers none
  ctx.authorize "org.admin"
  let sub := WebhookSubscription.new digest ctx.tenant req.url req.events req.secret
  return (sub, webhooks.register sub)

def deleteWebhook (id : String) : Except ApiError WebhookState := do
  let ctx := Tenancy.context admins tenancy headers none
  ctx.authorize "org.admin"
  let webhooks ← webhooks.delete id
  return webhooks

end

structure OutboxEntry where
  deliveryId : String
  tenant : String
  subId : String
  event : Event
  enqueuedAtMs : Nat
  -- How many deliveries were journaled before.
  serial : Nat
deriving DecidableEq

structure DeadLetter where
  deliveryId : String
  tenant : String
  subId : String
  url : String
  eventType : String
  attempts : Nat
  failedAtMs : Nat
  serial : Nat

structure WebhookOutbox where
  pending : Std.ExtTreeMap String OutboxEntry := ∅
  dlq : List DeadLetter := []

namespace WebhookOutbox

def enqueue (o : WebhookOutbox) (entry : OutboxEntry) : WebhookOutbox :=
  { o with pending := o.pending.insert entry.deliveryId entry }

def remove (o : WebhookOutbox) (deliveryId : String) : Option WebhookOutbox :=
  (o.pending[deliveryId]?).map fun _ => { o with pending := o.pending.erase deliveryId }

def deadLetter (o : WebhookOutbox) (deliveryId url eventType : String) (attempts failedAtMs : Nat)
    : Option WebhookOutbox :=
  (o.pending[deliveryId]?).map fun entry =>
    { pending := o.pending.erase deliveryId
      dlq := o.dlq ++ [{
        deliveryId := entry.deliveryId
        tenant := entry.tenant
        subId := entry.subId
        url, eventType, attempts, failedAtMs
        serial := entry.serial }] }

end WebhookOutbox

inductive Progress where
  | sending (attempts : Nat)
  | delivered
  | exhausted
deriving DecidableEq

structure Task where
  deliveryId : String
  sub : WebhookSubscription
  event : Event
  serial : Nat
  progress : Progress := .sending 0

structure Post where
  serial : Nat
  sub : WebhookSubscription
  event : Event

structure Dispatcher where
  subs : WebhookState := {}
  clockMs : Nat := 0
  eventCounter : Nat := 1
  outbox : WebhookOutbox := {}
  disk : WebhookOutbox := {}
  -- What `dispatch` has still to journal, and `recover_outbox` to look at.
  dispatching : List (Event × WebhookSubscription) := []
  recovering : List OutboxEntry := []
  tasks : List Task := []
  journaled : List OutboxEntry := []
  accepted : List Nat := []
  -- The deliveries whose subscription was deleted.
  cancelled : List Nat := []
  posts : List Post := []

namespace Dispatcher

variable (maxAttempts : Nat)

def persist (s : Dispatcher) (written : Bool) : Option WebhookOutbox → Dispatcher
  | none => s
  | some outbox => { s with outbox, disk := if written then outbox else s.disk }

-- Where the catalog cannot be read, there is nobody to deliver to.
def emit (s : Dispatcher) (eventType tenant : String) (payload : Value) (readable : Bool) : Dispatcher :=
  let event : Event := {
    id := "evt_" ++ toString s.eventCounter
    eventType, tenant, payload
    timestampMs := s.clockMs }
  let subs := if readable then s.subs.matchingSubs tenant eventType else []
  { s with
    eventCounter := s.eventCounter + 1
    dispatching := s.dispatching ++ subs.map (event, ·) }

def journalEntry (s : Dispatcher) (event : Event) (sub : WebhookSubscription) : OutboxEntry where
  deliveryId := event.id ++ "::" ++ sub.id
  tenant := event.tenant
  subId := sub.id
  event
  enqueuedAtMs := s.clockMs
  serial := s.journaled.length

def journal (s : Dispatcher) (i : Nat) (written : Bool) : Dispatcher :=
  match s.dispatching[i]? with
  | none => s
  | some (event, sub) =>
    let entry := s.journalEntry event sub
    let s : Dispatcher := { s with
      dispatching := s.dispatching.eraseIdx i
      journaled := s.journaled ++ [entry]
      cancelled := if (s.subs.get sub.id).isNone then s.cancelled ++ [entry.serial] else s.cancelled
      tasks := s.tasks ++ [{ deliveryId := entry.deliveryId, sub, event, serial := entry.serial }] }
    s.persist written (some (s.outbox.enqueue entry))

-- The status of one POST, or none where the transport fails.
def attempt (s : Dispatcher) (i : Nat) (status : Option Nat) : Dispatcher :=
  match s.tasks[i]? with
  | none => s
  | some task =>
    match task.progress with
    | .sending attempts =>
      let ok := status.any fun st => 200 ≤ st && st < 300
      let progress :=
        if ok then .delivered
        else if attempts + 1 < maxAttempts then .sending (attempts + 1)
        else .exhausted
      { s with
        tasks := s.tasks.set i { task with progress }
        posts := s.posts ++ [⟨task.serial, task.sub, task.event⟩]
        accepted := if ok then s.accepted ++ [task.serial] else s.accepted }
    | _ => s

def settle (s : Dispatcher) (i : Nat) (written : Bool) : Dispatcher :=
  match s.tasks[i]? with
  | none => s
  | some task =>
    let rest := { s with tasks := s.tasks.eraseIdx i }
    match task.progress with
    | .sending _ => s
    | .delivered => rest.persist written (s.outbox.remove task.deliveryId)
    | .exhausted =>
      rest.persist written
        (s.outbox.deadLetter task.deliveryId task.sub.url task.event.eventType maxAttempts s.clockMs)

-- A new process. A file that cannot be read counts as an empty one.
def restart (s : Dispatcher) (readable : Bool) : Dispatcher :=
  { s with
    eventCounter := 1
    outbox := if readable then s.disk else {}
    dispatching := []
    recovering := []
    tasks := [] }

def recoverOutbox (s : Dispatcher) : Dispatcher :=
  { s with recovering := s.outbox.pending.values }

-- A look at the catalog that fails counts as a subscription that was deleted.
def recoverNext (s : Dispatcher) (readable written : Bool) : Dispatcher :=
  match s.recovering with
  | [] => s
  | entry :: recovering =>
    let s := { s with recovering }
    match if readable then s.subs.get entry.subId else none with
    | some sub =>
      { s with
        tasks := s.tasks ++ [{
          deliveryId := entry.deliveryId
          sub
          event := entry.event
          serial := entry.serial }] }
    | none => s.persist written (s.outbox.remove entry.deliveryId)

def deleteSub (s : Dispatcher) (id : String) : Dispatcher :=
  match s.subs.delete id with
  | .error _ => s
  | .ok subs =>
    { s with
      subs
      cancelled := s.cancelled
        ++ (s.journaled.filter fun entry => entry.subId == id).map (·.serial) }

inductive Move where
  | emit (eventType tenant : String) (payload : Value) (readable : Bool)
  | journal (i : Nat) (written : Bool)
  | attempt (i : Nat) (status : Option Nat)
  | settle (i : Nat) (written : Bool)
  | register (sub : WebhookSubscription)
  | deleteSub (id : String)
  | restart (readable : Bool)
  | recoverOutbox
  | recoverNext (readable written : Bool)
  | setClock (clockMs : Nat)

def move (s : Dispatcher) : Move → Dispatcher
  | .emit eventType tenant payload readable => s.emit eventType tenant payload readable
  | .journal i written => s.journal i written
  | .attempt i status => s.attempt maxAttempts i status
  | .settle i written => s.settle maxAttempts i written
  | .register sub => { s with subs := s.subs.register sub }
  | .deleteSub id => s.deleteSub id
  | .restart readable => s.restart readable
  | .recoverOutbox => s.recoverOutbox
  | .recoverNext readable written => s.recoverNext readable written
  | .setClock clockMs => { s with clockMs }

end Wovyr.Server.Webhooks.Dispatcher
