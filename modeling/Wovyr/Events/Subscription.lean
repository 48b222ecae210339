import Mathlib.Data.List.Sort
import Mathlib.Data.String.Basic
import Wovyr.Common
import Wovyr.Lib.Bytes
import Wovyr.Lib.Map
import Wovyr.Json.Value

/-!
This module contains webhook subscriptions, the events they match and the catalog that keeps them. The
first eight bytes of a SHA-256 are a parameter.
-/

namespace Wovyr

structure Event where
  id : String
  eventType : String
  version : String := "1"
  tenant : String
  timestampMs : Nat
  payload : Value
deriving DecidableEq

structure WebhookSubscription where
  id : String
  tenant : String
  url : String
  events : List String
  secret : String
  active : Bool := true
deriving DecidableEq

def topicMatches (pattern eventType : String) : Bool :=
  if pattern == "*" then
    true
  else
    match Text.stripSuffix "*" pattern with
    | some start => (Text.stripPrefix start eventType).isSome
    | none => pattern == eventType

def sortedTopics (events : List String) : List String :=
  events.insertionSort (· ≤ ·)

def idText (tenant url : String) (events : List String) : String :=
  tenant ++ "|" ++ (url ++ "|" ++ Text.join "," (sortedTopics events))

def deriveId (digest : List UInt8 → List UInt8) (tenant url : String) (events : List String) : String :=
  "wh-" ++ Bytes.hexLower (digest (Bytes.utf8 (idText tenant url events).toList))

namespace WebhookSubscription

def new (digest : List UInt8 → List UInt8) (tenant url : String) (events : List String)
    (secret : String) : WebhookSubscription where
  id := deriveId digest tenant url events
  tenant
  url
  events
  secret

def matchesType (sub : WebhookSubscription) (eventType : String) : Bool :=
  sub.active && sub.events.any fun p => topicMatches p eventType

end WebhookSubscription

structure WebhookState where
  subscriptions : Std.ExtTreeMap String WebhookSubscription := ∅

namespace WebhookState

def register (s : WebhookState) (sub : WebhookSubscription) : WebhookState :=
  { s with subscriptions := s.subscriptions.insert sub.id sub }

def get (s : WebhookState) (id : String) : Option WebhookSubscription :=
  s.subscriptions[id]?

def list (s : WebhookState) (tenant : String) : List WebhookSubscription :=
  s.subscriptions.values.filter fun sub => sub.tenant == tenant

def delete (s : WebhookState) (id : String) : Except Error WebhookState :=
  match s.subscriptions[id]? with
  | none => .error (.notFound s!"webhook `{id}` not found")
  | some _ => .ok { s with subscriptions := s.subscriptions.erase id }

def matchingSubs (s : WebhookState) (tenant eventType : String) : List WebhookSubscription :=
  (s.list tenant).filter fun sub => sub.matchesType eventType

end WebhookState

theorem deriveId_eq_iff {digest : List UInt8 → List UInt8} (hdigest : Function.Injective digest)
    {tenant tenant' url url' : String} {events events' : List String}
    : deriveId digest tenant url events = deriveId digest tenant' url' events'
        ↔ idText tenant url events = idText tenant' url' events' := by
  unfold deriveId
  constructor
  . intro h
    rw [← String.toList_inj, String.toList_append, String.toList_append] at h
    have hhex := String.toList_inj.mp (List.append_cancel_left h)
    exact String.toList_inj.mp (Bytes.utf8_injective (hdigest (Bytes.hexLower_injective hhex)))
  . intro h
    rw [h]

theorem sortedTopics_eq_iff {events events' : List String}
    : sortedTopics events = sortedTopics events' ↔ events.Perm events' := by
  unfold sortedTopics
  constructor
  . intro h
    have hperm := List.perm_insertionSort (· ≤ ·) events
    rw [h] at hperm
    exact hperm.symm.trans (List.perm_insertionSort (· ≤ ·) events')
  . intro h
    have hperm := ((List.perm_insertionSort (· ≤ ·) events).trans h).trans
      (List.perm_insertionSort (· ≤ ·) events').symm
    exact hperm.eq_of_pairwise' (List.pairwise_insertionSort _ _) (List.pairwise_insertionSort _ _)

structure Plain (tenant url : String) (events : List String) : Prop where
  tenant : '|' ∉ tenant.toList
  url : '|' ∉ url.toList
  events : ∀ topic ∈ events, topic ≠ "" ∧ ',' ∉ topic.toList

theorem deriveId_eq_iff_of_plain {digest : List UInt8 → List UInt8} (hdigest : Function.Injective digest)
    {tenant tenant' url url' : String} {events events' : List String} (h : Plain tenant url events)
    (h' : Plain tenant' url' events')
    : deriveId digest tenant url events = deriveId digest tenant' url' events'
        ↔ tenant = tenant' ∧ url = url' ∧ events.Perm events' := by
  have htopics (es : List String) (hes : ∀ topic ∈ es, topic ≠ "" ∧ ',' ∉ topic.toList)
      : ∀ topic ∈ sortedTopics es, topic ≠ "" ∧ ',' ∉ topic.toList :=
    fun topic hmem => hes topic ((List.mem_insertionSort _).mp hmem)
  rw [deriveId_eq_iff hdigest]
  unfold idText
  constructor
  . intro heq
    obtain ⟨htenant, hrest⟩ := Text.joined_inj (by rfl) h.tenant h'.tenant heq
    obtain ⟨hurl, hjoin⟩ := Text.joined_inj (by rfl) h.url h'.url hrest
    have hsorted := Text.join_inj (by rfl) (htopics _ h.events) (htopics _ h'.events) hjoin
    exact ⟨htenant, hurl, (sortedTopics_eq_iff).mp hsorted⟩
  . rintro ⟨rfl, rfl, hperm⟩
    rw [(sortedTopics_eq_iff).mpr hperm]

end Wovyr
