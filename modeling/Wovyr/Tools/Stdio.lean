import Mathlib.Algebra.Order.BigOperators.Group.Finset
import Wovyr.Lib.Lines
import Wovyr.Lib.Run
import Wovyr.Tools.Tool
import Wovyr.Workflow.Definition

/-!
This module contains the requests to an MCP server over its standard streams. The lines are written and read
one character after the other, and a request can be dropped before any of these.
-/

namespace Wovyr.Tools

open Workflow (field? asU64)

def asI64 : Value → Option Int
  | .int n => if -2 ^ 63 ≤ n ∧ n < 2 ^ 63 then some n else none
  | _ => none

def asStr : Value → Option String
  | .string s => some s
  | _ => none

def rpcErrorToToolError (error : Value) : ToolError :=
  let code := ((field? "code" error).bind asI64).getD 0
  let message := ((field? "message" error).bind asStr).getD "unknown error"
  if code = -32600 ∨ code = -32602 then
    .validation s!"MCP server rejected the request ({code}): {message}"
  else
    .internal s!"MCP server error ({code}): {message}"

def extractResult (response : Value) : Except ToolError Value :=
  match field? "error" response with
  | some error => .error (rpcErrorToToolError error)
  | none =>
    match field? "result" response with
    | some result => .ok result
    | none => .error (.internal "JSON-RPC response has neither result nor error")

def rpcRequest (id : Nat) (method : String) (params : Value) : Value :=
  .object [("jsonrpc", .string "2.0"), ("id", .int id), ("method", .string method), ("params", params)]

def rpcRefusal (serverId : Value) : Value :=
  .object [("jsonrpc", .string "2.0"), ("id", serverId), ("error", .object [("code", .int (-32601)),
    ("message", .string "method not supported by this client")])]

structure Serde where
  toString : Value → List Char
  fromStr : List Char → Except String Value
  undivided : ∀ v, '\n' ∉ toString v

structure Server (json : Serde) where
  requestOf : List Char → Option Nat
  requestOf_request : ∀ id method params, requestOf (json.toString (rpcRequest id method params)) = some id
  requestOf_refusal : ∀ serverId, requestOf (json.toString (rpcRefusal serverId)) = none

/--
Where a request is: at the lock, with what is still to be written of a line, with what was read of one, or
at its end. The lines of `writing` and `reading` are the locals that are lost if it is dropped.
-/
inductive Phase where
  | unsent
  | waiting (line : List Char)
  | writing (rest : List Char)
  | reading (line : List Char)
  | returned (result : Except ToolError Value)
  | dropped

namespace Phase

def holds : Phase → Bool
  | .writing _ | .reading _ => true
  | _ => false

def isWaiting : Phase → Bool
  | .waiting _ => true
  | _ => false

def isLive (p : Phase) : Bool :=
  p.isWaiting || p.holds

end Phase

open Phase

namespace Serde

variable (json : Serde)

def line (v : Value) : List Char :=
  json.toString v ++ ['\n']

def heard (id : Nat) (line : List Char) : Phase :=
  if line.all Text.isWhitespace then
    .reading []
  else
    match json.fromStr line with
    | .error e => .returned (.error (.internal s!"MCP server sent invalid JSON: {e}: {String.ofList line}"))
    | .ok message =>
      if (field? "method" message).isSome then
        match field? "id" message with
        | some serverId => .writing (json.line (rpcRefusal serverId))
        | none => .reading []
      else if (field? "id" message).bind asU64 = some id then
        .returned (extractResult message)
      else
        .reading []

structure Answers (id : Nat) (message : Value) (response : List Char) : Prop where
  undivided : '\n' ∉ response
  seen : response.all Text.isWhitespace = false
  parsed : json.fromStr (response ++ ['\n']) = .ok message
  noMethod : field? "method" message = none
  sameId : (field? "id" message).bind asU64 = some id

structure Own (line : List Char) : Prop where
  undivided : '\n' ∉ line
  isOwn : line.all Text.isWhitespace = true
    ∨ ∃ message, json.fromStr (line ++ ['\n']) = .ok message ∧ (field? "method" message).isSome = true

variable {json}

theorem heard_answers {id : Nat} {message : Value} {response : List Char} (h : json.Answers id message response)
    (n : Nat) : json.heard n (response ++ ['\n'])
      = if id = n then .returned (extractResult message) else .reading [] := by
  have hline : (response ++ ['\n']).all Text.isWhitespace = false := by simp [List.all_append, h.seen]
  simp [heard, hline, h.parsed, h.noMethod, h.sameId]

theorem heard_own {line : List Char} (h : json.Own line) (n : Nat)
    : json.heard n (line ++ ['\n']) = .reading []
        ∨ ∃ serverId, json.heard n (line ++ ['\n']) = .writing (json.line (rpcRefusal serverId)) := by
  unfold heard
  rcases h.isOwn with hblank | ⟨message, hparsed, hmethod⟩
  . have hline : (line ++ ['\n']).all Text.isWhitespace = true := by simp [hblank, Text.isWhitespace]
    exact .inl (if_pos hline)
  . split
    . exact .inl rfl
    . simp only [hparsed, hmethod, if_true]
      split
      . exact .inr ⟨_, rfl⟩
      . exact .inl rfl

end Serde

/--
The transport between its requests and the server. The requests are counted from 1, `incoming` is what the
server has of a line, and `answers` is kept of its responses.
-/
structure StdioTransport where
  nextId : Nat := 1
  lock : Option Nat := none
  phase : Nat → Phase := fun _ => .unsent
  incoming : List Char := []
  received : List (List Char) := []
  outgoing : List Char := []
  answers : Nat → Option Value := fun _ => none

namespace StdioTransport

-- The counter is an `AtomicU64`.
def idOf (n : Nat) : Nat :=
  n % 2 ^ 64

inductive Act where
  | issue (method : String) (params : Value)
  | lock (n : Nat)
  | write (n : Nat)
  | read (n : Nat)
  | drop (n : Nat)
  | answer (line : List Char)
  | tells (line : List Char)

-- The lock is released when its holder ends.
def set (s : StdioTransport) (n : Nat) (p : Phase) : StdioTransport :=
  { s with
    phase := Function.update s.phase n p
    lock := if s.lock = some n ∧ p.holds = false then none else s.lock }

def put (s : StdioTransport) (c : Char) : StdioTransport :=
  if c = '\n' then
    { s with incoming := [], received := s.received ++ [s.incoming] }
  else
    { s with incoming := s.incoming ++ [c] }

inductive Step (json : Serde) (server : Server json) : StdioTransport → Act → StdioTransport → Prop where
  | issue {s : StdioTransport} (method : String) (params : Value) : Step json server s (.issue method params)
      { s with
        nextId := s.nextId + 1
        phase := Function.update s.phase s.nextId
          (.waiting (json.line (rpcRequest (idOf s.nextId) method params))) }
  | lock {s : StdioTransport} {n : Nat} {line : List Char} : s.lock = none → s.phase n = .waiting line
    → Step json server s (.lock n)
      { s with lock := some n, phase := Function.update s.phase n (.writing line) }
  | write {s : StdioTransport} {n : Nat} {c : Char} {rest : List Char} : s.phase n = .writing (c :: rest)
    → Step json server s (.write n) ((s.put c).set n (if rest = [] then .reading [] else .writing rest))
  | read {s : StdioTransport} {n : Nat} {c : Char} {line rest : List Char} : s.phase n = .reading line
    → s.outgoing = c :: rest → Step json server s (.read n) ({ s with outgoing := rest }.set n
        (if c = '\n' then json.heard (idOf n) (line ++ [c]) else .reading (line ++ [c])))
  | drop {s : StdioTransport} {n : Nat} : (s.phase n).isLive = true
    → Step json server s (.drop n) (s.set n .dropped)
  | answer {s : StdioTransport} {line response : List Char} {id : Nat} {message : Value} : line ∈ s.received
    → server.requestOf line = some id → json.Answers id message response → Step json server s (.answer line)
      { s with
        received := s.received.erase line
        answers := Function.update s.answers id (some message)
        outgoing := s.outgoing ++ response ++ ['\n'] }
  | tells {s : StdioTransport} {line : List Char} : json.Own line → Step json server s (.tells line)
      { s with outgoing := s.outgoing ++ line ++ ['\n'] }

def Between (s : StdioTransport) : Act → Prop
  | .issue _ _ => s.nextId < 2 ^ 64
  | .drop n =>
    match s.phase n with
    | .writing _ => s.incoming = []
    | .reading line => line = []
    | _ => True
  | _ => True

inductive Moves (json : Serde) (server : Server json) (s t : StdioTransport) : Prop where
  | lock (n : Nat) : Step json server s (.lock n) t → Moves json server s t
  | write (n : Nat) : Step json server s (.write n) t → Moves json server s t
  | read (n : Nat) : Step json server s (.read n) t → Moves json server s t
  | answer (line : List Char) : Step json server s (.answer line) t → Moves json server s t

def pending {json : Serde} (server : Server json) (s : StdioTransport) : List Nat :=
  s.received.filterMap server.requestOf

/--
A request that returned has the server's response. Without further requests and messages everything comes to its
end, and once the server has answered every request line, all that were not dropped have returned.
-/
structure Undisturbed {json : Serde} (server : Server json) (s : StdioTransport) : Prop where
  exact : ∀ n result, s.phase n = .returned result
    → ∃ message, s.answers n = some message ∧ result = extractResult message
  ends : Acc (fun u t => Moves json server t u) s
  returns : (∀ t, ¬Moves json server s t) → s.pending server = [] → ∀ n, (s.phase n).isLive = false

variable {json : Serde} {server : Server json} {s t : StdioTransport} {n m : Nat} {p : Phase} {ls ls' : List (List Char)}

def Expected (server : Server json) (s : StdioTransport) (ls : List (List Char)) (n : Nat) : Prop :=
  n ∈ s.pending server ∨ ∃ l ∈ ls, ∃ message, s.answers n = some message ∧ json.Answers n message l

def Unanswered (server : Server json) (s : StdioTransport) (n : Nat) : Prop :=
  s.answers n = none ∧ n ∉ s.pending server

def Stage (server : Server json) (s : StdioTransport) (ls : List (List Char)) (n : Nat) : Phase → Prop
  | .waiting line => ∃ l, line = l ++ ['\n'] ∧ '\n' ∉ l ∧ server.requestOf l = some n ∧ s.Unanswered server n
  | .writing rest => s.lock = some n ∧ rest ≠ [] ∧ s.outgoing = Lines.frames ls
    ∧ ∃ l, s.incoming ++ rest = l ++ ['\n'] ∧ '\n' ∉ l ∧ (server.requestOf l = some n ∧ s.Unanswered server n
      ∨ server.requestOf l = none ∧ s.Expected server ls n)
  | .reading line => s.lock = some n ∧ s.incoming = [] ∧ '\n' ∉ line ∧ line ++ s.outgoing = Lines.frames ls
    ∧ s.Expected server ls n
  | .returned result => ∃ message, s.answers n = some message ∧ result = extractResult message
  | .unsent | .dropped => True

structure Sound (server : Server json) (s : StdioTransport) (ls : List (List Char)) : Prop where
  few : s.nextId ≤ 2 ^ 64
  fresh : ∀ n, s.nextId ≤ n → s.phase n = .unsent ∧ s.Unanswered server n
  nodup : (s.pending server).Nodup
  unanswered : ∀ n ∈ s.pending server, s.answers n = none
  said : ∀ l ∈ ls, json.Own l ∨ ∃ n message, s.answers n = some message ∧ json.Answers n message l
  idle : s.lock = none → s.incoming = [] ∧ s.outgoing = Lines.frames ls
  held : ∀ n, s.lock = some n → (s.phase n).holds = true
  stage : ∀ n, s.Stage server ls n (s.phase n)

theorem sound_init : Sound server {} [] where
  few := by decide
  fresh := fun _ _ => ⟨rfl, rfl, List.not_mem_nil⟩
  nodup := List.nodup_nil
  unanswered := fun _ _ => rfl
  said := fun _ h => absurd h List.not_mem_nil
  idle := fun _ => ⟨rfl, rfl⟩
  held := by
    intro n h
    cases h
  stage := fun _ => trivial

theorem Stage.frame (h : s.Stage server ls n p) (hp : p.holds = false)
    (hnone : s.Unanswered server n → t.Unanswered server n)
    (hsome : ∀ message, s.answers n = some message → t.answers n = some message) : t.Stage server ls' n p := by
  cases p with
  | unsent => trivial
  | dropped => trivial
  | waiting line =>
    obtain ⟨l, hline, hl, hrequest, hfree⟩ := h
    exact ⟨l, hline, hl, hrequest, hnone hfree⟩
  | returned result =>
    obtain ⟨message, hanswer, hresult⟩ := h
    exact ⟨message, hsome message hanswer, hresult⟩
  | writing rest => cases hp
  | reading line => cases hp

theorem Stage.send {l : List Char} (h : s.Stage server ls n p) (hlock : t.lock = s.lock)
    (hincoming : t.incoming = s.incoming) (hout : t.outgoing = s.outgoing ++ l ++ ['\n'])
    (hnone : s.Unanswered server n → t.Unanswered server n)
    (hsome : ∀ message, s.answers n = some message → t.answers n = some message)
    (hpending : n ∈ s.pending server → t.Expected server [l] n) : t.Stage server (ls ++ [l]) n p := by
  have hexpected (hs : s.Expected server ls n) : t.Expected server (ls ++ [l]) n := by
    rcases hs with hmem | ⟨r, hr, message, hanswer, hmessage⟩
    . rcases hpending hmem with hlater | ⟨r, hr, hanswer⟩
      . exact .inl hlater
      . exact .inr ⟨r, List.mem_append_right ls hr, hanswer⟩
    . exact .inr ⟨r, List.mem_append_left [l] hr, message, hsome message hanswer, hmessage⟩
  cases p with
  | writing rest =>
    obtain ⟨hheld, hrest, hstream, x, hx, hdivided, hrequest⟩ := h
    refine ⟨hlock.trans hheld, hrest, ?_, x, hincoming.symm ▸ hx, hdivided, hrequest.imp ?_ ?_⟩
    . rw [hout, hstream, Lines.frames_snoc]
    . exact fun ⟨hx, hfree⟩ => ⟨hx, hnone hfree⟩
    . exact fun ⟨hx, hs⟩ => ⟨hx, hexpected hs⟩
  | reading line =>
    obtain ⟨hheld, hempty, hline, hstream, hs⟩ := h
    refine ⟨hlock.trans hheld, hincoming.trans hempty, hline, ?_, hexpected hs⟩
    rw [hout, Lines.frames_snoc, ← hstream]
    simp
  | unsent | dropped | waiting _ | returned _ => exact h.frame rfl hnone hsome

namespace Sound

theorem free (h : Sound server s ls) (hn : s.lock ≠ some n) : (s.phase n).holds = false := by
  have hstage := h.stage n
  cases hp : s.phase n with
  | writing rest =>
    rw [hp] at hstage
    exact absurd hstage.1 hn
  | reading line =>
    rw [hp] at hstage
    exact absurd hstage.1 hn
  | unsent | dropped | waiting _ | returned _ => rfl

theorem lt_nextId (h : Sound server s ls) (hn : s.phase n ≠ .unsent) : n < s.nextId := by
  by_contra hge
  exact hn (h.fresh n (not_lt.mp hge)).1

theorem act (h : Sound server s ls) (hn : s.phase n ≠ .unsent) (hphase : t.phase = Function.update s.phase n p)
    (hnext : t.nextId = s.nextId) (hanswers : t.answers = s.answers) (hls : ∀ l ∈ ls', l ∈ ls)
    (hpending : t.pending server = s.pending server
      ∨ t.pending server = s.pending server ++ [n] ∧ s.Unanswered server n)
    (hidle : t.lock = none → t.incoming = [] ∧ t.outgoing = Lines.frames ls')
    (hheld : ∀ m, t.lock = some m → (t.phase m).holds = true)
    (hothers : ∀ m, m ≠ n → (s.Unanswered server m → t.Unanswered server m)
      → t.Stage server ls' m (s.phase m))
    (hstage : t.Stage server ls' n p) : Sound server t ls' := by
  have hfree : ∀ m, m ≠ n → s.Unanswered server m → t.Unanswered server m := by
    intro m hm hs
    refine ⟨hanswers ▸ hs.1, ?_⟩
    rcases hpending with heq | ⟨heq, -⟩
    . exact heq ▸ hs.2
    . rw [heq, List.mem_append, List.mem_singleton, not_or]
      exact ⟨hs.2, hm⟩
  have hfresh : ∀ m, t.nextId ≤ m → m ≠ n := by
    rintro m hm rfl
    exact absurd (h.lt_nextId hn) (not_lt.mpr (hnext ▸ hm))
  constructor
  . exact hnext ▸ h.few
  . intro m hm
    obtain ⟨hunsent, hs⟩ := h.fresh m (hnext ▸ hm)
    exact ⟨by rw [hphase, Function.update_of_ne (hfresh m hm), hunsent], hfree m (hfresh m hm) hs⟩
  . rcases hpending with heq | ⟨heq, hs⟩
    . exact heq ▸ h.nodup
    . rw [heq]
      exact List.concat_eq_append ▸ h.nodup.concat hs.2
  . intro m hm
    rw [hanswers]
    rcases hpending with heq | ⟨heq, hs⟩
    . exact h.unanswered m (heq ▸ hm)
    . rw [heq] at hm
      exact forall_mem_snoc (p := fun m => s.answers m = none) h.unanswered hs.1 m hm
  . intro l hl
    rw [hanswers]
    exact h.said l (hls l hl)
  . exact hidle
  . exact hheld
  . intro m
    rw [hphase]
    by_cases hm : m = n
    . subst hm
      rw [Function.update_self]
      exact hstage
    . rw [Function.update_of_ne hm]
      exact hothers m hm (hfree m hm)

theorem others (h : Sound server s ls) (hlock : ∀ m, s.lock = some m → m = n) (hanswers : t.answers = s.answers) (m : Nat)
    (hm : m ≠ n) (hfree : s.Unanswered server m → t.Unanswered server m) : t.Stage server ls' m (s.phase m) := by
  have hp := h.free fun hheld => hm (hlock m hheld)
  exact (h.stage m).frame hp hfree fun message hmessage => hanswers ▸ hmessage

theorem last_of_line {xs rest l : List Char} {c : Char} (h : xs ++ c :: rest = l ++ ['\n']) (hl : '\n' ∉ l)
    : c = '\n' ∧ rest = [] ∧ xs = l ∨ c ≠ '\n' ∧ rest ≠ [] := by
  rcases List.eq_nil_or_concat rest with rfl | ⟨rest, d, rfl⟩
  . obtain ⟨hxs, hc⟩ := List.append_inj' h rfl
    exact .inl ⟨(List.cons.inj hc).1, rfl, hxs⟩
  . have hline : (xs ++ c :: rest) ++ [d] = l ++ ['\n'] := by simpa using h
    obtain ⟨rfl, -⟩ := List.append_inj' hline rfl
    exact .inr ⟨fun hc => hl (by simp [hc]), by simp⟩

theorem write {c : Char} {rest : List Char} (h : Sound server s ls) (hn : s.phase n = .writing (c :: rest))
    : Sound server ((s.put c).set n (if rest = [] then .reading [] else .writing rest)) ls := by
  have hstage := h.stage n
  rw [hn] at hstage
  obtain ⟨hlock, -, hstream, l, hl, hdivided, hrequest⟩ := hstage
  have hlive : s.phase n ≠ .unsent := by simp [hn]
  have hholder : ∀ m, s.lock = some m → m = n := fun m hm => Option.some.inj (hm.symm.trans hlock)
  rcases last_of_line hl hdivided with ⟨rfl, rfl, rfl⟩ | ⟨hc, hrest⟩
  . refine h.act (p := .reading []) hlive rfl rfl rfl (fun l hl => hl) ?_ ?_ ?_ (h.others hholder rfl) ?_
    . rcases hrequest with ⟨hr, hs⟩ | ⟨hr, -⟩
      . exact .inr ⟨by simp [pending, set, put, hr], hs⟩
      . exact .inl (by simp [pending, set, put, hr])
    . simp [set, put, hlock, holds]
    . simp [set, put, hlock, holds]
    . refine ⟨by simp [set, put, hlock, holds], rfl, List.not_mem_nil, hstream, ?_⟩
      rcases hrequest with ⟨hr, -⟩ | ⟨-, hs | hs⟩
      . exact .inl (by simp [pending, set, put, hr])
      . exact .inl (by simp [pending, set, put] at hs ⊢; exact .inl hs)
      . exact .inr hs
  . rw [if_neg hrest]
    have hput : s.put c = { s with incoming := s.incoming ++ [c] } := if_neg hc
    rw [hput]
    refine h.act (p := .writing rest) hlive rfl rfl rfl (fun l hl => hl) (.inl rfl) ?_ ?_ (h.others hholder rfl) ?_
    . simp [set, hlock, holds]
    . simp [set, hlock, holds]
    . exact ⟨by simp [set, hlock, holds], hrest, hstream, l, by simpa [set] using hl, hdivided, hrequest⟩

theorem heard {l : List Char} (h : Sound server s ls) (hl : l ∈ ls) (n : Nat)
    : (∃ message, s.answers n = some message ∧ json.heard n (l ++ ['\n']) = .returned (extractResult message))
        ∨ json.heard n (l ++ ['\n']) = .reading []
        ∨ ∃ serverId, json.heard n (l ++ ['\n']) = .writing (json.line (rpcRefusal serverId)) := by
  rcases h.said l hl with hown | ⟨m, message, hanswer, hmessage⟩
  . exact .inr (Serde.heard_own hown n)
  . by_cases hm : m = n
    . subst hm
      exact .inl ⟨message, hanswer, by rw [Serde.heard_answers hmessage, if_pos rfl]⟩
    . exact .inr (.inl (by rw [Serde.heard_answers hmessage, if_neg hm]))

theorem read {c : Char} {line rest : List Char} (h : Sound server s ls) (hn : s.phase n = .reading line)
    (hout : s.outgoing = c :: rest) : ∃ ls', Sound server ({ s with outgoing := rest }.set n
      (if c = '\n' then json.heard (idOf n) (line ++ [c]) else .reading (line ++ [c]))) ls' := by
  have hstage := h.stage n
  rw [hn] at hstage
  obtain ⟨hlock, hempty, hline, hstream, hexpected⟩ := hstage
  have hlive : s.phase n ≠ .unsent := by simp [hn]
  have hholder : ∀ m, s.lock = some m → m = n := fun m hm => Option.some.inj (hm.symm.trans hlock)
  rw [hout] at hstream
  by_cases hc : c = '\n'
  . subst hc
    have hdivided : ∀ l ∈ ls, '\n' ∉ l := by
      intro l hl
      rcases h.said l hl with hown | ⟨m, message, -, hmessage⟩
      . exact hown.undivided
      . exact hmessage.undivided
    obtain ⟨ls', rfl, hrest⟩ := Lines.frames_of_line hstream hline hdivided
    have hid : idOf n = n := Nat.mod_eq_of_lt (lt_of_lt_of_le (h.lt_nextId hlive) h.few)
    have hmem : ∀ l ∈ ls', l ∈ line :: ls' := fun l hl => List.mem_cons_of_mem line hl
    -- A line that does not end the request is not the response to it.
    have hlater (hnot : ∀ result, json.heard n (line ++ ['\n']) ≠ .returned result) : s.Expected server ls' n := by
      refine hexpected.imp id ?_
      rintro ⟨l, hl, message, hanswer, hmessage⟩
      rcases List.mem_cons.mp hl with rfl | hl
      . exact absurd (by rw [Serde.heard_answers hmessage, if_pos rfl]) (hnot (extractResult message))
      . exact ⟨l, hl, message, hanswer, hmessage⟩
    rw [if_pos rfl, hid]
    refine ⟨ls', ?_⟩
    rcases h.heard List.mem_cons_self n with ⟨message, hanswer, heq⟩ | heq | ⟨serverId, heq⟩
    . rw [heq]
      refine h.act hlive rfl rfl rfl hmem (.inl rfl) ?_ ?_ (h.others hholder rfl) ⟨message, hanswer, rfl⟩
      . exact fun _ => ⟨hempty, hrest⟩
      . simp [set, hlock, holds]
    . rw [heq] at hlater ⊢
      refine h.act hlive rfl rfl rfl hmem (.inl rfl) ?_ ?_ (h.others hholder rfl) ⟨?_, hempty, List.not_mem_nil,
        hrest, hlater (by simp)⟩ <;> simp [set, hlock, holds]
    . rw [heq] at hlater ⊢
      refine h.act hlive rfl rfl rfl hmem (.inl rfl) ?_ ?_ (h.others hholder rfl) ⟨?_, ?_, hrest,
        json.toString (rpcRefusal serverId), ?_, json.undivided _, .inr ⟨server.requestOf_refusal serverId,
          hlater (by simp)⟩⟩
      . simp [set, hlock, holds]
      . simp [set, hlock, holds]
      . simp [set, hlock, holds]
      . simp [Serde.line]
      . simp [set, hempty, Serde.line]
  . rw [if_neg hc]
    refine ⟨ls, h.act hlive rfl rfl rfl (fun l hl => hl) (.inl rfl) ?_ ?_ (h.others hholder rfl) ⟨?_, hempty, ?_, ?_,
      hexpected⟩⟩
    . simp [set, hlock, holds]
    . simp [set, hlock, holds]
    . simp [set, hlock, holds]
    . simp [hline, Ne.symm hc]
    . simpa [set] using hstream

theorem lock {line : List Char} (h : Sound server s ls) (hnone : s.lock = none) (hn : s.phase n = .waiting line)
    : Sound server { s with lock := some n, phase := Function.update s.phase n (.writing line) } ls := by
  have hstage := h.stage n
  rw [hn] at hstage
  obtain ⟨l, rfl, hdivided, hrequest, hs⟩ := hstage
  obtain ⟨hempty, hstream⟩ := h.idle hnone
  refine h.act (by simp [hn]) rfl rfl rfl (fun l hl => hl) (.inl rfl) ?_ ?_ (h.others ?_ rfl)
    ⟨rfl, by simp, hstream, l, by simp [hempty], hdivided, .inl ⟨hrequest, hs⟩⟩
  . simp
  . simp [holds]
  . simp [hnone]

theorem drop (h : Sound server s ls) (hlive : (s.phase n).isLive = true) (hbetween : s.Between (.drop n))
    : Sound server (s.set n .dropped) ls := by
  have hn : s.phase n ≠ .unsent := by
    intro hp
    rw [hp] at hlive
    cases hlive
  have hstage := h.stage n
  by_cases hlock : s.lock = some n
  . have hline : s.incoming = [] ∧ s.outgoing = Lines.frames ls := by
      have hholds := h.held n hlock
      simp only [Between] at hbetween
      cases hp : s.phase n with
      | writing rest =>
        rw [hp] at hbetween hstage
        exact ⟨hbetween, hstage.2.2.1⟩
      | reading line =>
        rw [hp] at hbetween hstage
        cases hbetween
        exact ⟨hstage.2.1, hstage.2.2.2.1⟩
      | unsent | dropped | waiting _ | returned _ => simp [hp, holds] at hholds
    refine h.act hn rfl rfl rfl (fun l hl => hl) (.inl rfl) (fun _ => hline) ?_ (h.others ?_ rfl) trivial
    . simp [set, hlock, holds]
    . exact fun m hm => Option.some.inj (hm.symm.trans hlock)
  . have heq : s.set n .dropped = { s with phase := Function.update s.phase n .dropped } := by simp [set, hlock]
    rw [heq]
    refine h.act hn rfl rfl rfl (fun l hl => hl) (.inl rfl) h.idle ?_ (fun m _ _ => h.stage m) trivial
    intro m hm
    have hne : m ≠ n := fun hmn => hlock (hmn ▸ hm)
    exact (congrArg holds (Function.update_of_ne hne ..)).trans (h.held m hm)

theorem issue (h : Sound server s ls) (hfew : s.nextId < 2 ^ 64) (method : String) (params : Value)
    : Sound server { s with
      nextId := s.nextId + 1
      phase := Function.update s.phase s.nextId
        (.waiting (json.line (rpcRequest (idOf s.nextId) method params))) } ls := by
  obtain ⟨hunsent, hs⟩ := h.fresh s.nextId le_rfl
  refine ⟨hfew, ?_, h.nodup, h.unanswered, h.said, h.idle, ?_, ?_⟩
  . intro n hn
    obtain ⟨hn', hs⟩ := h.fresh n (Nat.le_of_succ_le hn)
    exact ⟨(Function.update_of_ne (Nat.ne_of_gt hn) ..).trans hn', hs⟩
  . intro n hn
    have hne : n ≠ s.nextId := by
      rintro rfl
      have hholds := h.held _ hn
      rw [hunsent] at hholds
      cases hholds
    exact (congrArg holds (Function.update_of_ne hne ..)).trans (h.held n hn)
  . intro n
    dsimp only
    by_cases hn : n = s.nextId
    . subst hn
      rw [Function.update_self]
      refine ⟨_, rfl, json.undivided _, ?_, hs⟩
      rw [server.requestOf_request, idOf, Nat.mod_eq_of_lt hfew]
    . rw [Function.update_of_ne hn]
      exact h.stage n

theorem tells {l : List Char} (h : Sound server s ls) (hl : json.Own l)
    : Sound server { s with outgoing := s.outgoing ++ l ++ ['\n'] } (ls ++ [l]) := by
  refine ⟨h.few, h.fresh, h.nodup, h.unanswered, forall_mem_snoc h.said (.inl hl), ?_, h.held, ?_⟩
  . intro hlock
    obtain ⟨hempty, hstream⟩ := h.idle hlock
    exact ⟨hempty, by rw [Lines.frames_snoc, ← hstream]⟩
  . exact fun n => (h.stage n).send rfl rfl rfl id (fun _ => id) .inl

theorem answer {line response : List Char} {message : Value} (h : Sound server s ls) (hline : line ∈ s.received)
    (hn : server.requestOf line = some n) (hanswer : json.Answers n message response)
    : Sound server { s with
      received := s.received.erase line
      answers := Function.update s.answers n (some message)
      outgoing := s.outgoing ++ response ++ ['\n'] } (ls ++ [response]) := by
  have hperm : (s.pending server).Perm (n :: (s.received.erase line).filterMap server.requestOf) := by
    have hreceived := (List.perm_cons_erase hline).filterMap server.requestOf
    rwa [List.filterMap_cons_some hn] at hreceived
  obtain ⟨hnot, hnodup⟩ := List.nodup_cons.mp (hperm.nodup_iff.mp h.nodup)
  have hpending : n ∈ s.pending server := hperm.mem_iff.mpr List.mem_cons_self
  have hnone : s.answers n = none := h.unanswered n hpending
  have hkept {m : Nat} (hm : m ≠ n) : Function.update s.answers n (some message) m = s.answers m :=
    Function.update_of_ne hm ..
  have hfree {m : Nat} (hs : s.Unanswered server m) : m ≠ n
      ∧ m ∉ (s.received.erase line).filterMap server.requestOf := by
    have hmem := hs.2
    rwa [hperm.mem_iff, List.mem_cons, not_or] at hmem
  have hsome {m : Nat} {v : Value} (hv : s.answers m = some v)
      : Function.update s.answers n (some message) m = some v := by
    rw [hkept, hv]
    rintro rfl
    rw [hnone] at hv
    cases hv
  refine ⟨h.few, ?_, hnodup, ?_, forall_mem_snoc ?_ ?_, ?_, h.held, ?_⟩
  . intro m hm
    obtain ⟨hunsent, hs⟩ := h.fresh m hm
    exact ⟨hunsent, (hkept (hfree hs).1).trans hs.1, (hfree hs).2⟩
  . intro m hm
    have hne : m ≠ n := fun heq => hnot (heq ▸ hm)
    exact (hkept hne).trans (h.unanswered m (hperm.mem_iff.mpr (List.mem_cons_of_mem n hm)))
  . intro l hl
    refine (h.said l hl).imp id ?_
    rintro ⟨m, v, hv, hmessage⟩
    exact ⟨m, v, hsome hv, hmessage⟩
  . exact .inr ⟨n, message, Function.update_self .., hanswer⟩
  . intro hlock
    obtain ⟨hempty, hstream⟩ := h.idle hlock
    exact ⟨hempty, by rw [Lines.frames_snoc, ← hstream]⟩
  . intro m
    refine (h.stage m).send rfl rfl rfl (fun hs => ⟨(hkept (hfree hs).1).trans hs.1, (hfree hs).2⟩) (fun _ => hsome) ?_
    intro hm
    rcases List.mem_cons.mp (hperm.mem_iff.mp hm) with rfl | hm
    . exact .inr ⟨response, List.mem_singleton_self _, message, Function.update_self .., hanswer⟩
    . exact .inl hm

theorem step {a : Act} (h : Sound server s ls) (hbetween : s.Between a) (hstep : Step json server s a t)
    : ∃ ls', Sound server t ls' := by
  cases hstep with
  | issue method params => exact ⟨ls, h.issue hbetween method params⟩
  | lock hnone hn => exact ⟨ls, h.lock hnone hn⟩
  | write hn => exact ⟨ls, h.write hn⟩
  | read hn hout => exact h.read hn hout
  | drop hlive => exact ⟨ls, h.drop hlive hbetween⟩
  | answer hline hn hanswer => exact ⟨_, h.answer hline hn hanswer⟩
  | tells hl => exact ⟨_, h.tells hl⟩

end Sound

def unwritten : Phase → Nat
  | .writing rest => rest.length
  | _ => 0

def total (s : StdioTransport) (f : Option Value → Phase → Nat) : Nat :=
  ∑ n ∈ Finset.range s.nextId, f (s.answers n) (s.phase n)

def left (answer : Option Value) (p : Phase) : Nat :=
  (if answer.isNone then 1 else 0) + (if p.isWaiting then 1 else 0)

theorem total_lt {f : Option Value → Phase → Nat} (hnext : t.nextId = s.nextId) (hn : n < s.nextId)
    (hothers : ∀ m, m ≠ n → t.answers m = s.answers m ∧ t.phase m = s.phase m)
    (hlt : f (t.answers n) (t.phase n) < f (s.answers n) (s.phase n)) : t.total f < s.total f := by
  unfold total
  rw [hnext]
  refine Finset.sum_lt_sum ?_ ⟨n, Finset.mem_range.mpr hn, hlt⟩
  intro m _
  by_cases hm : m = n
  . exact hm ▸ hlt.le
  . rw [(hothers m hm).1, (hothers m hm).2]

theorem total_eq {f : Option Value → Phase → Nat} (hnext : t.nextId = s.nextId)
    (hothers : ∀ m, m ≠ n → t.answers m = s.answers m ∧ t.phase m = s.phase m)
    (heq : f (t.answers n) (t.phase n) = f (s.answers n) (s.phase n)) : t.total f = s.total f := by
  unfold total
  rw [hnext]
  refine Finset.sum_congr rfl ?_
  intro m _
  by_cases hm : m = n
  . exact hm ▸ heq
  . rw [(hothers m hm).1, (hothers m hm).2]

namespace Sound

/--
A response or a request at the lock leaves fewer of these, a character that is read leaves less in the stream,
and one that is written leaves less of the line.
-/
theorem decreases (h : Sound server s ls) (hmove : Moves json server s t)
    : Prod.Lex (· < ·) (Prod.Lex (· < ·) (· < ·)) (t.total left, t.outgoing.length, t.total fun _ => unwritten)
        (s.total left, s.outgoing.length, s.total fun _ => unwritten) := by
  have hothers {n : Nat} {p : Phase} (m : Nat) (hm : m ≠ n) : s.answers m = s.answers m
      ∧ Function.update s.phase n p m = s.phase m := ⟨rfl, Function.update_of_ne hm ..⟩
  have hheard {n : Nat} {line : List Char} : (json.heard n line).isWaiting = false := by
    unfold Serde.heard
    repeat' split
    all_goals rfl
  rcases hmove with ⟨n, hstep⟩ | ⟨n, hstep⟩ | ⟨n, hstep⟩ | ⟨line, hstep⟩
  . cases hstep with
    | lock hnone hn =>
      refine .left _ _ (total_lt rfl (h.lt_nextId (by simp [hn])) hothers ?_)
      simp [left, hn, isWaiting]
  . cases hstep with
    | @write _ c rest hn =>
      have hput : (s.put c).nextId = s.nextId ∧ (s.put c).answers = s.answers ∧ (s.put c).phase = s.phase
          ∧ (s.put c).outgoing = s.outgoing := by
        unfold put
        split <;> exact ⟨rfl, rfl, rfl, rfl⟩
      obtain ⟨hnext, hanswers, hphase, hout⟩ := hput
      have hkept (m : Nat) (hm : m ≠ n) : (s.put c).answers m = s.answers m
          ∧ Function.update (s.put c).phase n (if rest = [] then .reading [] else .writing rest) m = s.phase m := by
        rw [hanswers, hphase]
        exact hothers m hm
      have hleft := total_eq (t := (s.put c).set n (if rest = [] then .reading [] else .writing rest)) (s := s)
        (f := left) hnext hkept (by split <;> simp [set, left, hanswers, hn, isWaiting])
      rw [hleft]
      refine .right _ ?_
      rw [show ((s.put c).set n _).outgoing = s.outgoing from hout]
      refine .right _ (total_lt hnext (h.lt_nextId (by simp [hn])) hkept ?_)
      split <;> simp [set, unwritten, hn]
  . cases hstep with
    | @read _ c line rest hn hout =>
      have hp : (if c = '\n' then json.heard (idOf n) (line ++ [c]) else .reading (line ++ [c])).isWaiting = false := by
        split
        . exact hheard
        . rfl
      have hleft := total_eq (t := { s with outgoing := rest }.set n
        (if c = '\n' then json.heard (idOf n) (line ++ [c]) else .reading (line ++ [c]))) (s := s) (f := left) rfl
        hothers (by simp [set, left, hn, hp, show (reading line).isWaiting = false from rfl])
      rw [hleft, hout]
      exact .right _ (.left _ _ (Nat.lt_succ_self _))
  . cases hstep with
    | answer hline hn hanswer =>
      have hpending := List.mem_filterMap.mpr ⟨line, hline, hn⟩
      have hlt := not_le.mp fun hle => (h.fresh _ hle).2.2 hpending
      refine .left _ _ (total_lt rfl hlt (fun m hm => ⟨Function.update_of_ne hm .., rfl⟩) ?_)
      simp [left, h.unanswered _ hpending]

theorem ends (h : Sound server s ls) : Acc (fun u t => Moves json server t u) s := by
  have hwf : WellFounded (InvImage (Prod.Lex (· < ·) (Prod.Lex (· < ·) (· < ·)))
      fun t : StdioTransport => (t.total left, t.outgoing.length, t.total fun _ => unwritten)) :=
    InvImage.wf _ (WellFoundedRelation.wf (α := Nat × Nat × Nat))
  induction s using hwf.induction generalizing ls with
  | h s ih =>
    constructor
    intro t hmove
    obtain ⟨ls', hsound⟩ : ∃ ls', Sound server t ls' := by
      rcases hmove with ⟨n, hstep⟩ | ⟨n, hstep⟩ | ⟨n, hstep⟩ | ⟨line, hstep⟩ <;> exact h.step (by exact trivial) hstep
    exact ih t (h.decreases hmove) hsound

theorem returns (h : Sound server s ls) (hquiet : ∀ t, ¬Moves json server s t) (hpending : s.pending server = [])
    (n : Nat) : (s.phase n).isLive = false := by
  have hlock : s.lock = none := by
    rw [Option.eq_none_iff_forall_ne_some]
    intro m hm
    have hholds := h.held m hm
    have hstage := h.stage m
    cases hp : s.phase m with
    | writing rest =>
      rw [hp] at hstage
      obtain ⟨c, rest, rfl⟩ := List.exists_cons_of_ne_nil hstage.2.1
      exact hquiet _ (.write m (.write hp))
    | reading line =>
      rw [hp] at hstage
      obtain ⟨-, -, hline, hstream, hexpected⟩ := hstage
      cases hout : s.outgoing with
      | cons c rest => exact hquiet _ (.read m (.read hp hout))
      | nil =>
        rw [hout, List.append_nil] at hstream
        rcases hexpected with hmem | ⟨l, hl, -⟩
        . rw [hpending] at hmem
          exact List.not_mem_nil hmem
        . refine hline (hstream ▸ ?_)
          exact List.mem_flatMap.mpr ⟨l, hl, by simp⟩
    | unsent | dropped | waiting _ | returned _ => simp [hp, holds] at hholds
  cases hp : s.phase n with
  | waiting line => exact absurd (.lock n (.lock hlock hp)) (hquiet _)
  | unsent | dropped | returned _ => rfl
  | writing rest | reading line =>
    have hfree := h.free (n := n) (by simp [hlock])
    rw [hp] at hfree
    cases hfree

end Sound

theorem undisturbed_of_run {as : List Act} {t : StdioTransport}
    (h : Run (fun s a t => s.Between a ∧ Step json server s a t) {} as t) : t.Undisturbed server := by
  obtain ⟨ls, hsound⟩ : ∃ ls, Sound server t ls := by
    refine h.invariant (P := fun s => ∃ ls, Sound server s ls) ?_ ⟨[], sound_init⟩
    rintro s a t ⟨ls, hsound⟩ ⟨hbetween, hstep⟩
    exact hsound.step hbetween hstep
  constructor
  . intro n result hn
    have hstage := hsound.stage n
    rw [hn] at hstage
    exact hstage
  . exact hsound.ends
  . exact hsound.returns

theorem run_writes {step : StdioTransport → Act → StdioTransport → Prop} {l : List Char}
    (hstep : ∀ s t, Step json server s (.write n) t → step s (.write n) t)
    (hn : s.phase n = .writing (l ++ ['\n'])) (hl : '\n' ∉ l)
    : ∃ as, Run step s as { s with
      phase := Function.update s.phase n (.reading [])
      incoming := []
      received := s.received ++ [s.incoming ++ l] } := by
  induction l generalizing s with
  | nil =>
    refine ⟨[.write n], .cons (hstep _ _ (.write hn)) ?_⟩
    simpa [put, set, holds] using .nil _
  | cons c l ih =>
    rw [List.mem_cons, not_or] at hl
    have hwrite : Step json server s (.write n) _ := .write hn
    rw [if_neg (by simp), put, if_neg (Ne.symm hl.1)] at hwrite
    obtain ⟨as, hrun⟩ := ih (s := { s with incoming := s.incoming ++ [c] }.set n (.writing (l ++ ['\n'])))
      (Function.update_self ..) hl.2
    refine ⟨.write n :: as, .cons (hstep _ _ hwrite) ?_⟩
    simpa [set, holds] using hrun

theorem run_reads {l line rest : List Char} (hlock : s.lock = some n) (hn : s.phase n = .reading line) (hl : '\n' ∉ l)
    (hout : s.outgoing = l ++ '\n' :: rest)
    : ∃ as, Run (fun s a t => s.Between a ∧ Step json server s a t) s as
        ({ s with outgoing := rest }.set n (json.heard (idOf n) (line ++ l ++ ['\n']))) := by
  induction l generalizing s line with
  | nil =>
    have hread : Step json server s (.read n) _ := .read hn hout
    rw [if_pos rfl] at hread
    refine ⟨[.read n], .cons ⟨trivial, ?_⟩ (.nil _)⟩
    rw [List.append_nil]
    exact hread
  | cons c l ih =>
    rw [List.mem_cons, not_or] at hl
    have hread : Step json server s (.read n) _ := .read hn hout
    rw [if_neg (Ne.symm hl.1)] at hread
    obtain ⟨as, hrun⟩ := @ih ({ s with outgoing := l ++ '\n' :: rest }.set n (.reading (line ++ [c])))
      (line ++ [c]) (by simp [set, hlock, holds]) (Function.update_self ..) hl.2 rfl
    refine ⟨.read n :: as, .cons ⟨trivial, hread⟩ ?_⟩
    simpa [set, hlock, holds] using hrun

def pingLine (id : Nat) : List Char :=
  '\x7b' :: ("\"id\":".toList ++ (Nat.toDigits 10 id
    ++ ",\"jsonrpc\":\"2.0\",\"method\":\"ping\",\"params\":null\x7d".toList))

def pongLine (id : Nat) : List Char :=
  '\x7b' :: ("\"id\":".toList ++ (Nat.toDigits 10 id ++ ",\"jsonrpc\":\"2.0\",\"result\":\"pong\"\x7d".toList))

def idIn (line : List Char) : Nat :=
  Nat.ofDigitChars 10 ((line.drop 6).takeWhile Char.isDigit) 0

theorem pingLine_undivided (id : Nat) : '\n' ∉ pingLine id := by
  have hdigits : '\n' ∉ Nat.toDigits 10 id := fun h =>
    absurd (Nat.isDigit_of_mem_toDigits (by decide) (by decide) h) (by decide)
  simp [pingLine, hdigits]

def pings : Serde where
  toString v :=
    match (field? "id" v).bind asU64, field? "method" v with
    | some id, some _ => pingLine id
    | _, _ => []
  fromStr line :=
    if line = pongLine (idIn line) ++ ['\n'] then
      .ok (.object [("id", .int (idIn line)), ("jsonrpc", .string "2.0"), ("result", .string "pong")])
    else
      .error "expected value at line 1 column 1"
  undivided := by
    intro v
    split
    . exact pingLine_undivided _
    . exact List.not_mem_nil

def pingServer : Server pings where
  requestOf line :=
    if line.take 6 = "\x7b\"id\":".toList then
      some (idIn line)
    else
      none
  requestOf_request := by
    intro id method params
    have hdigits : ∀ c ∈ Nat.toDigits 10 id, c.isDigit = true := fun c h =>
      Nat.isDigit_of_mem_toDigits (by decide) (by decide) h
    have hline : pings.toString (rpcRequest id method params) = pingLine id := by
      simp [pings, rpcRequest, field?, asU64]
    rw [hline, if_pos (by simp [pingLine])]
    simp [idIn, pingLine, List.takeWhile_append_of_pos hdigits]
  requestOf_refusal := by
    intro serverId
    simp [pings, rpcRefusal, field?]

/--
A request that is dropped after its first character leaves that before the line of the next one, which the server
then does not read as a request.
-/
theorem not_undisturbed : ∃ as t, Run (Step pings pingServer) {} as t ∧ ¬t.Undisturbed pingServer := by
  have hgarbled : pingServer.requestOf (['\x7b'] ++ pingLine 2) = none := by decide
  obtain ⟨s, hrun, hphase, hothers, hlock, hincoming, hreceived, hout⟩ : ∃ s : StdioTransport,
      (∀ bs u, Run (Step pings pingServer) s bs u → ∃ as, Run (Step pings pingServer) {} as u)
      ∧ s.phase 2 = .writing (pingLine 2 ++ ['\n']) ∧ (∀ n, n ≠ 2 → (s.phase n).isLive = false) ∧ s.lock = some 2
      ∧ s.incoming = ['\x7b'] ∧ s.received = [] ∧ s.outgoing = [] := by
    refine ⟨_, fun bs u h => ⟨_, .cons (.issue "ping" .null) (.cons (.lock (n := 1) rfl rfl) (.cons (.write (n := 1) rfl)
      (.cons (.drop (n := 1) rfl) (.cons (.issue "ping" .null) (.cons (.lock (n := 2) rfl rfl) h)))))⟩,
      rfl, ?_, rfl, rfl, rfl, rfl⟩
    intro n hn
    by_cases hone : n = 1
    . subst hone
      rfl
    . simp [set, put, hn, hone, isLive, isWaiting, holds]
  obtain ⟨bs, hwrites⟩ := @run_writes pings pingServer s 2 _ (pingLine 2) (fun _ _ => id) hphase (pingLine_undivided 2)
  obtain ⟨as, hrun⟩ := hrun bs _ hwrites
  refine ⟨as, _, hrun, ?_⟩
  intro h
  refine absurd (h.returns ?_ ?_ 2) (by simp [isLive, holds])
  . rintro t (⟨n, hstep⟩ | ⟨n, hstep⟩ | ⟨n, hstep⟩ | ⟨line, hstep⟩)
    . cases hstep with
      | lock hnone _ => simp [hlock] at hnone
    . cases hstep with
      | write hn =>
        by_cases hother : n = 2
        . simp [hother] at hn
        . have hlive := hothers n hother
          simp only [Function.update_of_ne hother] at hn
          simp [hn, isLive, holds] at hlive
    . cases hstep with
      | read _ hmore => simp [hout] at hmore
    . cases hstep with
      | answer hline hrequest =>
        rw [hreceived, hincoming, List.nil_append, List.mem_singleton] at hline
        rw [hline, hgarbled] at hrequest
        cases hrequest
  . simp only [pending, hreceived, hincoming, List.nil_append]
    rw [List.filterMap_cons_none hgarbled, List.filterMap_nil]

theorem answers_pong (id : Nat) : pings.Answers id
    (.object [("id", .int id), ("jsonrpc", .string "2.0"), ("result", .string "pong")]) (pongLine id) := by
  have hdigits : ∀ c ∈ Nat.toDigits 10 id, c.isDigit = true := fun c h =>
    Nat.isDigit_of_mem_toDigits (by decide) (by decide) h
  have hid : idIn (pongLine id ++ ['\n']) = id := by
    simp [idIn, pongLine, List.takeWhile_append_of_pos hdigits]
  have hline : '\n' ∉ Nat.toDigits 10 id := fun h => absurd (hdigits _ h) (by decide)
  constructor
  . simp [pongLine, hline]
  . rfl
  . simp [pings, hid]
  . rfl
  . simp [field?, asU64]

def Polite (s : StdioTransport) (a : Act) (t : StdioTransport) : Prop :=
  s.Between a ∧ Step pings pingServer s a t

theorem run_pings (hn : s.phase n = .writing (pingLine n ++ ['\n'])) : ∃ as, Run Polite s as { s with
    phase := Function.update s.phase n (.reading [])
    incoming := []
    received := s.received ++ [s.incoming ++ pingLine n] } :=
  run_writes (fun _ _ h => ⟨trivial, h⟩) hn (pingLine_undivided n)

theorem polite_answer (hline : pingLine n ∈ s.received) (hn : pingServer.requestOf (pingLine n) = some n)
    : Polite s (.answer (pingLine n)) { s with
      received := s.received.erase (pingLine n)
      answers := Function.update s.answers n
        (some (.object [("id", .int n), ("jsonrpc", .string "2.0"), ("result", .string "pong")]))
      outgoing := s.outgoing ++ pongLine n ++ ['\n'] } :=
  ⟨trivial, .answer hline hn (answers_pong n)⟩

-- The first request is dropped once its line is written.
theorem run_drop : ∃ as s, Run Polite {} as s ∧ .drop 1 ∈ as ∧ s.lock = some 2
    ∧ s.phase 2 = .writing (pingLine 2 ++ ['\n']) ∧ s.incoming = [] ∧ s.received = [pingLine 1] ∧ s.outgoing = [] := by
  obtain ⟨s, hrun, hfirst, hsecond, hlock, hincoming, hreceived, hout⟩ : ∃ s, Run Polite {}
      [.issue "ping" .null, .issue "ping" .null, .lock 1] s ∧ s.phase 1 = .writing (pingLine 1 ++ ['\n'])
      ∧ s.phase 2 = .waiting (pingLine 2 ++ ['\n']) ∧ s.lock = some 1 ∧ s.incoming = [] ∧ s.received = []
      ∧ s.outgoing = [] :=
    ⟨_, .cons ⟨show 1 < 2 ^ 64 by decide, .issue _ _⟩ (.cons ⟨show 2 < 2 ^ 64 by decide, .issue _ _⟩
      (.cons ⟨trivial, .lock rfl rfl⟩ (.nil _))), rfl, rfl, rfl, rfl, rfl, rfl⟩
  obtain ⟨as, hwritten⟩ := run_pings hfirst
  refine ⟨_, _, (hrun.append hwritten).append (.cons ⟨?_, .drop (n := 1) ?_⟩ (.cons
    ⟨?_, @Step.lock _ _ _ 2 (pingLine 2 ++ ['\n']) ?_ ?_⟩ (.nil _))), ?_⟩
  all_goals simp [Between, set, isLive, holds, hlock, hsecond, hincoming, hreceived, hout]

-- The second one passes over the response to the first one.
theorem undisturbed_drop : ∃ as t, Run (fun s a t => s.Between a ∧ Step pings pingServer s a t) {} as t
    ∧ .drop 1 ∈ as ∧ t.phase 2 = .returned (.ok (.string "pong")) ∧ t.Undisturbed pingServer := by
  obtain ⟨as, s, hrun, hdrop, hlock, hphase, hincoming, hreceived, hout⟩ := run_drop
  obtain ⟨bs, hwritten⟩ := run_pings hphase
  rw [hincoming, hreceived] at hwritten
  have hfirst : pingServer.requestOf (pingLine 1) = some 1 := by decide
  have hsecond : pingServer.requestOf (pingLine 2) = some 2 := by decide
  have hanswer : ∃ u, Run Polite s (bs ++ [.answer (pingLine 1), .answer (pingLine 2)]) u ∧ u.lock = some 2
      ∧ u.phase 2 = .reading [] ∧ u.outgoing = pongLine 1 ++ '\n' :: (pongLine 2 ++ ['\n']) := by
    refine ⟨_, hwritten.append (.cons (polite_answer ?_ hfirst) (.cons (polite_answer ?_ hsecond) (.nil _))), hlock,
      ?_, ?_⟩
    all_goals simp [hout]
  obtain ⟨u, hanswered, hlock, hphase, hout⟩ := hanswer
  have hpass : ∃ cs v, Run Polite u cs v ∧ v.lock = some 2 ∧ v.phase 2 = .reading []
      ∧ v.outgoing = pongLine 2 ++ ['\n'] := by
    obtain ⟨cs, hpassed⟩ := run_reads hlock hphase (answers_pong 1).undivided hout
    rw [List.nil_append, Serde.heard_answers (answers_pong 1), if_neg (by decide)] at hpassed
    refine ⟨cs, _, hpassed, ?_⟩
    simp [set, hlock, holds]
  obtain ⟨cs, v, hpassed, hlock, hphase, hout⟩ := hpass
  obtain ⟨ds, hread⟩ := run_reads hlock hphase (answers_pong 2).undivided hout
  rw [List.nil_append, Serde.heard_answers (answers_pong 2), if_pos (by decide)] at hread
  have hall := ((hrun.append hanswered).append hpassed).append hread
  refine ⟨_, _, hall, ?_, ?_, undisturbed_of_run hall⟩
  . simp [hdrop]
  . simp [set, extractResult, field?]

end Wovyr.Tools.StdioTransport
