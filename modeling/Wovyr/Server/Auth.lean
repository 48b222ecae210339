import Wovyr.Lib.Map

/-!
This module contains the file of the API keys as the server and the command line work on it at the
same time. A call is cut into its looks at the file, the cache and the clock.
-/

namespace Wovyr.Server.Auth

structure KeyRecord where
  keyId : String
  principal : String
  createdAtMs : Nat
  expiresAtMs : Option Nat := none
  revoked : Bool := false
  lastUsedMs : Option Nat := none
deriving DecidableEq

abbrev KeyMap := Std.ExtTreeMap String KeyRecord

def KeyRecord.isLive (r : KeyRecord) (now : Nat) : Bool :=
  !r.revoked && r.expiresAtMs.all fun exp => decide (now < exp)

def keyIdFor (hash : String) : String :=
  "key_" ++ String.ofList (hash.toList.take 12)

def lastUsedPersistIntervalMs : Nat := 60000

-- The principal, whether the map has to be written back, and the map.
def resolveLiveKey (now : Nat) (map : KeyMap) (hash : String) : Option String × Bool × KeyMap :=
  match map[hash]? with
  | none => (none, false, map)
  | some record =>
    if !record.isLive now then
      (none, false, map)
    else if record.lastUsedMs.all fun lu => decide (now - lu ≥ lastUsedPersistIntervalMs) then
      (some record.principal, true, map.insert hash { record with lastUsedMs := some now })
    else
      (some record.principal, false, map)

inductive Content where
  | records (map : KeyMap)
  -- The format of earlier versions.
  | principals (map : Std.ExtTreeMap String String)
  | other

structure KeyFile where
  mtime : Nat
  content : Content

def load (now : Nat) : Option KeyFile → KeyMap
  | none => ∅
  | some ⟨_, .records map⟩ => map
  | some ⟨_, .principals map⟩ => map.map fun hash principal =>
    { keyId := keyIdFor hash, principal, createdAtMs := now }
  | some ⟨_, .other⟩ => ∅

inductive Command where
  | createKey (raw principal : String) (ttl : Option Nat)
  | revoke (keyId : String)
  | rotate (keyId raw : String) (grace : Nat)

inductive Fact where
  | revoked (hash : String)
  | present (hash : String)
  | expires (hash : String) (deadline : Nat)
deriving DecidableEq

def Fact.Holds (map : KeyMap) : Fact → Prop
  | .revoked hash => ∃ r, map[hash]? = some r ∧ r.revoked = true
  | .present hash => ∃ r, map[hash]? = some r
  | .expires hash deadline => ∃ r exp, map[hash]? = some r ∧ r.expiresAtMs = some exp ∧ exp ≤ deadline

section

variable (hash : String → String)

def hashesOf (map : KeyMap) (keyId : String) : List String :=
  (map.toList.filter fun p => p.2.keyId == keyId).map Prod.fst

def mark (keyId : String) (f : KeyRecord → KeyRecord) (map : KeyMap) : KeyMap :=
  map.map fun _ r => if r.keyId = keyId then f r else r

-- Expire after the grace, unless already sooner.
def expireBy (deadline : Nat) (r : KeyRecord) : KeyRecord :=
  { r with expiresAtMs := some ((r.expiresAtMs.map (min · deadline)).getD deadline) }

-- The map that a command writes and what it promises then, unless it has nothing to write.
def Command.run (now : Nat) (map : KeyMap) : Command → Option (KeyMap × List Fact)
  | .createKey raw principal ttl =>
    let record : KeyRecord := {
      keyId := keyIdFor (hash raw)
      principal
      createdAtMs := now
      expiresAtMs := ttl.map (now + ·) }
    some (map.insert (hash raw) record, [.present (hash raw)])
  | .revoke keyId =>
    if map.values.any (·.keyId == keyId) then
      some (mark keyId (fun r => { r with revoked := true }) map,
        (hashesOf map keyId).map .revoked)
    else
      none
  | .rotate keyId raw grace =>
    match map.values.find? (·.keyId == keyId) with
    | none => none
    | some old =>
      let deadline := now + grace
      let marked := mark keyId (expireBy deadline) map
      let record : KeyRecord := {
        keyId := keyIdFor (hash raw)
        principal := old.principal
        createdAtMs := now }
      some (marked.insert (hash raw) record,
        .present (hash raw) :: (hashesOf map keyId).map (.expires · deadline))

def Command.minted : Command → Option String
  | .createKey raw _ _ => some (hash raw)
  | .revoke _ => none
  | .rotate _ raw _ => some (hash raw)

end

structure Loaded where
  map : KeyMap
  edits : Nat

structure CachedKeys where
  mtime : Nat
  loaded : Loaded

inductive Phase where
  | begun
  | statted (mtime : Option Nat)
  | missed (mtime : Option Nat)
  | read (mtime : Option Nat) (loaded : Loaded)
  | ready (loaded : Loaded)
  | saving (loaded : Loaded)
  | saved (loaded : Loaded)
  | restatted (mtime : Option Nat) (loaded : Loaded)
  | done

structure Call where
  hash : String
  -- How many commands had written the file when the call began.
  begun : Nat
  phase : Phase := .begun

structure Invocation where
  command : Command
  now : Nat
  loaded : Option Loaded := none

structure Answer where
  hash : String
  begun : Nat
  now : Nat
  principal : Option String
deriving DecidableEq

structure Entry where
  fact : Fact
  -- The number of the command that promised it, and the modification time of its write.
  edit : Nat
  time : Nat
deriving DecidableEq

structure Store where
  file : Option KeyFile
  clock : Nat := 0
  -- The modification time that a write gets.
  fsClock : Nat := 0
  cache : Option CachedKeys := none
  calls : List Call := []
  invocations : List Invocation := []
  edits : Nat := 0
  facts : List Entry := []
  answers : List Answer := []

namespace Store

def mtime (s : Store) : Option Nat :=
  s.file.map (·.mtime)

def setPhase (s : Store) (i : Nat) (call : Call) (phase : Phase) : Store :=
  { s with calls := s.calls.set i { call with phase } }

def setCache (s : Store) (mtime : Option Nat) (loaded : Loaded) : Store :=
  match mtime with
  | some mtime => { s with cache := some ⟨mtime, loaded⟩ }
  | none => s

def advance (s : Store) (i : Nat) (call : Call) : Store :=
  match call.phase with
  | .begun => s.setPhase i call (.statted s.mtime)
  | .statted mtime =>
    match s.cache with
    | some cached =>
      if mtime = some cached.mtime then
        s.setPhase i call (.ready cached.loaded)
      else
        s.setPhase i call (.missed mtime)
    | none => s.setPhase i call (.missed mtime)
  | .missed mtime => s.setPhase i call (.read mtime ⟨load s.clock s.file, s.edits⟩)
  | .read mtime loaded => (s.setCache mtime loaded).setPhase i call (.ready loaded)
  | .ready loaded =>
    let (principal, changed, map) := resolveLiveKey s.clock loaded.map call.hash
    let s : Store := { s with answers := s.answers ++ [⟨call.hash, call.begun, s.clock, principal⟩] }
    s.setPhase i call (if changed then .saving ⟨map, loaded.edits⟩ else .done)
  | .saving loaded =>
    let s : Store := { s with file := some ⟨s.fsClock, .records loaded.map⟩ }
    s.setPhase i call (.saved loaded)
  | .saved loaded => s.setPhase i call (.restatted s.mtime loaded)
  | .restatted mtime loaded => (s.setCache mtime loaded).setPhase i call .done
  | .done => s

variable (hash : String → String)

def save (s : Store) (inv : Invocation) (loaded : Loaded) : Store :=
  match inv.command.run hash inv.now loaded.map with
  | none => s
  | some (map, facts) =>
    { s with
      file := some ⟨s.fsClock, .records map⟩
      edits := s.edits + 1
      facts := s.facts ++ facts.map fun fact => ⟨fact, s.edits + 1, s.fsClock⟩ }

inductive Move where
  | request (raw : String)
  | advance (i : Nat)
  | invoke (command : Command)
  | load (i : Nat)
  | save (i : Nat)
  | setClock (clock : Nat)
  | setFsClock (clock : Nat)

def move (s : Store) : Move → Store
  | .request raw => { s with calls := s.calls ++ [{ hash := hash raw, begun := s.edits }] }
  | .advance i =>
    match s.calls[i]? with
    | none => s
    | some call => s.advance i call
  | .invoke command => { s with invocations := s.invocations ++ [{ command, now := s.clock }] }
  | .load i =>
    match s.invocations[i]? with
    | some ⟨command, now, none⟩ =>
      { s with
        invocations := s.invocations.set i
          ⟨command, now, some ⟨Auth.load s.clock s.file, s.edits⟩⟩ }
    | _ => s
  | .save i =>
    match s.invocations[i]? with
    | some ⟨command, now, some loaded⟩ =>
      let s := { s with invocations := s.invocations.eraseIdx i }
      s.save hash ⟨command, now, some loaded⟩ loaded
    | _ => s
  | .setClock clock => { s with clock }
  | .setFsClock clock => { s with fsClock := clock }

end Wovyr.Server.Auth.Store
