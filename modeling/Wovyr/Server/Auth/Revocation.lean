import Wovyr.Lib.Run
import Wovyr.Server.Auth

/-!
This module contains what the commands of the command line promise about the keys, and that it is kept
while no call writes back a map that a command has outdated.
-/

namespace Wovyr.Server.Auth

open List

-- The answer of a call that began after the promise.
def Fact.Respected (a : Answer) : Fact → Prop
  | .revoked hash => a.hash = hash → a.principal = none
  | .present _ => True
  | .expires hash deadline => a.hash = hash → deadline ≤ a.now → a.principal = none

theorem Fact.Holds.refresh {map : KeyMap} {fact : Fact} (h : fact.Holds map) {hash : String}
    {record record' : KeyRecord} (hrecord : map[hash]? = some record)
    (hrevoked : record'.revoked = record.revoked)
    (hexpires : record'.expiresAtMs = record.expiresAtMs)
    : fact.Holds (map.insert hash record') := by
  have hget (key : String) (r : KeyRecord) (hr : map[key]? = some r)
      : ∃ r', (map.insert hash record')[key]? = some r' ∧ r'.revoked = r.revoked
          ∧ r'.expiresAtMs = r.expiresAtMs := by
    rw [Map.getElem?_insert]
    split
    . next heq =>
      subst heq
      cases hrecord.symm.trans hr
      exact ⟨record', rfl, hrevoked, hexpires⟩
    . exact ⟨r, hr, rfl, rfl⟩
  cases fact with
  | revoked key =>
    obtain ⟨r, hr, hrev⟩ := h
    obtain ⟨r', hr', hrev', -⟩ := hget key r hr
    exact ⟨r', hr', hrev'.trans hrev⟩
  | present key =>
    obtain ⟨r, hr⟩ := h
    obtain ⟨r', hr', -⟩ := hget key r hr
    exact ⟨r', hr'⟩
  | expires key deadline =>
    obtain ⟨r, exp, hr, hexp, hle⟩ := h
    obtain ⟨r', hr', -, hexp'⟩ := hget key r hr
    exact ⟨r', exp, hr', hexp'.trans hexp, hle⟩

theorem Fact.Holds.insert {map : KeyMap} {fact : Fact} (h : fact.Holds map) {hash : String}
    (hfresh : map[hash]? = none) (record : KeyRecord) : fact.Holds (map.insert hash record) := by
  have hget (key : String) (r : KeyRecord) (hr : map[key]? = some r)
      : (map.insert hash record)[key]? = some r := by
    rw [Map.getElem?_insert_of_ne _ _ ?_]
    . exact hr
    . rintro rfl
      rw [hfresh] at hr
      cases hr
  cases fact with
  | revoked key =>
    obtain ⟨r, hr, hrev⟩ := h
    exact ⟨r, hget key r hr, hrev⟩
  | present key =>
    obtain ⟨r, hr⟩ := h
    exact ⟨r, hget key r hr⟩
  | expires key deadline =>
    obtain ⟨r, exp, hr, hexp, hle⟩ := h
    exact ⟨r, exp, hget key r hr, hexp, hle⟩

theorem mark_getElem? (keyId : String) (f : KeyRecord → KeyRecord) (map : KeyMap) (hash : String)
    : (mark keyId f map)[hash]? = (map[hash]?).map fun r => if r.keyId = keyId then f r else r := by
  unfold mark
  rw [Std.ExtTreeMap.getElem?_map]

def Tightens (f : KeyRecord → KeyRecord) : Prop :=
  ∀ r, (r.revoked = true → (f r).revoked = true)
    ∧ ∀ exp, r.expiresAtMs = some exp → ∃ exp', (f r).expiresAtMs = some exp' ∧ exp' ≤ exp

theorem Fact.Holds.mark {map : KeyMap} {fact : Fact} (h : fact.Holds map) {f : KeyRecord → KeyRecord}
    (hf : Tightens f) (keyId : String) : fact.Holds (mark keyId f map) := by
  have hg : Tightens fun r => if r.keyId = keyId then f r else r := by
    intro r
    dsimp only
    split
    . exact hf r
    . exact ⟨id, fun exp hexp => ⟨exp, hexp, Nat.le_refl exp⟩⟩
  cases fact with
  | revoked key =>
    obtain ⟨r, hr, hrev⟩ := h
    refine ⟨_, ?_, (hg r).1 hrev⟩
    rw [mark_getElem?, hr, Option.map_some]
  | present key =>
    obtain ⟨r, hr⟩ := h
    refine ⟨if r.keyId = keyId then f r else r, ?_⟩
    rw [mark_getElem?, hr, Option.map_some]
  | expires key deadline =>
    obtain ⟨r, exp, hr, hexp, hle⟩ := h
    obtain ⟨exp', hexp', hle'⟩ := (hg r).2 exp hexp
    refine ⟨_, exp', ?_, hexp', Nat.le_trans hle' hle⟩
    rw [mark_getElem?, hr, Option.map_some]

theorem tightens_revoke : Tightens fun r => { r with revoked := true } :=
  fun _ => ⟨fun _ => rfl, fun exp hexp => ⟨exp, hexp, Nat.le_refl exp⟩⟩

theorem tightens_expireBy (deadline : Nat) : Tightens (expireBy deadline) := by
  intro r
  refine ⟨id, ?_⟩
  intro exp hexp
  refine ⟨min exp deadline, ?_, Nat.min_le_left _ _⟩
  unfold expireBy
  dsimp only
  rw [hexp, Option.map_some, Option.getD_some]

theorem expireBy_le (deadline : Nat) (r : KeyRecord)
    : ∃ exp, (expireBy deadline r).expiresAtMs = some exp ∧ exp ≤ deadline := by
  unfold expireBy
  cases r.expiresAtMs with
  | none => exact ⟨deadline, rfl, Nat.le_refl _⟩
  | some exp => exact ⟨min exp deadline, rfl, Nat.min_le_right _ _⟩

theorem mem_hashesOf {map : KeyMap} {keyId hash : String} (h : hash ∈ hashesOf map keyId)
    : ∃ r, map[hash]? = some r ∧ r.keyId = keyId := by
  unfold hashesOf at h
  simp only [mem_map, mem_filter] at h
  obtain ⟨⟨key, r⟩, ⟨hmem, hid⟩, rfl⟩ := h
  exact ⟨r, Std.ExtTreeMap.mem_toList_iff_getElem?_eq_some.mp hmem, by simpa using hid⟩

theorem resolveLiveKey_holds {map : KeyMap} {fact : Fact} (h : fact.Holds map) (now : Nat) (hash : String)
    : fact.Holds (resolveLiveKey now map hash).2.2 := by
  unfold resolveLiveKey
  cases hrecord : map[hash]? with
  | none => exact h
  | some record =>
    dsimp only
    split
    . exact h
    . split
      . exact h.refresh hrecord rfl rfl
      . exact h

theorem resolveLiveKey_respected {map : KeyMap} {fact : Fact} (h : fact.Holds map) (now begun : Nat)
    (hash : String) : fact.Respected ⟨hash, begun, now, (resolveLiveKey now map hash).1⟩ := by
  have hdead (r : KeyRecord) (hr : map[hash]? = some r) (hlive : r.isLive now = false)
      : (resolveLiveKey now map hash).1 = none := by
    unfold resolveLiveKey
    rw [hr]
    dsimp only
    rw [hlive, Bool.not_false, if_pos rfl]
  cases fact with
  | revoked key =>
    rintro rfl
    obtain ⟨r, hr, hrev⟩ := h
    apply hdead r hr
    unfold KeyRecord.isLive
    rw [hrev, Bool.not_true, Bool.false_and]
  | present key => trivial
  | expires key deadline =>
    rintro rfl hle
    obtain ⟨r, exp, hr, hexp, hexple⟩ := h
    apply hdead r hr
    have hnot : ¬ now < exp := Nat.not_lt.mpr (Nat.le_trans hexple hle)
    unfold KeyRecord.isLive
    rw [hexp, Option.all_some, decide_eq_false hnot, Bool.and_false]

theorem Command.run_holds {hash : String → String} {now : Nat} {map map' : KeyMap} {facts : List Fact}
    {command : Command} (h : command.run hash now map = some (map', facts))
    (hfresh : ∀ key, command.minted hash = some key → map[key]? = none)
    : (∀ fact : Fact, fact.Holds map → fact.Holds map') ∧ ∀ fact ∈ facts, fact.Holds map' := by
  cases command with
  | createKey raw principal ttl =>
    cases h
    constructor
    . intro fact hfact
      exact hfact.insert (hfresh _ rfl) _
    . intro fact hmem
      cases mem_singleton.mp hmem
      exact ⟨_, Std.ExtTreeMap.getElem?_insert_self⟩
  | revoke keyId =>
    unfold run at h
    dsimp only at h
    split at h
    . cases h
      constructor
      . intro fact hfact
        exact hfact.mark tightens_revoke keyId
      . intro fact hmem
        obtain ⟨key, hkey, rfl⟩ := mem_map.mp hmem
        obtain ⟨r, hr, hid⟩ := mem_hashesOf hkey
        refine ⟨{ r with revoked := true }, ?_, rfl⟩
        rw [mark_getElem?, hr, Option.map_some, if_pos hid]
    . cases h
  | rotate keyId raw grace =>
    unfold run at h
    dsimp only at h
    split at h
    . cases h
    . cases h
      have hmarked : (Auth.mark keyId (expireBy (now + grace)) map)[hash raw]? = none := by
        rw [mark_getElem?, hfresh _ rfl, Option.map_none]
      constructor
      . intro fact hfact
        exact (hfact.mark (tightens_expireBy _) keyId).insert hmarked _
      . intro fact hmem
        rcases mem_cons.mp hmem with rfl | hmem
        . exact ⟨_, Std.ExtTreeMap.getElem?_insert_self⟩
        . obtain ⟨key, hkey, rfl⟩ := mem_map.mp hmem
          obtain ⟨r, hr, hid⟩ := mem_hashesOf hkey
          obtain ⟨exp, hexp, hle⟩ := expireBy_le (now + grace) r
          have hexpires : (Fact.expires key (now + grace)).Holds
              (Auth.mark keyId (expireBy (now + grace)) map) := by
            refine ⟨expireBy (now + grace) r, exp, ?_, hexp, hle⟩
            rw [mark_getElem?, hr, Option.map_some, if_pos hid]
          exact hexpires.insert hmarked _

namespace Store

variable {hash : String → String} {s s' : Store}

-- No command has written the file since the map that is written back was read, and modification times
-- do not go back, nor stand still where a command writes.
def Undisturbed (hash : String → String) (s : Store) : Move → Prop
  | .advance i => ∀ call, s.calls[i]? = some call →
    match call.phase with
    | .saving loaded => loaded.edits = s.edits ∧ ∀ mtime, s.mtime = some mtime → mtime ≤ s.fsClock
    | .saved loaded => loaded.edits = s.edits
    | _ => True
  | .save i => ∀ command now loaded, s.invocations[i]? = some ⟨command, now, some loaded⟩ →
    loaded.edits = s.edits ∧ (∀ mtime, s.mtime = some mtime → mtime < s.fsClock)
      ∧ ∀ key, command.minted hash = some key → loaded.map[key]? = none
  | _ => True

structure Permanent (s : Store) : Prop where
  file : ∀ e ∈ s.facts, e.fact.Holds (load s.clock s.file)
  answers : ∀ a ∈ s.answers, ∀ e ∈ s.facts, e.edit ≤ a.begun → e.fact.Respected a

def Knows (s : Store) (loaded : Loaded) : Prop :=
  loaded.edits ≤ s.edits ∧ ∀ e ∈ s.facts, e.edit ≤ loaded.edits → e.fact.Holds loaded.map

def Stamp (s : Store) (mtime : Option Nat) : Prop :=
  ∀ t, mtime = some t → ∃ t', s.mtime = some t' ∧ t ≤ t'

def Timed (s : Store) (mtime : Option Nat) (map : KeyMap) : Prop :=
  s.Stamp mtime ∧ ∀ e ∈ s.facts, ∀ t, mtime = some t → e.time ≤ t → e.fact.Holds map

def Since (s : Store) (begun : Nat) (map : KeyMap) : Prop :=
  ∀ e ∈ s.facts, e.edit ≤ begun → e.fact.Holds map

def InPhase (s : Store) (begun : Nat) : Phase → Prop
  | .begun => True
  | .statted mtime => s.Stamp mtime ∧
    ∀ e ∈ s.facts, e.edit ≤ begun → ∃ t, mtime = some t ∧ e.time ≤ t
  | .missed mtime => s.Stamp mtime
  | .read mtime loaded => s.Knows loaded ∧ s.Timed mtime loaded.map ∧ s.Since begun loaded.map
  | .ready loaded => s.Knows loaded ∧ s.Since begun loaded.map
  | .saving loaded => s.Knows loaded
  | .saved loaded => s.Knows loaded
  | .restatted mtime loaded => s.Knows loaded ∧ s.Timed mtime loaded.map
  | .done => True

structure Sound (s : Store) : Prop where
  edits : ∀ e ∈ s.facts, e.edit ≤ s.edits
  file : ∀ e ∈ s.facts, ∃ t map, s.file = some ⟨t, .records map⟩ ∧ e.time ≤ t ∧ e.fact.Holds map
  cache : ∀ cached, s.cache = some cached →
    s.Knows cached.loaded ∧ s.Timed (some cached.mtime) cached.loaded.map
  calls : ∀ call ∈ s.calls, call.begun ≤ s.edits ∧ s.InPhase call.begun call.phase
  invocations : ∀ inv ∈ s.invocations, ∀ loaded, inv.loaded = some loaded → s.Knows loaded
  answers : ∀ a ∈ s.answers, a.begun ≤ s.edits
    ∧ ∀ e ∈ s.facts, e.edit ≤ a.begun → e.fact.Respected a

structure Grows (s s' : Store) : Prop where
  edits : s.edits ≤ s'.edits
  mtime : ∀ t, s.mtime = some t → ∃ t', s'.mtime = some t' ∧ t ≤ t'
  facts : ∀ e ∈ s'.facts, e ∈ s.facts ∨ (s.edits < e.edit ∧ ∀ t, s.mtime = some t → t < e.time)

theorem Grows.of_eq (hedits : s'.edits = s.edits) (hmtime : s'.mtime = s.mtime)
    (hfacts : s'.facts = s.facts) : Grows s s' where
  edits := Nat.le_of_eq hedits.symm
  mtime t ht := ⟨t, hmtime.trans ht, Nat.le_refl t⟩
  facts _ he := Or.inl (hfacts ▸ he)

theorem Grows.stamp (h : Grows s s') {mtime : Option Nat} (hstamp : s.Stamp mtime) : s'.Stamp mtime := by
  intro t ht
  obtain ⟨t', ht', hle⟩ := hstamp t ht
  obtain ⟨t'', ht'', hle'⟩ := h.mtime t' ht'
  exact ⟨t'', ht'', Nat.le_trans hle hle'⟩

theorem Grows.knows (h : Grows s s') {loaded : Loaded} (hknows : s.Knows loaded) : s'.Knows loaded := by
  refine ⟨Nat.le_trans hknows.1 h.edits, ?_⟩
  intro e he hle
  rcases h.facts e he with hold | ⟨hnew, -⟩
  . exact hknows.2 e hold hle
  . exact absurd (Nat.le_trans hle hknows.1) (Nat.not_le.mpr hnew)

theorem Grows.timed (h : Grows s s') {mtime : Option Nat} {map : KeyMap} (htimed : s.Timed mtime map)
    : s'.Timed mtime map := by
  refine ⟨h.stamp htimed.1, ?_⟩
  intro e he t ht hle
  rcases h.facts e he with hold | ⟨-, hnew⟩
  . exact htimed.2 e hold t ht hle
  . obtain ⟨t', ht', hle'⟩ := htimed.1 t ht
    have := hnew t' ht'
    omega

theorem Grows.since (h : Grows s s') {begun : Nat} (hbegun : begun ≤ s.edits) {map : KeyMap}
    (hsince : s.Since begun map) : s'.Since begun map := by
  intro e he hle
  rcases h.facts e he with hold | ⟨hnew, -⟩
  . exact hsince e hold hle
  . omega

theorem Grows.inPhase (h : Grows s s') {begun : Nat} (hbegun : begun ≤ s.edits) {phase : Phase}
    (hphase : s.InPhase begun phase) : s'.InPhase begun phase := by
  cases phase with
  | begun => trivial
  | statted mtime =>
    refine ⟨h.stamp hphase.1, ?_⟩
    intro e he hle
    rcases h.facts e he with hold | ⟨hnew, -⟩
    . exact hphase.2 e hold hle
    . omega
  | missed mtime => exact h.stamp hphase
  | read mtime loaded =>
    exact ⟨h.knows hphase.1, h.timed hphase.2.1, h.since hbegun hphase.2.2⟩
  | ready loaded => exact ⟨h.knows hphase.1, h.since hbegun hphase.2⟩
  | saving loaded => exact h.knows hphase
  | saved loaded => exact h.knows hphase
  | restatted mtime loaded => exact ⟨h.knows hphase.1, h.timed hphase.2⟩
  | done => trivial

theorem Sound.step (hs : s.Sound) (hgrows : Grows s s') (hedits : ∀ e ∈ s'.facts, e.edit ≤ s'.edits)
    (hfile : ∀ e ∈ s'.facts, ∃ t map, s'.file = some ⟨t, .records map⟩ ∧ e.time ≤ t ∧ e.fact.Holds map)
    (hcache : ∀ cached, s'.cache = some cached → s.cache = some cached
      ∨ (s'.Knows cached.loaded ∧ s'.Timed (some cached.mtime) cached.loaded.map))
    (hcalls : ∀ call ∈ s'.calls, call ∈ s.calls
      ∨ (call.begun ≤ s'.edits ∧ s'.InPhase call.begun call.phase))
    (hinvocations : ∀ inv ∈ s'.invocations, inv ∈ s.invocations
      ∨ ∀ loaded, inv.loaded = some loaded → s'.Knows loaded)
    (hanswers : ∀ a ∈ s'.answers, a ∈ s.answers ∨ (a.begun ≤ s'.edits
      ∧ ∀ e ∈ s'.facts, e.edit ≤ a.begun → e.fact.Respected a)) : s'.Sound where
  edits := hedits
  file := hfile
  cache cached hcached := by
    rcases hcache cached hcached with hold | hnew
    . exact ⟨hgrows.knows (hs.cache cached hold).1, hgrows.timed (hs.cache cached hold).2⟩
    . exact hnew
  calls call hcall := by
    rcases hcalls call hcall with hold | hnew
    . have hle := (hs.calls call hold).1
      exact ⟨Nat.le_trans hle hgrows.edits, hgrows.inPhase hle (hs.calls call hold).2⟩
    . exact hnew
  invocations inv hinv loaded hloaded := by
    rcases hinvocations inv hinv with hold | hnew
    . exact hgrows.knows (hs.invocations inv hold loaded hloaded)
    . exact hnew loaded hloaded
  answers a ha := by
    rcases hanswers a ha with hold | hnew
    . have hle := (hs.answers a hold).1
      refine ⟨Nat.le_trans hle hgrows.edits, ?_⟩
      intro e he hbegun
      rcases hgrows.facts e he with hfact | ⟨hnew, -⟩
      . exact (hs.answers a hold).2 e hfact hbegun
      . omega
    . exact hnew

theorem Sound.load_holds (hs : s.Sound) (now : Nat) {e : Entry} (he : e ∈ s.facts)
    : e.fact.Holds (load now s.file) := by
  obtain ⟨t, map, hfile, -, hholds⟩ := hs.file e he
  rw [hfile]
  exact hholds

theorem Sound.time_le (hs : s.Sound) {e : Entry} (he : e ∈ s.facts)
    : ∃ t, s.mtime = some t ∧ e.time ≤ t := by
  obtain ⟨t, map, hfile, hle, -⟩ := hs.file e he
  refine ⟨t, ?_, hle⟩
  unfold mtime
  rw [hfile, Option.map_some]

theorem stamp_mtime (s : Store) : s.Stamp s.mtime :=
  fun t ht => ⟨t, ht, Nat.le_refl t⟩

theorem Sound.setPhase (hs : s.Sound) {i : Nat} {call : Call} (hcall : s.calls[i]? = some call)
    {phase : Phase} (hphase : s.InPhase call.begun phase) : (s.setPhase i call phase).Sound := by
  have hbegun := (hs.calls call (mem_of_getElem? hcall)).1
  have hgrows : Grows s (s.setPhase i call phase) := Grows.of_eq rfl rfl rfl
  refine hs.step hgrows hs.edits hs.file (fun _ => Or.inl) ?_ (fun _ => Or.inl) (fun _ => Or.inl)
  intro other hother
  rcases mem_or_eq_of_mem_set hother with hold | rfl
  . exact Or.inl hold
  . exact Or.inr ⟨hbegun, hgrows.inPhase hbegun hphase⟩

theorem Sound.setCache (hs : s.Sound) {mtime : Option Nat} {loaded : Loaded}
    (hknows : s.Knows loaded) (htimed : s.Timed mtime loaded.map) : (s.setCache mtime loaded).Sound := by
  unfold Store.setCache
  split
  . next t =>
    refine hs.step (Grows.of_eq rfl rfl rfl) hs.edits hs.file ?_ (fun _ => Or.inl) (fun _ => Or.inl)
      (fun _ => Or.inl)
    intro cached hcached
    cases hcached
    exact Or.inr ⟨hknows, htimed⟩
  . exact hs

theorem setCache_calls (s : Store) (mtime : Option Nat) (loaded : Loaded)
    : (s.setCache mtime loaded).calls = s.calls := by
  unfold setCache
  split <;> rfl

theorem setCache_grows (s : Store) (mtime : Option Nat) (loaded : Loaded)
    : Grows s (s.setCache mtime loaded) := by
  unfold setCache
  split
  . exact Grows.of_eq rfl rfl rfl
  . exact Grows.of_eq rfl rfl rfl

theorem Sound.answer (hs : s.Sound) {call : Call} (hbegun : call.begun ≤ s.edits) {loaded : Loaded}
    (hsince : s.Since call.begun loaded.map)
    : Sound { s with
        answers := s.answers ++ [⟨call.hash, call.begun, s.clock,
          (resolveLiveKey s.clock loaded.map call.hash).1⟩] } := by
  refine hs.step (Grows.of_eq rfl rfl rfl) hs.edits hs.file (fun _ => Or.inl) (fun _ => Or.inl)
    (fun _ => Or.inl) ?_
  apply forall_mem_snoc fun _ => Or.inl
  refine Or.inr ⟨hbegun, ?_⟩
  intro e he hle
  exact resolveLiveKey_respected (hsince e he hle) _ _ _

theorem Sound.refresh (hs : s.Sound) {loaded : Loaded} (hknows : s.Knows loaded)
    (hedits : loaded.edits = s.edits) (hmtime : ∀ mtime, s.mtime = some mtime → mtime ≤ s.fsClock)
    : { s with file := some ⟨s.fsClock, .records loaded.map⟩ }.Sound
        ∧ Grows s { s with file := some ⟨s.fsClock, .records loaded.map⟩ } := by
  have hgrows : Grows s { s with file := some ⟨s.fsClock, .records loaded.map⟩ } := by
    refine ⟨Nat.le_refl _, ?_, fun _ => Or.inl⟩
    intro t ht
    exact ⟨s.fsClock, rfl, hmtime t ht⟩
  refine ⟨?_, hgrows⟩
  refine hs.step hgrows hs.edits ?_ (fun _ => Or.inl) (fun _ => Or.inl) (fun _ => Or.inl)
    (fun _ => Or.inl)
  intro e he
  obtain ⟨t, ht, hle⟩ := hs.time_le he
  refine ⟨s.fsClock, loaded.map, rfl, Nat.le_trans hle (hmtime t ht), ?_⟩
  apply hknows.2 e he
  rw [hedits]
  exact hs.edits e he

theorem Sound.advance (hs : s.Sound) {i : Nat} {call : Call} (hcall : s.calls[i]? = some call)
    (hguard : s.Undisturbed hash (.advance i)) : (s.advance i call).Sound := by
  obtain ⟨hbegun, hphase⟩ := hs.calls call (mem_of_getElem? hcall)
  have hguard := hguard call hcall
  unfold Store.advance
  cases hcase : call.phase with
  | begun =>
    apply hs.setPhase hcall
    refine ⟨stamp_mtime s, ?_⟩
    intro e he _
    exact hs.time_le he
  | statted mtime =>
    rw [hcase] at hphase
    dsimp only
    cases hcache : s.cache with
    | none => exact hs.setPhase hcall hphase.1
    | some cached =>
      dsimp only
      split
      . next hmtime =>
        obtain ⟨hknows, htimed⟩ := hs.cache cached hcache
        refine hs.setPhase hcall ⟨hknows, ?_⟩
        intro e he hle
        obtain ⟨t, ht, htime⟩ := hphase.2 e he hle
        exact htimed.2 e he t (hmtime.symm.trans ht) htime
      . exact hs.setPhase hcall hphase.1
  | missed mtime =>
    rw [hcase] at hphase
    refine hs.setPhase hcall ⟨⟨Nat.le_refl _, ?_⟩, ⟨hphase, ?_⟩, ?_⟩
    . intro e he _
      exact hs.load_holds _ he
    . intro e he _ _ _
      exact hs.load_holds _ he
    . intro e he _
      exact hs.load_holds _ he
  | read mtime loaded =>
    rw [hcase] at hphase
    obtain ⟨hknows, htimed, hsince⟩ := hphase
    have hgrows := setCache_grows s mtime loaded
    refine (hs.setCache hknows htimed).setPhase ?_ ⟨hgrows.knows hknows, hgrows.since hbegun hsince⟩
    rw [setCache_calls]
    exact hcall
  | ready loaded =>
    rw [hcase] at hphase
    obtain ⟨hknows, hsince⟩ := hphase
    have hnext : s.InPhase call.begun (if (resolveLiveKey s.clock loaded.map call.hash).2.1 then
        .saving ⟨(resolveLiveKey s.clock loaded.map call.hash).2.2, loaded.edits⟩ else .done) := by
      split
      . refine ⟨hknows.1, ?_⟩
        intro e he hle
        exact resolveLiveKey_holds (hknows.2 e he hle) _ _
      . trivial
    exact (hs.answer hbegun hsince).setPhase hcall ((Grows.of_eq rfl rfl rfl).inPhase hbegun hnext)
  | saving loaded =>
    rw [hcase] at hphase hguard
    obtain ⟨hsound, hgrows⟩ := hs.refresh hphase hguard.1 hguard.2
    exact hsound.setPhase hcall (hgrows.knows hphase)
  | saved loaded =>
    rw [hcase] at hphase hguard
    refine hs.setPhase hcall ⟨hphase, stamp_mtime s, ?_⟩
    intro e he _ _ _
    apply hphase.2 e he
    rw [hguard]
    exact hs.edits e he
  | restatted mtime loaded =>
    rw [hcase] at hphase
    refine (hs.setCache hphase.1 hphase.2).setPhase ?_ trivial
    rw [setCache_calls]
    exact hcall
  | done => exact hs

theorem Sound.save (hs : s.Sound) {inv : Invocation} {loaded : Loaded} (hknows : s.Knows loaded)
    (hedits : loaded.edits = s.edits) (hmtime : ∀ mtime, s.mtime = some mtime → mtime < s.fsClock)
    (hfresh : ∀ key, inv.command.minted hash = some key → loaded.map[key]? = none)
    : (s.save hash inv loaded).Sound := by
  unfold Store.save
  cases hrun : inv.command.run hash inv.now loaded.map with
  | none => exact hs
  | some result =>
    obtain ⟨map, facts⟩ := result
    obtain ⟨hkeep, hnew⟩ := Command.run_holds hrun hfresh
    dsimp only
    refine hs.step ⟨Nat.le_succ _, ?_, ?_⟩ ?_ ?_ (fun _ => Or.inl) (fun _ => Or.inl) (fun _ => Or.inl)
      (fun _ => Or.inl)
    . intro t ht
      exact ⟨s.fsClock, rfl, Nat.le_of_lt (hmtime t ht)⟩
    . intro e he
      rcases mem_append.mp he with hold | hadded
      . exact Or.inl hold
      . obtain ⟨fact, -, rfl⟩ := mem_map.mp hadded
        exact Or.inr ⟨Nat.lt_succ_self _, hmtime⟩
    . intro e he
      rcases mem_append.mp he with hold | hadded
      . exact Nat.le_succ_of_le (hs.edits e hold)
      . obtain ⟨fact, -, rfl⟩ := mem_map.mp hadded
        exact Nat.le_refl _
    . intro e he
      refine ⟨s.fsClock, map, rfl, ?_⟩
      rcases mem_append.mp he with hold | hadded
      . obtain ⟨t, ht, hle⟩ := hs.time_le hold
        refine ⟨Nat.le_of_lt (Nat.lt_of_le_of_lt hle (hmtime t ht)), ?_⟩
        apply hkeep
        apply hknows.2 e hold
        rw [hedits]
        exact hs.edits e hold
      . obtain ⟨fact, hfact, rfl⟩ := mem_map.mp hadded
        exact ⟨Nat.le_refl _, hnew fact hfact⟩

theorem Sound.move (hs : s.Sound) {m : Move} (hguard : s.Undisturbed hash m)
    : (s.move hash m).Sound := by
  cases m with
  | request raw =>
    refine hs.step (Grows.of_eq rfl rfl rfl) hs.edits hs.file (fun _ => Or.inl) ?_ (fun _ => Or.inl)
      (fun _ => Or.inl)
    apply forall_mem_snoc fun _ => Or.inl
    exact Or.inr ⟨Nat.le_refl _, trivial⟩
  | advance i =>
    unfold Store.move
    dsimp only
    split
    . exact hs
    . next call hcall => exact hs.advance hcall hguard
  | invoke command =>
    refine hs.step (Grows.of_eq rfl rfl rfl) hs.edits hs.file (fun _ => Or.inl) (fun _ => Or.inl) ?_
      (fun _ => Or.inl)
    apply forall_mem_snoc fun _ => Or.inl
    exact Or.inr nofun
  | load i =>
    unfold Store.move
    dsimp only
    split
    . refine hs.step (Grows.of_eq rfl rfl rfl) hs.edits hs.file (fun _ => Or.inl) (fun _ => Or.inl) ?_
        (fun _ => Or.inl)
      intro inv hinv
      rcases mem_or_eq_of_mem_set hinv with hold | rfl
      . exact Or.inl hold
      . right
        intro loaded hloaded
        cases hloaded
        exact ⟨Nat.le_refl _, fun e he _ => hs.load_holds _ he⟩
    . exact hs
  | save i =>
    unfold Store.move
    dsimp only
    split
    . next command now loaded hinv =>
      obtain ⟨hedits, hmtime, hfresh⟩ := hguard command now loaded hinv
      have hknows := hs.invocations _ (mem_of_getElem? hinv) loaded rfl
      have herased : { s with invocations := s.invocations.eraseIdx i }.Sound :=
        hs.step (Grows.of_eq rfl rfl rfl) hs.edits hs.file (fun _ => Or.inl) (fun _ => Or.inl)
          (fun _ h => Or.inl (mem_of_mem_eraseIdx h)) (fun _ => Or.inl)
      exact herased.save hknows hedits hmtime hfresh
    . exact hs
  | setClock clock => exact ⟨hs.edits, hs.file, hs.cache, hs.calls, hs.invocations, hs.answers⟩
  | setFsClock clock => exact ⟨hs.edits, hs.file, hs.cache, hs.calls, hs.invocations, hs.answers⟩

/--
In every interleaving of calls of `principal_for` with commands of the command line, from any file:
what `revoke`, `create_key` and `rotate` have written stays true of the file, and of the answer of every
call that begins afterwards, as long as no call writes back or caches a map that was read before a
command wrote the file, and every command's write has a later modification time than the file had.
-/
theorem permanent_of_run (hash : String → String) (file : Option KeyFile) (clock fsClock : Nat)
    (moves : List Move) (s : Store)
    (hrun : Run (Guarded (Undisturbed hash) (move hash)) { file, clock, fsClock } moves s)
    : s.Permanent := by
  have hsound : s.Sound := by
    apply Run.invariant _ hrun
    . exact ⟨nofun, nofun, nofun, nofun, nofun, nofun⟩
    . rintro s m _ hs ⟨hguard, rfl⟩
      exact hs.move hguard
  refine ⟨fun e he => hsound.load_holds _ he, ?_⟩
  intro a ha e he hle
  exact (hsound.answers a ha).2 e he hle

def oneKey : Store where
  file := some ⟨1, .records ((∅ : KeyMap).insert "k" { keyId := "key_k", principal := "ana", createdAtMs := 0 })⟩
  fsClock := 2

def fromOneKey (moves : List Move) : Store :=
  moves.foldl (move id) oneKey

def revokeKey : List Move :=
  [.invoke (.revoke "key_k"), .load 0, .save 0]

instance (hash : String → String) (s : Store) : DecidablePred (Undisturbed hash s)
  | .advance i =>
    have (call : Call) : Decidable (match call.phase with
        | .saving loaded => loaded.edits = s.edits ∧ ∀ mtime, s.mtime = some mtime → mtime ≤ s.fsClock
        | .saved loaded => loaded.edits = s.edits
        | _ => True) :=
      match call.phase with
      | .saving loaded =>
        inferInstanceAs (Decidable (loaded.edits = s.edits ∧ ∀ mtime ∈ s.mtime, mtime ≤ s.fsClock))
      | .saved loaded => inferInstanceAs (Decidable (loaded.edits = s.edits))
      | .begun | .statted _ | .missed _ | .read _ _ | .ready _ | .restatted _ _ | .done => isTrue trivial
    inferInstanceAs (Decidable (∀ call ∈ s.calls[i]?, _))
  | .save i =>
    match h : s.invocations[i]? with
    | some ⟨command, now, some loaded⟩ =>
      decidable_of_iff (loaded.edits = s.edits ∧ (∀ mtime ∈ s.mtime, mtime < s.fsClock)
          ∧ ∀ key ∈ command.minted hash, loaded.map[key]? = none)
        ⟨fun hs _ _ _ heq => by cases h.symm.trans heq; exact hs, fun hs => hs _ _ _ h⟩
    | some ⟨_, _, none⟩ | none => isTrue fun _ _ _ heq => by cases h.symm.trans heq
  | .request _ | .invoke _ | .load _ | .setClock _ | .setFsClock _ => isTrue trivial

-- The key `k` is used and rotated, and refused after the grace. Its successor is used and revoked.
def rotateAndRevoke : List Move :=
  .request "k" :: replicate 8 (.advance 0)
    ++ [.invoke (.rotate "key_k" "k2" 5), .setFsClock 3, .load 0, .save 0, .setClock 5, .request "k"]
    ++ replicate 5 (.advance 1) ++ .request "k2" :: replicate 8 (.advance 2)
    ++ [.invoke (.revoke "key_k2"), .setFsClock 4, .load 0, .save 0, .request "k2"] ++ replicate 5 (.advance 3)

theorem permanent_rotated_revoked
    : (fromOneKey rotateAndRevoke).facts = [⟨.present "k2", 1, 3⟩, ⟨.expires "k" 5, 1, 3⟩, ⟨.revoked "k2", 2, 4⟩]
        ∧
      (fromOneKey rotateAndRevoke).answers
        = [⟨"k", 0, 0, some "ana"⟩, ⟨"k", 1, 5, none⟩, ⟨"k2", 1, 5, some "ana"⟩, ⟨"k2", 2, 5, none⟩]
        ∧
      (fromOneKey rotateAndRevoke).Permanent := by
  refine ⟨by decide, by decide, ?_⟩
  apply permanent_of_run id oneKey.file 0 2 rotateAndRevoke
  apply Run.of_take
  decide

def refreshed : Store :=
  fromOneKey ([.request "k", .advance 0, .advance 0, .advance 0, .advance 0, .advance 0] ++ revokeKey
    ++ [.advance 0, .request "k", .advance 1, .advance 1, .advance 1, .advance 1, .advance 1])

theorem not_permanent_refreshed : ¬refreshed.Permanent := by
  intro h
  have hanswer : (⟨"k", 1, 0, some "ana"⟩ : Answer) ∈ refreshed.answers := by
    decide
  have hfact : (⟨.revoked "k", 1, 2⟩ : Entry) ∈ refreshed.facts := by
    decide
  cases h.answers _ hanswer _ hfact (Nat.le_refl 1) rfl

end Wovyr.Server.Auth.Store
