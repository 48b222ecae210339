import Wovyr.Audit.Log

/-!
This module contains the proof that the verification of a keyed log accepts exactly the recorded
entries. What an adversary may write is bounded by `Unforged`: no hash of an entry is the MAC of an
input that the log itself has not hashed.
-/

namespace Wovyr.Audit

open List Bytes

def IsHash (s : String) : Prop :=
  ∀ c ∈ s.toList, isLowerHex c = true

theorem isHash_empty : IsHash "" := by
  simp [IsHash]

theorem isHash_chainHash (key : Hasher) (prevHash id : String) (seq : Nat) (event : AuditEvent)
    : IsHash (chainHash key prevHash id seq event) := by
  intro c hc
  cases key with
  | keyed hmac => exact isLowerHex_of_mem_hexLower hc
  | unkeyed sha256 => exact isLowerHex_of_mem_hexLower hc

def body (id : String) (seq : Nat) (event : AuditEvent) : List Char :=
  jsonText (.array [.string id, .int seq, event.toValue])

theorem chainInput_eq (prevHash id : String) (seq : Nat) (event : AuditEvent)
    : chainInput prevHash id seq event = utf8 (prevHash.toList ++ body id seq event) := by
  simp only [chainInput, body, utf8_append]

theorem body_eq_cons (id : String) (seq : Nat) (event : AuditEvent)
    : ∃ rest, body id seq event = '[' :: rest := by
  simp [body, jsonText, Json.render]

theorem body_inj {id id' : String} {seq seq' : Nat} {event event' : AuditEvent}
    (h : body id seq event = body id' seq' event') : id = id' ∧ seq = seq' ∧ event = event' := by
  unfold body jsonText at h
  have hinj := Json.render_append_inj (v := .array [.string id, .int seq, event.toValue])
    (w := .array [.string id', .int seq', event'.toValue]) (s := []) (t := []) (fun _ => [])
    (by simp [Json.integral, Json.integralList, event.integral_toValue])
    (by simp [Json.integral, Json.integralList, event'.integral_toValue])
    Json.delimited_nil Json.delimited_nil (by rw [h])
  simp only [Value.array.injEq, cons.injEq, Value.string.injEq, Value.int.injEq,
    Int.natCast_inj, and_true] at hinj
  exact ⟨hinj.1, hinj.2.1, AuditEvent.toValue_injective hinj.2.2⟩

theorem takeWhile_isLowerHex {s : String} (hs : IsHash s) (id : String) (seq : Nat)
    (event : AuditEvent)
    : (s.toList ++ body id seq event).takeWhile isLowerHex = s.toList := by
  obtain ⟨rest, hrest⟩ := body_eq_cons id seq event
  rw [takeWhile_append_of_pos hs, hrest]
  simp [show isLowerHex '[' = false from rfl]

theorem chainInput_inj {prevHash prevHash' id id' : String} {seq seq' : Nat}
    {event event' : AuditEvent} (hprev : IsHash prevHash) (hprev' : IsHash prevHash')
    (h : chainInput prevHash id seq event = chainInput prevHash' id' seq' event')
    : prevHash = prevHash' ∧ id = id' ∧ seq = seq' ∧ event = event' := by
  rw [chainInput_eq, chainInput_eq] at h
  have htext := utf8_injective h
  have hsame : prevHash.toList = prevHash'.toList := by
    rw [← takeWhile_isLowerHex hprev id seq event, htext, takeWhile_isLowerHex hprev']
  rw [hsame] at htext
  exact ⟨String.toList_injective hsame, body_inj (append_cancel_left htext)⟩

theorem headInput_inj {seq seq' : Nat} {hash hash' : String} (hseq : seq < 2 ^ 64)
    (hseq' : seq' < 2 ^ 64) (h : headInput seq hash = headInput seq' hash')
    : seq = seq' ∧ hash = hash' := by
  simp only [headInput, append_assoc] at h
  obtain ⟨hbytes, hrest⟩ := append_inj (append_cancel_left h)
    (by rw [length_leBytes, length_leBytes])
  constructor
  . exact leBytes_inj (by omega) (by omega) hbytes
  . exact String.toList_injective (utf8_injective (append_cancel_left hrest))

theorem headInput_eq_cons (seq : Nat) (hash : String)
    : ∃ rest, headInput seq hash = 0x77 :: rest := by
  refine ⟨utf8 "ovyr-audit-head:v1:".toList ++ leBytes 8 seq ++ utf8 [':']
    ++ utf8 hash.toList, ?_⟩
  rfl

theorem chainInput_ne_headInput {prevHash : String} (hprev : IsHash prevHash) (id : String)
    (seq : Nat) (event : AuditEvent) (seq' : Nat) (hash : String)
    : chainInput prevHash id seq event ≠ headInput seq' hash := by
  intro h
  obtain ⟨rest, hrest⟩ := headInput_eq_cons seq' hash
  obtain ⟨tail, htail⟩ := body_eq_cons id seq event
  rw [chainInput_eq, htail, hrest] at h
  cases hcs : prevHash.toList with
  | nil =>
    rw [hcs, nil_append] at h
    have := toNat_eq_of_utf8_eq_cons (by decide) h
    cases this
  | cons c cs =>
    rw [hcs, cons_append] at h
    have hc : c.toNat = 'w'.toNat := toNat_eq_of_utf8_eq_cons (by decide) h
    have hhex := hprev c (by simp [hcs])
    rw [Char.toNat_inj.mp hc] at hhex
    cases hhex

def Linked (key : Hasher) (i : Nat) (prev : String) : List AuditEntry → Prop
  | [] => True
  | e :: entries =>
    e.seq = i ∧ i < 2 ^ 64 ∧ e.prevHash = prev ∧ e.hash = chainHash key prev e.id i e.event
      ∧ Linked key (i + 1) e.hash entries

structure Recorded (hmac : List UInt8 → List UInt8) (files : LogFiles) : Prop where
  linked : Linked (.keyed hmac) 0 "" files.entries
  head : files.head = files.entries.getLast?.map fun e =>
    { seq := e.seq, hash := e.hash, mac := headMac hmac e.seq e.hash }

theorem linked_append {key : Hasher} {i : Nat} {prev : String} {entries : List AuditEntry}
    {e : AuditEntry} (h : Linked key i prev entries)
    (he : e.seq = i + entries.length ∧ e.seq < 2 ^ 64
      ∧ e.prevHash = (entries.getLast?.map (·.hash)).getD prev
      ∧ e.hash = chainHash key e.prevHash e.id e.seq e.event)
    : Linked key i prev (entries ++ [e]) := by
  induction entries generalizing i prev with
  | nil =>
    obtain ⟨hseq, hbound, hprev, hhash⟩ := he
    simp only [length_nil, Nat.add_zero] at hseq
    simp only [getLast?_nil, Option.map_none, Option.getD_none] at hprev
    rw [nil_append]
    exact ⟨hseq, hseq ▸ hbound, hprev, hprev ▸ hseq ▸ hhash, trivial⟩
  | cons a entries ih =>
    obtain ⟨haseq, habound, haprev, hahash, hrest⟩ := h
    refine ⟨haseq, habound, haprev, hahash, ih hrest ⟨?_, he.2.1, ?_, he.2.2.2⟩⟩
    . rw [he.1, length_cons]
      omega
    . rw [he.2.2.1, getLast?_cons]
      cases entries.getLast? <;> rfl

theorem linked_seq_lt {key : Hasher} {i : Nat} {prev : String} {entries : List AuditEntry}
    (h : Linked key i prev entries) {k : Nat} {e : AuditEntry} (hk : entries[k]? = some e)
    : e.seq = i + k ∧ e.seq < 2 ^ 64 := by
  induction entries generalizing i prev k with
  | nil => simp at hk
  | cons a entries ih =>
    obtain ⟨hseq, hbound, -, -, hrest⟩ := h
    cases k with
    | zero =>
      rw [getElem?_cons_zero, Option.some.injEq] at hk
      subst hk
      omega
    | succ k =>
      rw [getElem?_cons_succ] at hk
      have := ih hrest hk
      omega

theorem tip_eq {key : Hasher} {entries : List AuditEntry} (h : Linked key 0 "" entries)
    : tip entries = (entries.length, (entries.getLast?.map (·.hash)).getD "") := by
  unfold tip
  cases hlast : entries.getLast? with
  | none =>
    rw [getLast?_eq_none_iff] at hlast
    simp [hlast]
  | some e =>
    rw [getLast?_eq_getElem?] at hlast
    have hseq := (linked_seq_lt h hlast).1
    have hpos : 0 < entries.length := by
      cases entries with
      | nil => simp at hlast
      | cons a entries => simp
    simp only [Option.map_some, Option.getD_some, Prod.mk.injEq, and_true]
    omega

theorem recorded_empty (hmac : List UInt8 → List UInt8) : Recorded hmac LogFiles.empty :=
  ⟨trivial, rfl⟩

theorem linked_record {key : Hasher} {files files' : LogFiles} {event : AuditEvent}
    {entry : AuditEntry} (hfiles : Linked key 0 "" files.entries)
    (h : record key files event = some (entry, files'))
    : files'.entries = files.entries ++ [entry] ∧ Linked key 0 "" files'.entries := by
  unfold record at h
  rw [tip_eq hfiles] at h
  dsimp only at h
  split at h
  . cases h
  . next hbound =>
    simp only [Option.some.injEq, Prod.mk.injEq] at h
    obtain ⟨rfl, rfl⟩ := h
    refine ⟨rfl, ?_⟩
    apply linked_append hfiles
    exact ⟨by simp, by simpa using hbound, rfl, rfl⟩

theorem linked_recordAll {key : Hasher} {files files' : LogFiles} {events : List AuditEvent}
    (hfiles : Linked key 0 "" files.entries) (h : recordAll key files events = some files')
    : files.entries <+: files'.entries ∧ Linked key 0 "" files'.entries := by
  induction events generalizing files with
  | nil =>
    cases h
    exact ⟨prefix_rfl, hfiles⟩
  | cons event events ih =>
    unfold recordAll at h
    split at h
    . cases h
    . next entry files₁ hrecord =>
      obtain ⟨happend, hlinked⟩ := linked_record hfiles hrecord
      obtain ⟨hpre, hlinked'⟩ := ih hlinked h
      refine ⟨?_, hlinked'⟩
      rw [happend] at hpre
      exact (prefix_append _ _).trans hpre

theorem recorded_record {hmac : List UInt8 → List UInt8} {files files' : LogFiles}
    {event : AuditEvent} {entry : AuditEntry} (hfiles : Recorded hmac files)
    (h : record (.keyed hmac) files event = some (entry, files')) : Recorded hmac files' := by
  refine ⟨(linked_record hfiles.linked h).2, ?_⟩
  unfold record at h
  dsimp only at h
  split at h
  . cases h
  . simp only [Option.some.injEq, Prod.mk.injEq] at h
    obtain ⟨rfl, rfl⟩ := h
    simp

theorem recorded_recordAll {hmac : List UInt8 → List UInt8} {files files' : LogFiles}
    {events : List AuditEvent} (hfiles : Recorded hmac files)
    (h : recordAll (.keyed hmac) files events = some files') : Recorded hmac files' := by
  induction events generalizing files with
  | nil =>
    cases h
    exact hfiles
  | cons event events ih =>
    unfold recordAll at h
    split at h
    . cases h
    . next entry files₁ hrecord => exact ih (recorded_record hfiles hrecord) h

theorem map_event_recordAll {key : Hasher} {files files' : LogFiles} {events : List AuditEvent}
    (h : recordAll key files events = some files')
    : files'.entries.map (·.event) = files.entries.map (·.event) ++ events := by
  induction events generalizing files with
  | nil =>
    cases h
    rw [append_nil]
  | cons event events ih =>
    unfold recordAll at h
    split at h
    . cases h
    . next entry files₁ hrecord =>
      rw [ih h]
      unfold record at hrecord
      dsimp only at hrecord
      split at hrecord
      . cases hrecord
      . cases hrecord
        simp

def seenMacs (hmac : List UInt8 → List UInt8) (recorded : List AuditEntry) : List String :=
  recorded.map (·.hash) ++ recorded.map (fun e => headMac hmac e.seq e.hash)

-- Without the key, the MAC of an input can only be copied from what has been seen.
def Unforged (hmac : List UInt8 → List UInt8) (recorded entries : List AuditEntry) : Prop :=
  ∀ e ∈ entries, ∀ input, e.hash = hexLower (hmac input) → e.hash ∈ seenMacs hmac recorded

theorem linked_isHash {key : Hasher} {i : Nat} {prev : String} {entries : List AuditEntry}
    (hprev : IsHash prev) (h : Linked key i prev entries) {e : AuditEntry} (he : e ∈ entries)
    : IsHash e.prevHash ∧ e.hash = chainHash key e.prevHash e.id e.seq e.event := by
  induction entries generalizing i prev with
  | nil => cases he
  | cons a entries ih =>
    obtain ⟨hseq, -, haprev, hhash, hrest⟩ := h
    rcases mem_cons.mp he with rfl | he
    . rw [haprev, hseq]
      exact ⟨hprev, hhash⟩
    . apply ih _ hrest he
      rw [hhash]
      apply isHash_chainHash

theorem eq_recorded {hmac : List UInt8 → List UInt8} (hinj : Function.Injective hmac)
    {recorded : List AuditEntry} (hrec : Linked (.keyed hmac) 0 "" recorded) {e : AuditEntry}
    (hseen : e.hash ∈ seenMacs hmac recorded) (hprev : IsHash e.prevHash)
    (hhash : e.hash = chainHash (.keyed hmac) e.prevHash e.id e.seq e.event)
    : recorded[e.seq]? = some e := by
  simp only [seenMacs, mem_append, mem_map] at hseen
  rcases hseen with ⟨r, hr, hsame⟩ | ⟨r, hr, hsame⟩
  . obtain ⟨hrprev, hrhash⟩ := linked_isHash isHash_empty hrec hr
    have hchain := hrhash.symm.trans (hsame.trans hhash)
    obtain ⟨h₁, h₂, h₃, h₄⟩ := chainInput_inj hrprev hprev (hinj (hexLower_injective hchain))
    have hre : r = e := by
      cases r
      cases e
      simp_all
    subst hre
    obtain ⟨k, hk⟩ := mem_iff_getElem?.mp hr
    have := (linked_seq_lt hrec hk).1
    rw [this, Nat.zero_add]
    exact hk
  . have hhead := hinj (hexLower_injective (hsame.trans hhash))
    exact absurd hhead.symm (chainInput_ne_headInput hprev _ _ _ _ _)

theorem verifyChain_cons_eq_ok {key : Hasher} {i : Nat} {prev : String} {e : AuditEntry}
    {entries : List AuditEntry}
    : verifyChain key i prev (e :: entries) = .ok () ↔
        e.seq = i ∧ e.prevHash = prev ∧ e.hash = chainHash key e.prevHash e.id e.seq e.event
          ∧ verifyChain key (i + 1) e.hash entries = .ok () := by
  conv => lhs; unfold verifyChain
  split
  . simp_all
  . split
    . simp_all
    . split
      . simp_all
      . simp_all

theorem verifyChain_isPrefix {hmac : List UInt8 → List UInt8} (hinj : Function.Injective hmac)
    {recorded : List AuditEntry} (hrec : Linked (.keyed hmac) 0 "" recorded) {entries : List AuditEntry}
    (hforged : Unforged hmac recorded entries) {i : Nat} {prev : String} (hprev : IsHash prev)
    (h : verifyChain (.keyed hmac) i prev entries = .ok ())
    : entries <+: recorded.drop i := by
  induction entries generalizing i prev with
  | nil => exact nil_prefix
  | cons e entries ih =>
    rw [verifyChain_cons_eq_ok] at h
    obtain ⟨hseq, heprev, hhash, hrest⟩ := h
    have hi : recorded[i]? = some e := by
      rw [← hseq]
      exact eq_recorded hinj hrec (hforged e (by simp) _ hhash) (heprev ▸ hprev) hhash
    have hdrop : recorded.drop i = e :: recorded.drop (i + 1) := by
      obtain ⟨hlt, hget⟩ := List.getElem?_eq_some_iff.mp hi
      rw [drop_eq_getElem_cons hlt, hget]
    rw [hdrop, cons_prefix_cons]
    refine ⟨rfl, ih (fun a ha => hforged a (by simp [ha])) ?_ hrest⟩
    rw [hhash]
    apply isHash_chainHash

theorem verifyChain_linked {key : Hasher} {i : Nat} {prev : String} {entries : List AuditEntry}
    (h : Linked key i prev entries) : verifyChain key i prev entries = .ok () := by
  induction entries generalizing i prev with
  | nil => rfl
  | cons e entries ih =>
    obtain ⟨hseq, -, hprev, hhash, hrest⟩ := h
    rw [verifyChain_cons_eq_ok]
    exact ⟨hseq, hprev, hprev ▸ hseq ▸ hhash, ih hrest⟩

theorem verifyHead_recorded {hmac : List UInt8 → List UInt8} {files : LogFiles}
    (hfiles : Recorded hmac files) : verifyHead hmac files.entries files.head = .ok () := by
  unfold verifyHead
  rw [hfiles.head]
  cases hlast : files.entries.getLast? with
  | none =>
    rw [getLast?_eq_none_iff] at hlast
    simp [hlast]
  | some last =>
    have hget : files.entries[last.seq]? = some last := by
      rw [getLast?_eq_getElem?] at hlast
      rw [(linked_seq_lt hfiles.linked hlast).1, Nat.zero_add]
      exact hlast
    simp [hget]

theorem eq_of_verifyHead_prefix {hmac : List UInt8 → List UInt8} {files : LogFiles}
    (hfiles : Recorded hmac files) {entries : List AuditEntry}
    (hpre : entries <+: files.entries)
    (h : verifyHead hmac entries files.head = .ok ()) : entries = files.entries := by
  cases hlast : files.entries.getLast? with
  | none =>
    rw [getLast?_eq_none_iff] at hlast
    rw [hlast] at hpre ⊢
    exact prefix_nil.mp hpre
  | some last =>
    rw [getLast?_eq_getElem?] at hlast
    have hlastSeq := (linked_seq_lt hfiles.linked hlast).1
    rw [hfiles.head, getLast?_eq_getElem?, hlast] at h
    simp only [verifyHead, Option.map_some] at h
    rw [if_neg (by simp)] at h
    cases hend : entries.getLast? with
    | none =>
      rw [hend] at h
      cases h
    | some e =>
      rw [hend] at h
      dsimp only at h
      split at h
      . cases h
      . next hge =>
        rw [getLast?_eq_getElem?] at hend
        have hrec : files.entries[entries.length - 1]? = some e := by
          obtain ⟨rest, hrest⟩ := hpre
          rw [← hrest, getElem?_append_left]
          . exact hend
          . exact (List.getElem?_eq_some_iff.mp hend).1
        have hseq := (linked_seq_lt hfiles.linked hrec).1
        have hpos := (List.getElem?_eq_some_iff.mp hend).1
        apply hpre.eq_of_length_le
        omega

theorem verify_keyed_eq_ok {hmac : List UInt8 → List UInt8} {files : LogFiles}
    : verify (.keyed hmac) files = .ok () ↔
        verifyChain (.keyed hmac) 0 "" files.entries = .ok ()
          ∧ verifyHead hmac files.entries files.head = .ok () := by
  simp only [verify, bind_eq_ok]
  constructor
  . rintro ⟨⟨⟩, hchain, hhead⟩
    exact ⟨hchain, hhead⟩
  . rintro ⟨hchain, hhead⟩
    exact ⟨(), hchain, hhead⟩

theorem verify_eq_ok_iff_recorded (hmac : List UInt8 → List UInt8)
    (hinj : Function.Injective hmac) (events : List AuditEvent) (files : LogFiles)
    (hfiles : recordAll (.keyed hmac) LogFiles.empty events = some files)
    (entries : List AuditEntry) (hforged : Unforged hmac files.entries entries)
    : files.entries.map (·.event) = events
      ∧ (verify (.keyed hmac) { files with entries } = .ok () ↔ entries = files.entries)
      ∧ (∀ prevHash prevHash' id id' seq seq' event event', IsHash prevHash → IsHash prevHash' →
          chainInput prevHash id seq event = chainInput prevHash' id' seq' event' →
            prevHash = prevHash' ∧ id = id' ∧ seq = seq' ∧ event = event')
      ∧ (∀ seq seq' hash hash', seq < 2 ^ 64 → seq' < 2 ^ 64 →
          headInput seq hash = headInput seq' hash' → seq = seq' ∧ hash = hash')
      ∧ (∀ prevHash id seq event seq' hash, IsHash prevHash →
          chainInput prevHash id seq event ≠ headInput seq' hash) := by
  have hrec := recorded_recordAll (recorded_empty hmac) hfiles
  refine ⟨map_event_recordAll hfiles, ⟨?_, ?_⟩, ?_, ?_, ?_⟩
  . intro h
    rw [verify_keyed_eq_ok] at h
    apply eq_of_verifyHead_prefix hrec _ h.2
    exact verifyChain_isPrefix hinj hrec.linked hforged isHash_empty h.1
  . rintro rfl
    rw [verify_keyed_eq_ok]
    exact ⟨verifyChain_linked hrec.linked, verifyHead_recorded hrec⟩
  . intro prevHash prevHash' id id' seq seq' event event' hprev hprev' h
    exact chainInput_inj hprev hprev' h
  . intro seq seq' hash hash' hseq hseq' h
    exact headInput_inj hseq hseq' h
  . intro prevHash id seq event seq' hash hprev
    exact chainInput_ne_headInput hprev id seq event seq' hash

def sampleEvents : List AuditEvent :=
  [.new 1 "alice" "acme" "secret.create" "secret" "secret://acme/token",
    .new 2 "alice" "acme" "secret.rotate" "secret" "secret://acme/token"]

theorem truncated_not_verified
    : ∃ files, recordAll (.keyed id) LogFiles.empty sampleEvents = some files
        ∧ verify (.keyed id) { files with entries := files.entries.take 1 } ≠ .ok () := by
  have hrun : ∃ files, recordAll (.keyed id) LogFiles.empty sampleEvents = some files
      ∧ files.entries.length = 2 := ⟨_, rfl, rfl⟩
  obtain ⟨files, hfiles, hlength⟩ := hrun
  refine ⟨files, hfiles, ?_⟩
  rw [Ne, (verify_eq_ok_iff_recorded id Function.injective_id _ _ hfiles _ ?_).2.1]
  . intro h
    have := congrArg length h
    rw [length_take, hlength] at this
    cases this
  . intro e he input _
    simp only [seenMacs, mem_append]
    left
    exact mem_map_of_mem (mem_of_mem_take he)

end Wovyr.Audit
