import Wovyr.Audit.Paging
import Wovyr.Lib.Lines

/-!
This module contains the two ways to read a page from `audit.jsonl`: the backward scan of its bytes and the
provided implementation over the entries that a read of the whole text gives.
-/

namespace Wovyr.Audit

open List Bytes

-- How `serde_json` reads an entry. A JSON text that is an entry is an object or an array, and a carriage
-- return after it is whitespace.
structure EntryReader where
  fromStr : List Char → Except Error AuditEntry
  fromSlice : LineParser
  fromSlice_utf8 : ∀ line, fromSlice (utf8 line) = fromStr line
  fromStr_return : ∀ line e, fromStr (line ++ ['\r']) = .ok e → fromStr line = .ok e
  opened : ∀ line e, fromStr line = .ok e → '{' ∈ line ∨ '[' ∈ line

-- `FileAuditSink::all` on the text of the file.
def EntryReader.all (reader : EntryReader) (text : List Char) : Except Error (List AuditEntry) :=
  ((Lines.linesOf [] text).filter fun line => !line.all Text.isWhitespace).mapM reader.fromStr

-- The provided implementation of `AuditSink::query_page` for the file.
def EntryReader.queryPage (reader : EntryReader) (text : List Char) (filter : AuditFilter)
    (beforeSeq : Option Nat) (limit : Nat) : Except Error AuditPage := do
  let entries ← reader.all text
  return Audit.queryPage entries filter beforeSeq limit

def terminated (lines : List (List Char)) : List Char :=
  lines.flatMap (· ++ ['\n'])

theorem linesOf_terminated {lines : List (List Char)} (h : ∀ line ∈ lines, '\n' ∉ line)
    : Lines.linesOf [] (terminated lines) = lines.map Lines.stripReturn := by
  induction lines with
  | nil => rfl
  | cons line lines ih =>
    rw [forall_mem_cons] at h
    rw [terminated, flatMap_cons, append_assoc, singleton_append,
      Lines.linesOf_append [] h.1, nil_append, map_cons]
    exact congrArg _ (ih h.2)

section

variable (reader : EntryReader)

theorem fromStr_stripReturn {line : List Char} {e : AuditEntry} (h : reader.fromStr line = .ok e)
    : reader.fromStr (Lines.stripReturn line) = .ok e := by
  unfold Lines.stripReturn
  split
  . next hlast =>
    apply reader.fromStr_return
    have hne : line ≠ [] := by
      rintro rfl
      cases hlast
    rw [getLast?_eq_some_getLast hne, Option.some.injEq] at hlast
    rw [← hlast, dropLast_append_getLast hne]
    exact h
  . exact h

theorem visible_of_fromStr {line : List Char} {e : AuditEntry} (h : reader.fromStr line = .ok e)
    : line.all Text.isWhitespace = false := by
  rw [all_eq_false]
  rcases reader.opened line e h with hopen | hopen
  . exact ⟨'{', hopen, by decide⟩
  . exact ⟨'[', hopen, by decide⟩

theorem all_terminated {lines : List (List Char)} {entries : List AuditEntry}
    (hlines : ∀ line ∈ lines, '\n' ∉ line)
    (hread : Forall₂ (fun line e => reader.fromStr line = .ok e) lines entries)
    : reader.all (terminated lines) = .ok entries := by
  unfold EntryReader.all
  rw [linesOf_terminated hlines]
  clear hlines
  induction hread with
  | nil => rfl
  | @cons line e lines entries hline hread ih =>
    have hstripped := fromStr_stripReturn reader hline
    rw [map_cons, filter_cons_of_pos (by simp [visible_of_fromStr reader hstripped]),
      Fallible.mapM_cons, hstripped, ih]
    rfl

theorem mem_utf8_of_mem {c : Char} {line : List Char} (hc : c.utf8Size = 1) (h : c ∈ line)
    : c.val.toUInt8 ∈ utf8 line := by
  obtain ⟨before, after, rfl⟩ := append_of_mem h
  rw [utf8_append, utf8_cons_ascii hc]
  simp

theorem readsAs_utf8 {line : List Char} {e : AuditEntry} (h : reader.fromStr line = .ok e)
    : ReadsAs reader.fromSlice (utf8 line) e where
  parse := by rw [reader.fromSlice_utf8, h]
  visible := by
    rw [isBlank, all_eq_false]
    rcases reader.opened line e h with hopen | hopen
    . exact ⟨_, mem_utf8_of_mem (by decide) hopen, by decide⟩
    . exact ⟨_, mem_utf8_of_mem (by decide) hopen, by decide⟩

theorem newline_not_mem_utf8 {line : List Char} (h : '\n' ∉ line) : newline ∉ utf8 line := by
  intro hmem
  obtain ⟨c, hc, hnat⟩ := mem_utf8_ascii (by decide) hmem
  have hnewline : c = '\n' := Char.toNat_inj.mp hnat
  exact h (hnewline ▸ hc)

theorem texts_utf8_terminated {lines : List (List Char)} {entries : List AuditEntry}
    (hlines : ∀ line ∈ lines, '\n' ∉ line)
    (hread : Forall₂ (fun line e => reader.fromStr line = .ok e) lines entries)
    : texts (utf8 (terminated lines)) = lines.map utf8 := by
  induction hread with
  | nil => rfl
  | @cons line e lines entries hline hread ih =>
    rw [forall_mem_cons] at hlines
    have hvisible := (readsAs_utf8 reader hline).visible
    have hne : utf8 line ≠ [] := by
      intro hempty
      rw [hempty] at hvisible
      cases hvisible
    have hsplit : utf8 (terminated (line :: lines))
        = utf8 line ++ newline :: utf8 (terminated lines) := by
      rw [terminated, flatMap_cons, append_assoc, singleton_append, utf8_append,
        utf8_cons_ascii (by decide)]
      rfl
    have htexts : texts (utf8 line) = [utf8 line] := by
      unfold texts linesOf
      rw [go_eq_singleton (newline_not_mem_utf8 hlines.1) (by simpa using hne)]
      simp [hvisible]
    rw [hsplit, texts_append_newline, ih hlines.2, htexts, singleton_append, map_cons]

end

-- Whatever the size of the chunks, the backward scan gives the page of the provided implementation.
theorem scanReverse_eq_queryPage (reader : EntryReader) (lines : List (List Char))
    (entries : List AuditEntry) (hlines : ∀ line ∈ lines, '\n' ∉ line)
    (hread : Forall₂ (fun line e => reader.fromStr line = .ok e) lines entries)
    (hincreasing : Increasing entries) (filter : AuditFilter) (beforeSeq : Option Nat) (limit : Nat)
    (chunkBytes : Nat) (hchunk : 0 < chunkBytes)
    : (scanReverse reader.fromSlice (some (utf8 (terminated lines))) filter beforeSeq limit hchunk).map
          (·.page)
        = reader.queryPage (terminated lines) filter beforeSeq limit
      ∧ reader.queryPage (terminated lines) filter beforeSeq limit
          = .ok (Audit.queryPage entries filter beforeSeq limit) := by
  have hpage : reader.queryPage (terminated lines) filter beforeSeq limit
      = .ok (Audit.queryPage entries filter beforeSeq limit) := by
    rw [EntryReader.queryPage, all_terminated reader hlines hread]
    rfl
  have hscanned : Forall₂ (ReadsAs reader.fromSlice) (lines.map utf8).reverse entries.reverse := by
    rw [forall₂_reverse_iff, forall₂_map_left_iff]
    exact hread.imp fun _ _ h => readsAs_utf8 reader h
  refine ⟨?_, hpage⟩
  unfold scanReverse
  dsimp only
  rw [hpage, scanLoop_page _ _ _ _ _ _ _ _ _ _ (fun _ => rfl), take_length, append_nil,
    texts_utf8_terminated reader hlines hread, scanLines_read _ _ _ _ hscanned _ (Nat.zero_le _),
    nil_append, filter_reverse, pageOf_scanned, queryPage_increasing _ _ _ hincreasing]

def entryText (e : AuditEntry) : List Char :=
  jsonText e.toValue

theorem printable_entryText (e : AuditEntry) : ∀ c ∈ entryText e, 0x20 ≤ c.toNat := by
  have hint : Json.integral e.toValue = true := by
    simp [AuditEntry.toValue, Json.integral, Json.integralFields, e.event.integral_toValue]
  exact Json.printable_render (fun _ => []) hint

theorem opened_entryText (e : AuditEntry) : '{' ∈ entryText e := by
  simp [entryText, jsonText, AuditEntry.toValue, Json.render]

def readerFor (entries : List AuditEntry) : EntryReader where
  fromStr line :=
    match entries.find? fun e => entryText e == line with
    | some e => .ok e
    | none => .error (.invalid "not an audit entry")
  fromSlice bytes :=
    match entries.find? fun e => encodeEntry e == bytes with
    | some e => .ok e
    | none => .error (.invalid "not an audit entry")
  fromSlice_utf8 line := by
    have hsame (e : AuditEntry) : (encodeEntry e == utf8 line) = (entryText e == line) := by
      rw [Bool.eq_iff_iff, beq_iff_eq, beq_iff_eq]
      exact (utf8_injective).eq_iff
    simp only [hsame]
  fromStr_return line e h := by
    exfalso
    split at h
    . next e' hfind =>
      have htext := find?_some hfind
      rw [beq_iff_eq] at htext
      have := printable_entryText e' '\r' (by simp [htext])
      exact absurd this (by decide)
    . cases h
  opened line e h := by
    split at h
    . next e' hfind =>
      have htext := find?_some hfind
      rw [beq_iff_eq] at htext
      rw [← htext]
      exact .inl (opened_entryText e')
    . cases h

theorem recall_entryText {entries : List AuditEntry} {e : AuditEntry} (he : e ∈ entries)
    : (readerFor entries).fromStr (entryText e) = .ok e := by
  have hfind : entries.find? (fun e' => entryText e' == entryText e) = some e := by
    cases h : entries.find? (fun e' => entryText e' == entryText e) with
    | none => exact absurd (beq_self_eq_true _) (find?_eq_none.mp h e he)
    | some e' =>
      have htext := find?_some h
      rw [beq_iff_eq] at htext
      have hencoded : encodeEntry e' = encodeEntry e := congrArg utf8 htext
      rw [encodeEntry_injective hencoded]
  simp only [readerFor, hfind]

def signIns : List AuditEntry :=
  [⟨"a-1", 0, .new 10 "alice" "acme" "auth.login" "session" "s-1", "", "h-1"⟩,
    ⟨"a-2", 1, .new 20 "bob" "acme" "auth.login" "session" "s-2", "h-1", "h-2"⟩]

theorem scanReverse_signIns
    : (scanReverse (readerFor signIns).fromSlice (some (utf8 (terminated (signIns.map entryText)))) {}
          none 1 (show 0 < 7 by decide)).map (·.page)
        = (readerFor signIns).queryPage (terminated (signIns.map entryText)) {} none 1
      ∧ (readerFor signIns).queryPage (terminated (signIns.map entryText)) {} none 1
          = .ok (Audit.queryPage signIns {} none 1) := by
  apply scanReverse_eq_queryPage (readerFor signIns) (signIns.map entryText) signIns
  . intro line hline
    obtain ⟨e, -, rfl⟩ := mem_map.mp hline
    intro hmem
    exact absurd (printable_entryText e '\n' hmem) (by decide)
  . rw [forall₂_map_left_iff]
    exact forall₂_same.mpr fun e he => recall_entryText he
  . simp [signIns, Increasing]

end Wovyr.Audit
