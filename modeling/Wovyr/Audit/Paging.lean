import Mathlib.Data.List.Nodup
import Wovyr.Audit.Integrity
import Wovyr.Audit.Page

/-!
This module contains the proofs about the paged reads of the audit log. Following the cursors gives every matching
entry once, whatever is appended meanwhile.
-/

namespace Wovyr.Audit

open List

def texts (buf : List UInt8) : List (List UInt8) :=
  (linesOf buf).filter fun line => !isBlank line

theorem go_append_newline (line buf rest : List UInt8)
    : (linesOf.go line (buf ++ newline :: rest)).filter (fun line => !isBlank line)
        = (linesOf.go line buf).filter (fun line => !isBlank line) ++ texts rest := by
  induction buf generalizing line with
  | nil =>
    simp only [nil_append, linesOf.go, if_true, filter_cons]
    by_cases hline : line = []
    . simp [hline, isBlank, texts, linesOf]
    . simp only [hline, if_false, texts, linesOf]
      split <;> simp_all
  | cons b buf ih =>
    simp only [cons_append, linesOf.go]
    split
    . simp only [filter_cons, ih]
      split <;> simp
    . rw [ih]

theorem texts_append_newline (buf rest : List UInt8)
    : texts (buf ++ newline :: rest) = texts buf ++ texts rest :=
  go_append_newline [] buf rest

theorem go_eq_singleton {line buf : List UInt8} (h : newline ∉ buf) (hne : line ++ buf ≠ [])
    : linesOf.go line buf = [line ++ buf] := by
  induction buf generalizing line with
  | nil =>
    rw [append_nil] at hne ⊢
    simp [linesOf.go, hne]
  | cons b buf ih =>
    rw [mem_cons, not_or] at h
    simp only [linesOf.go, if_neg (Ne.symm h.1)]
    rw [ih h.2 (by simp), append_assoc, singleton_append]

variable (parse : LineParser) (filter : AuditFilter) (beforeSeq : Option Nat) (limit : Nat)

theorem scanLines_filter (collected : List AuditEntry) (lines : List (List UInt8))
    : scanLines parse filter beforeSeq limit collected (lines.filter fun line => !isBlank line)
        = scanLines parse filter beforeSeq limit collected lines := by
  induction lines generalizing collected with
  | nil => rfl
  | cons line lines ih =>
    by_cases hblank : isBlank line = true
    . simp [hblank, scanLines, ih]
    . simp [hblank, scanLines, ih]

theorem scanLines_append (collected : List AuditEntry) (lines lines' : List (List UInt8))
    : scanLines parse filter beforeSeq limit collected (lines ++ lines')
        = match scanLines parse filter beforeSeq limit collected lines with
          | .error e => .error e
          | .ok (collected, true) => .ok (collected, true)
          | .ok (collected, false) => scanLines parse filter beforeSeq limit collected lines' := by
  induction lines generalizing collected with
  | nil => rfl
  | cons line lines ih =>
    simp only [cons_append, scanLines]
    split
    . exact ih collected
    . split
      . rfl
      . split
        . exact ih collected
        . split
          . exact ih collected
          . split
            . rfl
            . exact ih _

def pageOf : Except Error (List AuditEntry × Bool) → Except Error AuditPage
  | .error e => .error e
  | .ok (collected, true) =>
    .ok { entries := collected, nextCursor := collected.getLast?.map (·.seq) }
  | .ok (collected, false) => .ok { entries := collected, nextCursor := none }

theorem scanLines_texts (collected : List AuditEntry) (buf : List UInt8)
    : scanLines parse filter beforeSeq limit collected (linesOf buf).reverse
        = scanLines parse filter beforeSeq limit collected (texts buf).reverse := by
  rw [← scanLines_filter, texts, filter_reverse]

theorem append_idxOf_newline {buf : List UInt8} (h : newline ∈ buf)
    : buf = buf.take (buf.idxOf newline) ++ newline :: buf.drop (buf.idxOf newline + 1) := by
  have hlt := idxOf_lt_length_of_mem h
  conv => lhs; rw [← take_append_drop (buf.idxOf newline) buf]
  rw [drop_eq_getElem_cons hlt, getElem_idxOf]

theorem scanLoop_page (file : List UInt8) {chunkBytes : Nat} (hchunk : 0 < chunkBytes) (pos : Nat)
    (carry : List UInt8) (collected : List AuditEntry) (bytesRead : Nat)
    (hcarry : pos = 0 → carry = [])
    : (scanLoop parse filter beforeSeq limit file hchunk pos carry collected bytesRead).map (·.page)
        = pageOf (scanLines parse filter beforeSeq limit collected
            (texts (file.take pos ++ carry)).reverse) := by
  induction pos using Nat.strongRecOn generalizing carry collected bytesRead with
  | _ pos ih =>
    unfold scanLoop
    split
    . next hpos =>
      rw [hcarry hpos, hpos]
      rfl
    . next hpos =>
      dsimp only
      have hlt : pos - min chunkBytes pos < pos := by omega
      generalize hstart : pos - min chunkBytes pos = start at hlt
      have htake : file.take pos ++ carry
          = file.take start ++ ((file.drop start).take (min chunkBytes pos) ++ carry) := by
        rw [← append_assoc, ← take_add]
        congr 2
        omega
      generalize hbuf : (file.drop start).take (min chunkBytes pos) ++ carry = buf at htake
      rw [htake]
      split
      . next hnone => exact ih start hlt buf collected _ (fun h => absurd h hnone.1)
      . next hsome =>
        by_cases hzero : start = 0
        . simp only [hzero, if_true, drop_zero, take_zero, nil_append]
          rw [scanLines_texts]
          cases hscan : scanLines parse filter beforeSeq limit collected (texts buf).reverse with
          | error e => rfl
          | ok r =>
            obtain ⟨collected', more⟩ := r
            cases more with
            | true => rfl
            | false =>
              unfold scanLoop
              rfl
        . have hmem : newline ∈ buf := by
            by_contra hmem
            exact hsome ⟨hzero, hmem⟩
          have hsplit := append_idxOf_newline hmem
          simp only [if_neg hzero]
          rw [scanLines_texts]
          conv => rhs; rw [hsplit, ← append_assoc, texts_append_newline]
          rw [reverse_append, scanLines_append]
          cases hscan : scanLines parse filter beforeSeq limit collected
              (texts (buf.drop (buf.idxOf newline + 1))).reverse with
          | error e => rfl
          | ok r =>
            obtain ⟨collected', more⟩ := r
            cases more with
            | true => rfl
            | false => exact ih start hlt _ collected' _ (fun h => absurd h hzero)

theorem newline_not_mem_encodeEntry (e : AuditEntry) : newline ∉ encodeEntry e := by
  intro h
  obtain ⟨c, hc, hnat⟩ := Bytes.mem_utf8_ascii (by decide) h
  have hint : Json.integral e.toValue = true := by
    simp [AuditEntry.toValue, Json.integral, Json.integralFields, e.event.integral_toValue]
  have := Json.printable_render (fun _ => []) hint c hc
  rw [hnat] at this
  exact absurd this (by decide)

theorem encodeEntry_eq_cons (e : AuditEntry) : ∃ rest, encodeEntry e = 0x7b :: rest := by
  simp only [encodeEntry, jsonText, AuditEntry.toValue, Json.render]
  rw [Bytes.utf8_cons_ascii (by decide)]
  exact ⟨_, rfl⟩

theorem texts_encodeEntry (e : AuditEntry) : texts (encodeEntry e) = [encodeEntry e] := by
  obtain ⟨rest, hrest⟩ := encodeEntry_eq_cons e
  have hblank : isBlank (encodeEntry e) = false := by
    rw [hrest]
    rfl
  unfold texts linesOf
  rw [go_eq_singleton (newline_not_mem_encodeEntry e) (by simp [hrest])]
  simp [hblank]

theorem texts_encodeFile (entries : List AuditEntry)
    : texts (encodeFile entries) = entries.map encodeEntry := by
  induction entries with
  | nil => rfl
  | cons e entries ih =>
    unfold encodeFile at ih ⊢
    rw [flatMap_cons, append_assoc, singleton_append, texts_append_newline, ih,
      texts_encodeEntry, singleton_append, map_cons]

def wanted (e : AuditEntry) : Bool :=
  filter.matches e && beforeSeq.all (e.seq < ·)

structure ReadsAs (line : List UInt8) (e : AuditEntry) : Prop where
  parse : parse line = .ok e
  visible : isBlank line = false

theorem scanLines_read {lines : List (List UInt8)} {entries : List AuditEntry}
    (hread : Forall₂ (ReadsAs parse) lines entries) (collected : List AuditEntry)
    (hlen : collected.length ≤ limit)
    : scanLines parse filter beforeSeq limit collected lines
        = let found := collected ++ entries.filter (wanted filter beforeSeq)
          .ok (found.take limit, decide (limit < found.length)) := by
  induction hread generalizing collected with
  | nil => simp [scanLines, take_of_length_le hlen, hlen]
  | @cons line e lines entries hline hread ih =>
    have hbefore : beforeSeq.any (· ≤ e.seq) = !beforeSeq.all (e.seq < ·) := by
      cases beforeSeq with
      | none => rfl
      | some b =>
        simp only [Option.any_some, Option.all_some]
        rw [← decide_not, decide_eq_decide, not_lt]
    simp only [scanLines, hline.visible, Bool.false_eq_true, if_false, hline.parse, hbefore,
      Bool.not_eq_true']
    by_cases hwanted : wanted filter beforeSeq e = true
    . have hparts := hwanted
      rw [wanted, Bool.and_eq_true] at hparts
      simp only [hparts.1, hparts.2, Bool.true_eq_false, if_false, filter_cons, hwanted, if_true]
      rw [show collected ++ e :: entries.filter (wanted filter beforeSeq)
        = (collected ++ [e]) ++ entries.filter (wanted filter beforeSeq) by simp]
      split
      . next hmore =>
        rw [take_append_of_le_length (le_of_lt hmore), decide_eq_true]
        rw [length_append]
        omega
      . next hmore => exact ih (collected ++ [e]) (by omega)
    . have hparts := hwanted
      rw [wanted, Bool.and_eq_true, not_and_or, Bool.not_eq_true, Bool.not_eq_true] at hparts
      simp only [filter_cons, hwanted]
      split
      . exact ih collected hlen
      . next hbelow =>
        rw [hparts.resolve_right hbelow]
        exact ih collected hlen

theorem readsAs_encodeEntry {e : AuditEntry} (hparse : parse (encodeEntry e) = .ok e)
    : ReadsAs parse (encodeEntry e) e where
  parse := hparse
  visible := by
    obtain ⟨rest, hrest⟩ := encodeEntry_eq_cons e
    rw [hrest]
    rfl

theorem readsAs_encoded {entries : List AuditEntry} (hparse : ∀ e ∈ entries, parse (encodeEntry e) = .ok e)
    : Forall₂ (ReadsAs parse) (entries.map encodeEntry) entries := by
  rw [forall₂_map_left_iff]
  exact forall₂_same.mpr fun e he => readsAs_encodeEntry parse (hparse e he)

theorem pageOf_scanned (found : List AuditEntry)
    : pageOf (.ok (found.take limit, decide (limit < found.length)))
        = .ok { entries := found.take limit
                nextCursor := if limit < found.length then
                    (found.take limit).getLast?.map (·.seq) else none } := by
  by_cases hmore : limit < found.length
  . simp [pageOf, hmore]
  . simp [pageOf, hmore]

def Increasing (entries : List AuditEntry) : Prop :=
  entries.Pairwise fun a b => a.seq < b.seq

theorem Increasing.eq_of_seq_eq {entries : List AuditEntry} (h : Increasing entries)
    {a b : AuditEntry} (ha : a ∈ entries) (hb : b ∈ entries) (hseq : a.seq = b.seq) : a = b := by
  have hnodup : (entries.map AuditEntry.seq).Nodup := by
    rw [Nodup, pairwise_map]
    exact h.imp ne_of_lt
  exact inj_on_of_nodup_map hnodup ha hb hseq

theorem queryPage_increasing {entries : List AuditEntry} (h : Increasing entries)
    : queryPage entries filter beforeSeq limit
        = let found := (entries.filter (wanted filter beforeSeq)).reverse
          { entries := found.take limit
            nextCursor := if limit < found.length then
                (found.take limit).getLast?.map (·.seq) else none } := by
  have hincreasing : Increasing (entries.filter (wanted filter beforeSeq)) := h.filter _
  have hsort : (entries.filter (wanted filter beforeSeq)).mergeSort (fun a b => b.seq ≤ a.seq)
      = (entries.filter (wanted filter beforeSeq)).reverse := by
    refine @List.Perm.eq_of_pairwise _ (fun a b : AuditEntry => b.seq ≤ a.seq) _ _ ?_ ?_ ?_ ?_
    . intro a b ha hb hab hba
      have ha' := (mergeSort_perm _ _).mem_iff.mp ha
      have hb' := mem_reverse.mp hb
      exact hincreasing.eq_of_seq_eq ha' hb' (le_antisymm hba hab)
    . have := @pairwise_mergeSort _ (fun a b : AuditEntry => decide (b.seq ≤ a.seq))
        (by simp; omega) (by simp; omega) (entries.filter (wanted filter beforeSeq))
      simpa using this
    . exact pairwise_reverse.mpr (hincreasing.imp le_of_lt)
    . exact (mergeSort_perm _ _).trans (reverse_perm _).symm
  unfold queryPage
  dsimp only
  rw [show (fun e => filter.matches e && beforeSeq.all (e.seq < ·)) = wanted filter beforeSeq from rfl,
    hsort]

theorem scanReverse_page {entries : List AuditEntry} (h : Increasing entries)
    (hparse : ∀ e ∈ entries, parse (encodeEntry e) = .ok e) {chunkBytes : Nat} (hchunk : 0 < chunkBytes)
    : (scanReverse parse (some (encodeFile entries)) filter beforeSeq limit hchunk).map (·.page)
        = .ok (queryPage entries filter beforeSeq limit) := by
  unfold scanReverse
  dsimp only
  rw [scanLoop_page _ _ _ _ _ _ _ _ _ _ (fun _ => rfl), take_length, append_nil,
    texts_encodeFile, ← map_reverse,
    scanLines_read _ _ _ _ (readsAs_encoded _ fun e he => hparse e (mem_reverse.mp he)) _ (Nat.zero_le _), nil_append, filter_reverse, pageOf_scanned, queryPage_increasing _ _ _ h]

-- What the program relies on for the lines that it has written itself.
def Sink.Reads (entries : List AuditEntry) : Sink → Prop
  | .inMemory => True
  | .file parse => ∀ e ∈ entries, parse (encodeEntry e) = .ok e

theorem Sink.queryPage_eq {sink : Sink} {entries : List AuditEntry} (hsink : sink.Reads entries)
    (h : Increasing entries)
    : sink.queryPage entries filter beforeSeq limit
        = .ok (Audit.queryPage entries filter beforeSeq limit) := by
  cases sink with
  | inMemory => rfl
  | file parse =>
    unfold Sink.queryPage sinkFile
    dsimp only
    by_cases hempty : entries = []
    . rw [Audit.queryPage_increasing _ _ _ h]
      simp [hempty, scanReverse, bind, Except.bind, pure, Except.pure]
    . have hpage := scanReverse_page parse filter beforeSeq limit h hsink
        (show 0 < readChunkBytes by decide)
      rw [if_neg hempty]
      cases hscan : scanReverse parse (some (encodeFile entries)) filter beforeSeq limit
          (show 0 < readChunkBytes by decide) with
      | error e =>
        rw [hscan] at hpage
        cases hpage
      | ok scan =>
        rw [hscan] at hpage
        simp only [Except.map, Except.ok.injEq] at hpage
        rw [← hpage]
        rfl

theorem increasing_of_linked {key : Hasher} {i : Nat} {prev : String} {entries : List AuditEntry}
    (h : Linked key i prev entries) : Increasing entries := by
  rw [Increasing, pairwise_iff_getElem]
  intro j k hj hk hjk
  have hjseq := (linked_seq_lt h (getElem?_eq_getElem hj)).1
  have hkseq := (linked_seq_lt h (getElem?_eq_getElem hk)).1
  omega

-- A reader that follows the cursors from `cursor` on, for at most `fuel` pages. The `k`-th page is
-- read from the `k`-th state of the log. The flag tells that the last page was reached.
def follow (sink : Sink) (logs : Nat → LogFiles) (filter : AuditFilter) (limit : Nat)
    : (fuel k : Nat) → Option Nat → Except Error (List AuditEntry × Bool)
  | 0, _, _ => .ok ([], false)
  | fuel + 1, k, cursor => do
    let page ← sink.queryPage (logs k).entries filter cursor limit
    match page.nextCursor with
    | none => return (page.entries, true)
    | some cursor =>
      let (rest, done) ← follow sink logs filter limit fuel (k + 1) (some cursor)
      return (page.entries ++ rest, done)

structure Appending (key : Hasher) (logs : Nat → LogFiles) : Prop where
  first : ∃ events, recordAll key LogFiles.empty events = some (logs 0)
  next : ∀ k, ∃ events, recordAll key (logs k) events = some (logs (k + 1))

theorem Appending.linked {key : Hasher} {logs : Nat → LogFiles} (h : Appending key logs) (k : Nat)
    : (logs 0).entries <+: (logs k).entries ∧ Linked key 0 "" (logs k).entries := by
  induction k with
  | zero =>
    obtain ⟨events, hevents⟩ := h.first
    have hempty : Linked key 0 "" LogFiles.empty.entries := trivial
    exact ⟨prefix_rfl, (linked_recordAll hempty hevents).2⟩
  | succ k ih =>
    obtain ⟨events, hevents⟩ := h.next k
    obtain ⟨hpre, hlinked⟩ := linked_recordAll ih.2 hevents
    exact ⟨ih.1.trans hpre, hlinked⟩

def found (entries : List AuditEntry) (cursor : Option Nat) : List AuditEntry :=
  (entries.filter (wanted filter cursor)).reverse

theorem found_appended {key : Hasher} {logs : Nat → LogFiles} (h : Appending key logs) (k c : Nat)
    (hc : c < (logs 0).entries.length)
    : found filter (logs k).entries (some c) = found filter (logs 0).entries (some c) := by
  obtain ⟨⟨rest, hrest⟩, hlinked⟩ := h.linked k
  unfold found
  congr 1
  rw [← hrest, filter_append]
  have hnone : rest.filter (wanted filter (some c)) = [] := by
    rw [filter_eq_nil_iff]
    intro e he hwanted
    obtain ⟨j, hj⟩ := mem_iff_getElem?.mp he
    have hget : (logs k).entries[(logs 0).entries.length + j]? = some e := by
      rw [← hrest, getElem?_append_right (by omega), Nat.add_sub_cancel_left]
      exact hj
    have hseq := (linked_seq_lt hlinked hget).1
    simp only [wanted, Option.all_some, Bool.and_eq_true, decide_eq_true_eq] at hwanted
    omega
  rw [hnone, append_nil]

theorem found_decreasing {entries : List AuditEntry} (h : Increasing entries) (cursor : Option Nat)
    : (found filter entries cursor).Pairwise fun a b => b.seq < a.seq := by
  rw [found, pairwise_reverse]
  exact h.filter _

theorem found_next {entries : List AuditEntry} (h : Increasing entries) {cursor : Option Nat}
    {e : AuditEntry} (he : ((found filter entries cursor).take limit).getLast? = some e)
    : found filter entries (some e.seq) = (found filter entries cursor).drop limit := by
  have hmem : e ∈ found filter entries cursor :=
    mem_of_mem_take (mem_of_getLast? he)
  have hbelow : ∀ c ∈ cursor, e.seq < c := by
    simp only [found, mem_reverse, mem_filter, wanted, Bool.and_eq_true] at hmem
    intro c hcursor
    cases hcursor
    simpa using hmem.2.2
  have hfilter : found filter entries (some e.seq)
      = (found filter entries cursor).filter fun a => a.seq < e.seq := by
    simp only [found, filter_reverse, filter_filter]
    congr 1
    apply filter_congr
    intro a _
    cases cursor with
    | none => simp [wanted, Bool.and_comm]
    | some c =>
      have hc := hbelow c rfl
      by_cases ha : a.seq < e.seq
      . simp [wanted, ha, lt_trans ha hc]
      . simp [wanted, ha]
  rw [hfilter]
  have hdecreasing := found_decreasing filter h cursor
  generalize found filter entries cursor = all at *
  conv at hdecreasing => rw [← take_append_drop limit all]
  rw [pairwise_append] at hdecreasing
  obtain ⟨htake, -, hcross⟩ := hdecreasing
  conv => lhs; rw [← take_append_drop limit all]
  rw [filter_append]
  have hkept : (all.take limit).filter (fun a => a.seq < e.seq) = [] := by
    rw [filter_eq_nil_iff]
    intro a ha
    rw [decide_eq_true_eq, not_lt]
    obtain ⟨init, hinit⟩ := getLast?_eq_some_iff.mp he
    rw [hinit] at ha htake
    rcases mem_append.mp ha with ha | ha
    . exact le_of_lt ((pairwise_append.mp htake).2.2 a ha e (mem_singleton.mpr rfl))
    . rw [mem_singleton.mp ha]
  have hleft : (all.drop limit).filter (fun a => a.seq < e.seq) = all.drop limit := by
    rw [filter_eq_self]
    intro a ha
    exact decide_eq_true (hcross e (mem_of_getLast? he) a ha)
  rw [hkept, hleft, nil_append]

def Covered (logs : Nat → LogFiles) (k : Nat) (cursor : Option Nat) : Prop :=
  k = 0 ∨ ∃ c, cursor = some c ∧ c < (logs 0).entries.length

theorem Covered.found_eq {key : Hasher} {logs : Nat → LogFiles} (h : Appending key logs) {k : Nat}
    {cursor : Option Nat} (hk : Covered logs k cursor)
    : found filter (logs k).entries cursor = found filter (logs 0).entries cursor := by
  rcases hk with rfl | ⟨c, rfl, hc⟩
  . rfl
  . exact found_appended filter h k c hc

theorem follow_eq {sink : Sink} {key : Hasher} {logs : Nat → LogFiles} (hsink : ∀ k, sink.Reads (logs k).entries)
    (h : Appending key logs) (hlimit : 1 ≤ limit) {fuel k : Nat} {cursor : Option Nat}
    (hk : Covered logs k cursor) (hfuel : (found filter (logs 0).entries cursor).length < fuel)
    : follow sink logs filter limit fuel k cursor
        = .ok (found filter (logs 0).entries cursor, true) := by
  induction fuel generalizing k cursor with
  | zero => omega
  | succ fuel ih =>
    have hpage : sink.queryPage (logs k).entries filter cursor limit
        = .ok { entries := (found filter (logs 0).entries cursor).take limit
                nextCursor := if limit < (found filter (logs 0).entries cursor).length then
                    ((found filter (logs 0).entries cursor).take limit).getLast?.map (·.seq)
                  else none } := by
      rw [sink.queryPage_eq filter cursor limit (hsink k) (increasing_of_linked (h.linked k).2),
        queryPage_increasing _ _ _ (increasing_of_linked (h.linked k).2)]
      rw [← hk.found_eq filter h]
      rfl
    unfold follow
    rw [hpage]
    simp only [bind, Except.bind]
    by_cases hmore : limit < (found filter (logs 0).entries cursor).length
    . simp only [hmore, if_true]
      cases hlast : ((found filter (logs 0).entries cursor).take limit).getLast? with
      | none =>
        rw [getLast?_eq_none_iff, take_eq_nil_iff] at hlast
        rcases hlast with hlast | hlast
        . omega
        . rw [hlast] at hmore
          cases hmore
      | some e =>
        have hmem : e ∈ (logs 0).entries := by
          have := mem_of_mem_take (mem_of_getLast? hlast)
          rw [found, mem_reverse] at this
          exact mem_of_mem_filter this
        have hcovered : Covered logs (k + 1) (some e.seq) := by
          obtain ⟨j, hj⟩ := mem_iff_getElem?.mp hmem
          have hseq := (linked_seq_lt (h.linked 0).2 hj).1
          have hlt := (List.getElem?_eq_some_iff.mp hj).1
          exact Or.inr ⟨e.seq, rfl, by omega⟩
        have hnext := found_next filter limit (increasing_of_linked (h.linked 0).2) hlast
        have hrest := ih hcovered (by rw [hnext, length_drop]; omega)
        rw [hnext] at hrest
        simp only [Option.map_some]
        rw [hrest]
        simp only [pure, Except.pure, take_append_drop]
    . simp only [hmore, if_false]
      rw [take_of_length_le (by omega)]
      rfl

theorem follow_eq_matching (sink : Sink) (key : Hasher) (logs : Nat → LogFiles)
    (hsink : ∀ k, sink.Reads (logs k).entries) (h : Appending key logs) (filter : AuditFilter) (limit : Nat)
    (hlimit : 1 ≤ limit) (fuel : Nat) (hfuel : (logs 0).entries.length < fuel)
    : follow sink logs filter limit fuel 0 none
        = .ok (((logs 0).entries.filter filter.matches).reverse, true)
      ∧ ((logs 0).entries.filter filter.matches).reverse.Nodup := by
  have hall : found filter (logs 0).entries none
      = ((logs 0).entries.filter filter.matches).reverse := by
    have : wanted filter none = filter.matches := by
      funext e
      simp [wanted]
    rw [found, this]
  constructor
  . rw [← hall]
    apply follow_eq filter limit hsink h hlimit (Or.inl rfl)
    rw [hall, length_reverse]
    exact lt_of_le_of_lt (length_filter_le _ _) hfuel
  . rw [nodup_reverse]
    have hincreasing := increasing_of_linked (h.linked 0).2
    exact (hincreasing.imp (fun hab heq => by simp [heq] at hab)).filter _

theorem encodeEntry_injective : Function.Injective encodeEntry := by
  intro a b h
  have htext := Bytes.utf8_injective h
  have hint : ∀ e : AuditEntry, Json.integral e.toValue = true := by
    intro e
    simp [AuditEntry.toValue, Json.integral, Json.integralFields, e.event.integral_toValue]
  unfold jsonText at htext
  have hvalue := (Json.render_append_inj (s := []) (t := []) (fun _ => []) (hint a) (hint b)
    Json.delimited_nil Json.delimited_nil (by rw [htext])).1
  simp only [AuditEntry.toValue, Value.object.injEq, cons.injEq, Prod.mk.injEq,
    Value.string.injEq, Value.int.injEq, Int.natCast_inj, true_and, and_true] at hvalue
  obtain ⟨hid, hseq, hevent, hprev, hhash⟩ := hvalue
  have hevent := AuditEvent.toValue_injective hevent
  cases a
  cases b
  simp_all

noncomputable def parseEntry : LineParser :=
  fun line =>
    open Classical in
    if h : ∃ e, encodeEntry e = line then .ok h.choose else .error (.invalid "not an audit entry")

theorem reads_parseEntry (entries : List AuditEntry) : (Sink.file parseEntry).Reads entries := by
  intro e _
  have h : ∃ e', encodeEntry e' = encodeEntry e := ⟨e, rfl⟩
  unfold parseEntry
  rw [dif_pos h, encodeEntry_injective h.choose_spec]

theorem follow_two_entries
    : ∃ logs : Nat → LogFiles, (logs 0).entries.length = 2 ∧ (logs 1).entries.length = 3
        ∧ follow (.file parseEntry) logs {} 1 3 0 none = .ok ((logs 0).entries.reverse, true) := by
  have hrun : ∃ files files', recordAll (.keyed id) LogFiles.empty sampleEvents = some files
      ∧ recordAll (.keyed id) files [sampleEvents.head!] = some files'
      ∧ files.entries.length = 2 ∧ files'.entries.length = 3 := ⟨_, _, rfl, rfl, rfl, rfl⟩
  obtain ⟨files, files', hfiles, hfiles', hlength, hlength'⟩ := hrun
  -- The third event is recorded after the first page was read.
  let logs : Nat → LogFiles := fun k => if k = 0 then files else files'
  have happending : Appending (.keyed id) logs := by
    constructor
    . exact ⟨sampleEvents, hfiles⟩
    . intro k
      cases k with
      | zero => exact ⟨_, hfiles'⟩
      | succ k => exact ⟨[], rfl⟩
  refine ⟨logs, hlength, hlength', ?_⟩
  have hfollow := follow_eq_matching (.file parseEntry) (.keyed id) logs (fun _ => reads_parseEntry _) happending
    {} 1 (by omega) 3 (by show files.entries.length < 3; omega)
  rw [hfollow.1, filter_eq_self.mpr]
  intro e _
  rfl

end Wovyr.Audit
