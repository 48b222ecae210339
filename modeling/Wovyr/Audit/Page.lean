import Wovyr.Audit.Log

/-!
This module contains the paged reads of the audit log, of which the one of the file sink reads
`audit.jsonl` backwards in chunks. How a line is parsed is a parameter.
-/

namespace Wovyr.Audit

structure AuditFilter where
  tenant : Option String := none
  principal : Option String := none
  action : Option String := none
  afterMs : Option Nat := none
  beforeMs : Option Nat := none
deriving Repr, DecidableEq, Inhabited

def AuditFilter.matches (filter : AuditFilter) (entry : AuditEntry) : Bool :=
  filter.tenant.all (· == entry.event.actor.tenant)
    && filter.principal.all (· == entry.event.actor.principal)
    && filter.action.all (· == entry.event.action)
    && filter.afterMs.all (· ≤ entry.event.timestampMs)
    && filter.beforeMs.all (entry.event.timestampMs ≤ ·)

structure AuditPage where
  entries : List AuditEntry
  nextCursor : Option Nat
deriving Repr, DecidableEq, Inhabited

def queryPage (all : List AuditEntry) (filter : AuditFilter) (beforeSeq : Option Nat) (limit : Nat)
    : AuditPage :=
  let entries := all.filter fun e => filter.matches e && beforeSeq.all (e.seq < ·)
  let entries := entries.mergeSort fun a b => b.seq ≤ a.seq
  let hasMore := limit < entries.length
  let entries := entries.take limit
  { entries, nextCursor := if hasMore then entries.getLast?.map (·.seq) else none }

def AuditEntry.toValue (e : AuditEntry) : Value :=
  .object [("id", .string e.id), ("seq", .int e.seq), ("event", e.event.toValue),
    ("prev_hash", .string e.prevHash), ("hash", .string e.hash)]

def newline : UInt8 := 0x0a

-- A line of `audit.jsonl` without its newline.
def encodeEntry (e : AuditEntry) : List UInt8 :=
  Bytes.utf8 (jsonText e.toValue)

def encodeFile (entries : List AuditEntry) : List UInt8 :=
  entries.flatMap fun e => encodeEntry e ++ [newline]

def isAsciiWhitespace (b : UInt8) : Bool :=
  b == 0x20 || b == 0x09 || b == 0x0a || b == 0x0c || b == 0x0d

-- `line.trim_ascii().is_empty()`.
def isBlank (line : List UInt8) : Bool :=
  line.all isAsciiWhitespace

-- The lines of a buffer, where what follows the last newline is a line unless it is empty.
def linesOf (buf : List UInt8) : List (List UInt8) :=
  go [] buf
where
  go (line : List UInt8) : List UInt8 → List (List UInt8)
    | [] => if line = [] then [] else [line]
    | b :: buf => if b = newline then line :: go [] buf else go (line ++ [b]) buf

abbrev LineParser := List UInt8 → Except Error AuditEntry

section

variable (parse : LineParser) (filter : AuditFilter) (beforeSeq : Option Nat) (limit : Nat)

-- The lines of one buffer, last line first. The flag tells that more than `limit` entries were
-- found, in which case the scan is over.
def scanLines (collected : List AuditEntry) : List (List UInt8)
    → Except Error (List AuditEntry × Bool)
  | [] => .ok (collected, false)
  | line :: lines =>
    if isBlank line then
      scanLines collected lines
    else
      match parse line with
      | .error e => .error e
      | .ok entry =>
        if beforeSeq.any (· ≤ entry.seq) then
          scanLines collected lines
        else if !filter.matches entry then
          scanLines collected lines
        else if limit < (collected ++ [entry]).length then
          .ok ((collected ++ [entry]).take limit, true)
        else
          scanLines (collected ++ [entry]) lines

structure ReverseScan where
  page : AuditPage
  bytesRead : Nat

-- The bytes before the first newline continue a line that starts in a lower chunk: they are carried
-- over to the next round, unless the file starts here.
def scanLoop (file : List UInt8) {chunkBytes : Nat} (hchunk : 0 < chunkBytes) (pos : Nat)
    (carry : List UInt8) (collected : List AuditEntry) (bytesRead : Nat)
    : Except Error ReverseScan :=
  if hpos : pos = 0 then
    .ok { page := { entries := collected, nextCursor := none }, bytesRead }
  else
    let readSize := min chunkBytes pos
    let chunkStart := pos - readSize
    have : chunkStart < pos := by
      dsimp only [chunkStart, readSize]
      omega
    let buf := (file.drop chunkStart).take readSize ++ carry
    let bytesRead := bytesRead + readSize
    if chunkStart ≠ 0 ∧ newline ∉ buf then
      scanLoop file hchunk chunkStart buf collected bytesRead
    else
      let linesFrom := if chunkStart = 0 then 0 else buf.idxOf newline + 1
      let carry := if chunkStart = 0 then [] else buf.take (buf.idxOf newline)
      match scanLines parse filter beforeSeq limit collected (linesOf (buf.drop linesFrom)).reverse with
      | .error e => .error e
      | .ok (collected, true) =>
        .ok { page := { entries := collected, nextCursor := collected.getLast?.map (·.seq) },
              bytesRead }
      | .ok (collected, false) => scanLoop file hchunk chunkStart carry collected bytesRead
termination_by pos

end

-- `none` is a file that does not exist.
def scanReverse (parse : LineParser) (file : Option (List UInt8)) (filter : AuditFilter)
    (beforeSeq : Option Nat) (limit : Nat) {chunkBytes : Nat} (hchunk : 0 < chunkBytes)
    : Except Error ReverseScan :=
  match file with
  | none => .ok { page := { entries := [], nextCursor := none }, bytesRead := 0 }
  | some file => scanLoop parse filter beforeSeq limit file hchunk file.length [] [] 0

def readChunkBytes : Nat := 64 * 1024

inductive Sink where
  | inMemory
  | file (parse : LineParser)

def sinkFile (entries : List AuditEntry) : Option (List UInt8) :=
  if entries = [] then none else some (encodeFile entries)

def Sink.queryPage (sink : Sink) (entries : List AuditEntry) (filter : AuditFilter)
    (beforeSeq : Option Nat) (limit : Nat) : Except Error AuditPage :=
  match sink with
  | .inMemory => .ok (Audit.queryPage entries filter beforeSeq limit)
  | .file parse => do
    let scan ← scanReverse parse (sinkFile entries) filter beforeSeq limit
      (show 0 < readChunkBytes by decide)
    return scan.page

end Wovyr.Audit
