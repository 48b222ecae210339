import Wovyr.Lib.Bytes
import Wovyr.Lib.Prog
import Wovyr.Lib.Text

/-!
This module contains the window of a list that a request asks for. The cursor is the offset of the
window in hex.
-/

namespace Wovyr.Server.Hardening

structure PageQuery where
  limit : Option Nat := none
  cursor : Option String := none

structure Page (α : Type) where
  data : List α
  hasMore : Bool
  nextCursor : Option String
  totalEstimate : Nat

def encodeCursor (offset : Nat) : String :=
  Bytes.hexLower (Bytes.utf8 (toString offset).toList)

def isContinuation (b : UInt8) : Bool :=
  0x80 ≤ b && b < 0xc0

def hexVal? (b : UInt8) : Option Nat :=
  if 0x30 ≤ b && b ≤ 0x39 then some (b.toNat - 0x30)
  else if 0x61 ≤ b && b ≤ 0x66 then some (b.toNat - 0x57)
  else if 0x41 ≤ b && b ≤ 0x46 then some (b.toNat - 0x37)
  else none

-- `u8::from_str_radix` of two bytes, of which the first can be a sign.
def pairVal? (a b : UInt8) : Option Nat :=
  if a = 0x2b then
    hexVal? b
  else
    (hexVal? a).bind fun x => (hexVal? b).map fun y => 16 * x + y

-- The bytes of a cursor. To cut a character in two panics.
def decodePairs : List UInt8 → Outcome Unit (List Nat)
  | a :: b :: rest =>
    if rest.head?.any isContinuation then
      .halted
    else
      match pairVal? a b with
      | none => .err ()
      | some v =>
        match decodePairs rest with
        | .ok vs => .ok (v :: vs)
        | o => o
  | _ => .ok []

def decodeCursor (cursor : String) : Outcome Unit Nat :=
  let bytes := Bytes.utf8 cursor.toList
  if bytes.length % 2 != 0 then
    .err ()
  else
    match decodePairs bytes with
    | .ok vs =>
      let text := if vs.all (· < 0x80) then some (String.ofList (vs.map Char.ofNat)) else none
      match text.bind (Text.parseUnsigned (2 ^ 64)) with
      | some offset => .ok offset
      | none => .err ()
    | .err e => .err e
    | .halted => .halted

-- Nothing, if it panics.
def PageQuery.offset (q : PageQuery) : Option Nat :=
  match q.cursor with
  | none => some 0
  | some cursor =>
    match decodeCursor cursor with
    | .ok offset => some offset
    | .err _ => some 0
    | .halted => none

-- A window whose end overflows can end before it starts, which panics.
def paginate {α : Type} (items : List α) (q : PageQuery) : Option (Page α) := do
  let offset ← q.offset
  let limit := min (max (q.limit.getD 25) 1) 100
  let stop := min ((offset + limit) % 2 ^ 64) items.length
  let start := min offset items.length
  if stop < start then
    none
  else
    return {
      data := (items.take stop).drop start
      hasMore := decide (stop < items.length)
      nextCursor := if stop < items.length then some (encodeCursor stop) else none
      totalEstimate := items.length }

theorem exists_window {α β : Type} {f : α → β} {xs : List α} {q : PageQuery} {page : Page β}
    (h : paginate (xs.map f) q = some page)
    : ∃ window : List α, page.data = window.map f ∧ window.Sublist xs := by
  have hwindow (stop start : Nat) : ((xs.map f).take stop).drop start = ((xs.take stop).drop start).map f := by
    rw [List.map_drop, List.map_take]
  unfold paginate at h
  cases hoffset : q.offset with
  | none => simp [hoffset] at h
  | some offset =>
    simp only [hoffset, Option.bind_eq_bind, Option.bind_some] at h
    split at h
    . cases h
    . cases h
      exact ⟨_, hwindow _ _, (List.drop_sublist _ _).trans (List.take_sublist _ _)⟩

end Wovyr.Server.Hardening
