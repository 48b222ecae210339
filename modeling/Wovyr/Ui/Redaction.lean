import Wovyr.Lib.Spans
import Wovyr.Ui.Soundness

/-!
This module contains what the redaction of a frame makes of its texts: matches are found in the
lower case of a text and replaced at the same offsets in the text itself.
-/

namespace Wovyr.Ui

open Span (extent paint search)

section

variable {text before inside after cover : List Char} {start stop : Nat}

theorem splitAtByte_append (before after : List Char)
    : splitAtByte (before ++ after) (byteLength before) = some (before, after) := by
  induction before with
  | nil =>
    show splitAtByte after 0 = _
    rw [splitAtByte]
  | cons c before ih =>
    have hpos := c.utf8Size_pos
    have hlength : byteLength (c :: before) = (c.utf8Size + byteLength before - 1) + 1 := by
      show c.utf8Size + byteLength before = _
      omega
    rw [hlength, List.cons_append, splitAtByte, if_pos (by omega)]
    have hrest : c.utf8Size + byteLength before - 1 + 1 - c.utf8Size = byteLength before := by omega
    rw [hrest, ih]
    rfl

theorem replaceRange_append (hstart : extent Char.utf8Size before = start)
    (hstop : start + extent Char.utf8Size inside = stop)
    : replaceRange (before ++ inside ++ after) start stop cover = some (before ++ cover ++ after) := by
  subst hstart
  have hinside : stop - extent Char.utf8Size before = byteLength inside := by
    show _ = extent Char.utf8Size inside
    omega
  unfold replaceRange
  rw [List.append_assoc, show extent Char.utf8Size before = byteLength before from rfl, splitAtByte_append]
  dsimp only
  rw [show stop - byteLength before = byteLength inside from hinside, splitAtByte_append]

def coverSpan (text : List Char) (m : Span Char) : Option (List Char) :=
  replaceRange text m.start m.stop m.cover

theorem scrubPattern_eq (pattern lower : List Char) (start : Nat) (text : List Char) (hit : Bool)
    : scrubPattern pattern lower start text hit
        = ((search Char.utf8Size pattern (blackout pattern) lower start).foldlM coverSpan text).map fun text =>
            (text, hit || !(search Char.utf8Size pattern (blackout pattern) lower start).isEmpty) := by
  fun_induction scrubPattern pattern lower start text hit with
  | case1 start text hit =>
    rw [search]
    simp
  | case2 start text hit c rest hmatch hreplace =>
    rw [search, if_pos hmatch, List.foldlM_cons]
    show none = Option.map _ ((replaceRange text start (start + byteLength pattern) (blackout pattern)).bind _)
    rw [hreplace]
    rfl
  | case3 start text hit c rest hmatch text' hreplace ih =>
    rw [ih, search, if_pos hmatch, List.foldlM_cons]
    show _ = Option.map _ ((replaceRange text start (start + byteLength pattern) (blackout pattern)).bind _)
    rw [hreplace]
    simp only [Option.bind_some, Bool.true_or, List.isEmpty_cons, Bool.not_false, Bool.or_true]
    rfl
  | case4 start text hit c rest hmatch ih =>
    rw [ih, search, if_neg hmatch]

end

section

variable (u : Unicode) (patterns : List String)

def found (lower : List Char) (pattern : String) : List (Span Char) :=
  search Char.utf8Size (u.toLowercase pattern.toList) (blackout (u.toLowercase pattern.toList)) lower 0

def spans (text : String) : List (Span Char) :=
  patterns.flatMap (found u (u.toLowercase text.toList))

def redacted (text : String) : String :=
  String.ofList (paint Char.utf8Size (spans u patterns text) text.toList 0)

-- No pattern stands in the text, in whatever case.
def Clean (text : String) : Prop :=
  ∀ pattern ∈ patterns, u.toLowercase pattern.toList ≠ [] →
    ¬u.toLowercase pattern.toList <:+: u.toLowercase text.toList

/--
The parts of a text that match are found again when they are replaced: they stand at the same offsets in the
text as in its lower case, a part that is replaced later stands before those that were replaced, or behind
those whose cover is as long as they were, and no pattern comes about by lower-casing what stands beside a cover.
-/
structure Steady (text : String) : Prop where
  fits : ∀ m ∈ spans u patterns text, m.Fits Char.utf8Size text.toList
  apart : (spans u patterns text).Pairwise fun m m' =>
    m'.stop ≤ m.start ∨ (m.stop ≤ m'.start ∧ m.Keeps Char.utf8Size)
  -- The lower case of a character can depend on those beside it.
  lower : ∀ pattern ∈ patterns,
    u.toLowercase pattern.toList <:+: u.toLowercase (paint Char.utf8Size (spans u patterns text) text.toList 0) →
    u.toLowercase pattern.toList <:+: paint Char.utf8Size (spans u patterns text) (u.toLowercase text.toList) 0

variable {u patterns}

theorem foldlM_scrubPattern (lower cs : List Char) (hit : Bool) (patterns : List String)
    : patterns.foldlM (fun (text, hit) pattern => scrubPattern (u.toLowercase pattern.toList) lower 0 text hit)
          (cs, hit)
        = ((patterns.flatMap (found u lower)).foldlM coverSpan cs).map fun cs =>
            (cs, hit || !(patterns.flatMap (found u lower)).isEmpty) := by
  induction patterns generalizing cs hit with
  | nil => simp
  | cons pattern patterns ih =>
    rw [List.foldlM_cons, List.flatMap_cons, List.foldlM_append]
    dsimp only
    rw [scrubPattern_eq]
    show Option.bind (Option.map _ ((found u lower pattern).foldlM coverSpan cs)) _ = Option.map _ (Option.bind _ _)
    cases (found u lower pattern).foldlM coverSpan cs with
    | none => rfl
    | some cs' =>
      rw [Option.map_some, Option.bind_some, Option.bind_some, ih]
      have hempty (ms ms' : List (Span Char)) : (!(ms ++ ms').isEmpty) = (!ms.isEmpty || !ms'.isEmpty) := by
        cases ms <;> rfl
      simp only [hempty, Bool.or_assoc]
      rfl

theorem scrub_eq (text : String)
    : scrub u patterns text = ((spans u patterns text).foldlM coverSpan text.toList).map fun cs =>
        (String.ofList cs, !(spans u patterns text).isEmpty) := by
  unfold scrub
  dsimp only
  rw [foldlM_scrubPattern, Option.map_map]
  rfl

section

variable {text : List Char} {done rest : List (Span Char)} {m : Span Char}

theorem coverSpan_paint (hfits : m.Fits Char.utf8Size text) (hdone : ∀ m' ∈ done, m'.Fits Char.utf8Size text)
    (hdisjoint : done.Pairwise fun m m' => m.Misses m'.start m'.stop)
    (hapart : ∀ m' ∈ done, m.stop ≤ m'.start ∨ (m'.stop ≤ m.start ∧ m'.Keeps Char.utf8Size))
    : coverSpan (paint Char.utf8Size done text 0) m = some (paint Char.utf8Size (done ++ [m]) text 0) := by
  obtain ⟨before, inside, after, rfl, hne, hstart, hstop⟩ := hfits
  have hmisses (m' : Span Char) (hm' : m' ∈ done) : m'.Misses m.start m.stop :=
    (hapart m' hm').elim .inr fun h => .inl h.1
  obtain ⟨hold, hnew⟩ := @Span.paint_concat _ _ _ _ Char.utf8Size_pos _ _ after hne hstart hstop hmisses
  have hextent : extent Char.utf8Size (paint Char.utf8Size done before 0) = m.start := by
    rw [← hstart]
    apply Span.extent_paint Char.utf8Size_pos _ hdisjoint
    intro m' hm'
    have hfits := hdone m' hm'
    rw [List.append_assoc] at hfits
    rcases hapart m' hm' with hbehind | ⟨hbefore, hkeeps⟩
    . left
      omega
    . right
      exact ⟨hfits.of_append Char.utf8Size_pos (by omega), hkeeps⟩
  rw [coverSpan, hold, hnew]
  exact replaceRange_append hextent (by omega)

theorem foldlM_coverSpan (hfits : ∀ m ∈ done ++ rest, m.Fits Char.utf8Size text)
    (hapart : (done ++ rest).Pairwise fun m m' =>
      m'.stop ≤ m.start ∨ (m.stop ≤ m'.start ∧ m.Keeps Char.utf8Size))
    : rest.foldlM coverSpan (paint Char.utf8Size done text 0)
        = some (paint Char.utf8Size (done ++ rest) text 0) := by
  induction rest generalizing done with
  | nil => rw [List.append_nil, List.foldlM_nil]; rfl
  | cons m rest ih =>
    rw [List.append_cons] at hfits hapart ⊢
    obtain ⟨hdone, -, -⟩ := List.pairwise_append.mp hapart
    obtain ⟨hbefore, -, hlast⟩ := List.pairwise_append.mp hdone
    have hcovered := coverSpan_paint (hfits m (by simp)) (fun m' hm' => hfits m' (by simp [hm']))
      (hbefore.imp fun h => h.elim .inr fun h => .inl h.1)
      fun m' hm' => hlast m' hm' m (List.mem_singleton_self m)
    rw [List.foldlM_cons, hcovered]
    exact ih hfits hapart

end

theorem Steady.scrub {text : String} (h : Steady u patterns text)
    : scrub u patterns text = some (redacted u patterns text, !(spans u patterns text).isEmpty) := by
  have hfold := @foldlM_coverSpan text.toList [] (spans u patterns text) h.fits h.apart
  rw [Span.paint_of_misses Char.utf8Size_pos (List.forall_mem_nil _), List.nil_append] at hfold
  rw [scrub_eq, hfold]
  rfl

end

mutual

def scrubbed : UiNode → List String
  | .text text _ => [text]
  | .badge text _ => [text]
  | .keyValue entries => entries.map (·.value)
  | .column children => scrubbedAll children
  | .row children => scrubbedAll children
  | .card _ children => scrubbedAll children
  | _ => []

def scrubbedAll : List UiNode → List String
  | [] => []
  | node :: nodes => scrubbed node ++ scrubbedAll nodes

end

mutual

def mapContents (f : String → String) : UiNode → UiNode
  | .text text style => .text (f text) style
  | .badge text tone => .badge (f text) tone
  | .keyValue entries => .keyValue (entries.map fun entry => { entry with value := f entry.value })
  | .column children => .column (mapContentsAll f children)
  | .row children => .row (mapContentsAll f children)
  | .card title children => .card title (mapContentsAll f children)
  | node => node

def mapContentsAll (f : String → String) : List UiNode → List UiNode
  | [] => []
  | node :: nodes => mapContents f node :: mapContentsAll f nodes

end

section

variable (f : String → String)

mutual

theorem scrubbed_mapContents (node : UiNode) : scrubbed (mapContents f node) = (scrubbed node).map f := by
  match node with
  | .text _ _ | .badge _ _ => rfl
  | .keyValue entries => simp [mapContents, scrubbed]
  | .column children | .row children | .card _ children => exact scrubbedAll_mapContentsAll children
  | .divider | .image _ _ | .textInput _ _ _ _ _ | .numberInput _ _ _ _ _ | .select _ _ _ _
  | .checkbox _ _ _ | .button _ _ _ => rfl

theorem scrubbedAll_mapContentsAll (nodes : List UiNode)
    : scrubbedAll (mapContentsAll f nodes) = (scrubbedAll nodes).map f := by
  match nodes with
  | [] => rfl
  | node :: nodes =>
    rw [mapContentsAll, scrubbedAll, scrubbedAll, scrubbed_mapContents node, scrubbedAll_mapContentsAll nodes,
      List.map_append]

end

mutual

theorem mapContents_mapContents (g : String → String) (node : UiNode)
    : mapContents g (mapContents f node) = mapContents (g ∘ f) node := by
  match node with
  | .text _ _ | .badge _ _ => rfl
  | .keyValue entries => simp [mapContents]
  | .column children | .row children | .card _ children =>
    simp only [mapContents, mapContentsAll_mapContentsAll g children]
  | .divider | .image _ _ | .textInput _ _ _ _ _ | .numberInput _ _ _ _ _ | .select _ _ _ _
  | .checkbox _ _ _ | .button _ _ _ => rfl

theorem mapContentsAll_mapContentsAll (g : String → String) (nodes : List UiNode)
    : mapContentsAll g (mapContentsAll f nodes) = mapContentsAll (g ∘ f) nodes := by
  match nodes with
  | [] => rfl
  | node :: nodes =>
    rw [mapContentsAll, mapContentsAll, mapContentsAll, mapContents_mapContents g node,
      mapContentsAll_mapContentsAll g nodes]

end

mutual

theorem collect_mapContents (node : UiNode) : collect (mapContents f node) = (collect node).map (mapContents f) := by
  match node with
  | .column children | .row children | .card _ children =>
    simp only [mapContents, collect, collectAll_mapContentsAll children, List.map_cons]
  | .text _ _ | .badge _ _ | .keyValue _ | .divider | .image _ _ | .textInput _ _ _ _ _
  | .numberInput _ _ _ _ _ | .select _ _ _ _ | .checkbox _ _ _ | .button _ _ _ => rfl

theorem collectAll_mapContentsAll (nodes : List UiNode)
    : collectAll (mapContentsAll f nodes) = (collectAll nodes).map (mapContents f) := by
  match nodes with
  | [] => rfl
  | node :: nodes =>
    rw [mapContentsAll, collectAll, collectAll, collect_mapContents node, collectAll_mapContentsAll nodes,
      List.map_append]

end

end

section

variable {u : Unicode} {patterns : List String} {f : String → String} {hit : String → Bool}

theorem scrubEntries_eq {entries : List KeyValueEntry}
    (h : ∀ text ∈ entries.map (·.value), scrub u patterns text = some (f text, hit text))
    : scrubEntries u patterns entries
        = some (entries.map fun entry => { entry with value := f entry.value },
            (entries.map (·.value)).any hit) := by
  induction entries with
  | nil => rfl
  | cons entry entries ih =>
    rw [List.map_cons, List.forall_mem_cons] at h
    rw [scrubEntries, h.1, ih h.2]
    rfl

mutual

theorem redactNode_eq {node : UiNode} (h : ∀ text ∈ scrubbed node, scrub u patterns text = some (f text, hit text))
    : redactNode u patterns node = some (mapContents f node, (scrubbed node).any hit) := by
  match node with
  | .text text style =>
    rw [redactNode, h text (List.mem_singleton_self _)]
    simp [scrubbed, mapContents]
  | .badge text tone =>
    rw [redactNode, h text (List.mem_singleton_self _)]
    simp [scrubbed, mapContents]
  | .keyValue entries =>
    rw [redactNode, scrubEntries_eq h]
    rfl
  | .column children | .row children | .card _ children =>
    rw [redactNode, redactNodes_eq h]
    rfl
  | .divider | .image _ _ | .textInput _ _ _ _ _ | .numberInput _ _ _ _ _ | .select _ _ _ _
  | .checkbox _ _ _ | .button _ _ _ => rfl

theorem redactNodes_eq {nodes : List UiNode}
    (h : ∀ text ∈ scrubbedAll nodes, scrub u patterns text = some (f text, hit text))
    : redactNodes u patterns nodes = some (mapContentsAll f nodes, (scrubbedAll nodes).any hit) := by
  match nodes with
  | [] => rfl
  | node :: nodes =>
    rw [scrubbedAll, List.forall_mem_append] at h
    rw [redactNodes, redactNode_eq h.1, redactNodes_eq h.2]
    simp [scrubbedAll, mapContentsAll]

end

mutual

theorem mapContents_eq_self {node : UiNode} (h : ∀ text ∈ scrubbed node, f text = text)
    : mapContents f node = node := by
  match node with
  | .text text _ | .badge text _ => rw [mapContents, h text (List.mem_singleton_self _)]
  | .keyValue entries =>
    rw [mapContents]
    have hsame (entry : KeyValueEntry) (hentry : entry ∈ entries)
        : { entry with value := f entry.value } = entry := by
      rw [h entry.value (List.mem_map_of_mem hentry)]
    rw [List.map_congr_left hsame, List.map_id']
  | .column children | .row children | .card _ children => rw [mapContents, mapContentsAll_eq_self h]
  | .divider | .image _ _ | .textInput _ _ _ _ _ | .numberInput _ _ _ _ _ | .select _ _ _ _
  | .checkbox _ _ _ | .button _ _ _ => rfl

theorem mapContentsAll_eq_self {nodes : List UiNode} (h : ∀ text ∈ scrubbedAll nodes, f text = text)
    : mapContentsAll f nodes = nodes := by
  match nodes with
  | [] => rfl
  | node :: nodes =>
    rw [scrubbedAll, List.forall_mem_append] at h
    rw [mapContentsAll, mapContents_eq_self h.1, mapContentsAll_eq_self h.2]

end

end

def keys : UiNode → List String
  | .keyValue entries => entries.map (·.key)
  | _ => []

-- What a node and those below show, the keys of entries with it.
def contents (node : UiNode) : List String :=
  scrubbed node ++ (collect node).flatMap keys

section

variable (u : Unicode)

variable {u} {policy : UiPolicy} {frame : UiFrame}

end

namespace Memo

def policy (pattern : String) : UiPolicy where
  name := "default"
  version := 1
  rules := { redactTextPatterns := [pattern] }

def frame (text : String) : UiFrame where
  schemaVersion := "1.0.0"
  title := none
  provenance := {}
  root := .text text .body

end Memo

end Wovyr.Ui
