import Wovyr.Json.Canonical
import Wovyr.Ui.Frame

/-!
This module contains the JSON form of a frame, its content hash and the verification of that hash by
the TypeScript SDK. SHA-256 and the two ways to write a float are parameters.
-/

namespace Wovyr.Ui

open Json

def TextStyle.name : TextStyle → String
  | .body => "body"
  | .heading => "heading"
  | .caption => "caption"

def Tone.name : Tone → String
  | .neutral => "neutral"
  | .info => "info"
  | .success => "success"
  | .warning => "warning"
  | .danger => "danger"

def ActionClass.name : ActionClass → String
  | .confirm => "confirm"
  | .approve => "approve"
  | .submit => "submit"
  | .cancel => "cancel"
  | .reject => "reject"
  | .destructive => "destructive"
  | .neutral => "neutral"

def record (fields : List (String × Value)) : Value :=
  .object (sortFields fields)

def optional (key : String) (encode : α → Value) : Option α → List (String × Value)
  | none => []
  | some a => [(key, encode a)]

def KeyValueEntry.toValue (entry : KeyValueEntry) : Value :=
  record [("key", .string entry.key), ("value", .string entry.value)]

def SelectOption.toValue (opt : SelectOption) : Value :=
  record [("value", .string opt.value), ("label", .string opt.label)]

def Provenance.toValue (p : Provenance) : Value :=
  record (optional "execution_id" .string p.executionId ++ optional "activity_id" .string p.activityId
    ++ optional "run_id" .string p.runId ++ optional "model_id" .string p.modelId
    ++ optional "prompt_ref" .string p.promptRef)

mutual

def UiNode.toValue : UiNode → Value
  | .column children => record [("type", .string "column"), ("children", .array (toValues children))]
  | .row children => record [("type", .string "row"), ("children", .array (toValues children))]
  | .card title children =>
    record ([("type", .string "card")] ++ optional "title" .string title
      ++ [("children", .array (toValues children))])
  | .divider => record [("type", .string "divider")]
  | .text text style =>
    record [("type", .string "text"), ("text", .string text), ("style", .string style.name)]
  | .badge text tone =>
    record [("type", .string "badge"), ("text", .string text), ("tone", .string tone.name)]
  | .keyValue entries =>
    record [("type", .string "key_value"), ("entries", .array (entries.map KeyValueEntry.toValue))]
  | .image url alt => record [("type", .string "image"), ("url", .string url), ("alt", .string alt)]
  | .textInput name label placeholder required multiline =>
    record ([("type", .string "text_input"), ("name", .string name), ("label", .string label)]
      ++ optional "placeholder" .string placeholder
      ++ [("required", .bool required), ("multiline", .bool multiline)])
  | .numberInput name label min max required =>
    record ([("type", .string "number_input"), ("name", .string name), ("label", .string label)]
      ++ optional "min" .float min ++ optional "max" .float max ++ [("required", .bool required)])
  | .select name label options required =>
    record [("type", .string "select"), ("name", .string name), ("label", .string label),
      ("options", .array (options.map SelectOption.toValue)), ("required", .bool required)]
  | .checkbox name label checked =>
    record [("type", .string "checkbox"), ("name", .string name), ("label", .string label),
      ("checked", .bool checked)]
  | .button action label actionClass =>
    record [("type", .string "button"), ("action", .string action), ("label", .string label),
      ("class", .string actionClass.name)]

def toValues : List UiNode → List Value
  | [] => []
  | node :: nodes => node.toValue :: toValues nodes

end

namespace UiFrame

def toValue (frame : UiFrame) : Value :=
  record ([("schema_version", .string frame.schemaVersion)] ++ optional "title" .string frame.title
    ++ (if frame.provenance = {} then [] else [("provenance", frame.provenance.toValue)])
    ++ [("root", frame.root.toValue)])

def canonical (fmt : Rat → List Char) (frame : UiFrame) : List Char :=
  render fmt frame.toValue

def contentHash (sha : List UInt8 → List UInt8) (fmt : Rat → List Char) (frame : UiFrame) : String :=
  Bytes.hexLower (sha (Bytes.utf8 (frame.canonical fmt)))

end UiFrame

def sha256Hex (sha : List UInt8 → List UInt8) (text : List Char) : String :=
  Bytes.hexLower (sha (Bytes.utf8 text))

def verifyFrame (sha : List UInt8 → List UInt8) (fmt : Rat → List Char) (frame : Value)
    (expectedHash : String) : Bool :=
  sha256Hex sha (canonicalStringify fmt frame) == expectedHash

def UiNode.bounds : UiNode → List Rat
  | .numberInput _ _ min max _ => min.toList ++ max.toList
  | _ => []

def UiFrame.bounds (frame : UiFrame) : List Rat :=
  frame.nodes.flatMap UiNode.bounds

def Settled (fields : List (String × Value)) : Prop :=
  ∀ f ∈ fields, canonicalize f.2 = f.2

theorem settled_nil : Settled [] := by
  simp [Settled]

theorem settled_cons (key : String) (v : Value) (fields : List (String × Value))
    : Settled ((key, v) :: fields) ↔ canonicalize v = v ∧ Settled fields := by
  simp only [Settled, List.forall_mem_cons]

theorem settled_append (as bs : List (String × Value))
    : Settled (as ++ bs) ↔ Settled as ∧ Settled bs := by
  simp only [Settled, List.forall_mem_append]

theorem settled_optional_string (key : String) (o : Option String)
    : Settled (optional key .string o) := by
  cases o <;> simp [optional, Settled, canonicalize]

theorem settled_optional_float (key : String) (o : Option Rat)
    : Settled (optional key .float o) := by
  cases o <;> simp [optional, Settled, canonicalize]

theorem canonicalize_record {fields : List (String × Value)} (h : Settled fields)
    : canonicalize (record fields) = record fields :=
  canonicalize_object_sortFields h

theorem canonicalize_array_map {encode : α → Value} (h : ∀ a, canonicalize (encode a) = encode a)
    (as : List α) : canonicalize (.array (as.map encode)) = .array (as.map encode) := by
  rw [canonicalize, canonicalizeList_eq_self]
  simp [h]

theorem canonicalize_string (s : String) : canonicalize (.string s) = .string s :=
  rfl

theorem canonicalize_bool (b : Bool) : canonicalize (.bool b) = .bool b :=
  rfl

theorem canonicalize_keyValueEntry (entry : KeyValueEntry)
    : canonicalize entry.toValue = entry.toValue := by
  apply canonicalize_record
  simp [settled_cons, settled_nil, canonicalize_string]

theorem canonicalize_selectOption (opt : SelectOption)
    : canonicalize opt.toValue = opt.toValue := by
  apply canonicalize_record
  simp [settled_cons, settled_nil, canonicalize_string]

theorem canonicalize_provenance (p : Provenance) : canonicalize p.toValue = p.toValue := by
  apply canonicalize_record
  simp [settled_append, settled_optional_string]

mutual

theorem canonicalize_node (node : UiNode) : canonicalize node.toValue = node.toValue := by
  match node with
  | .column children | .row children =>
    apply canonicalize_record
    simp [settled_cons, settled_nil, canonicalize_string, canonicalize_nodes children]
  | .card title children =>
    apply canonicalize_record
    simp [settled_cons, settled_nil, settled_append, settled_optional_string, canonicalize_string,
      canonicalize_nodes children]
  | .divider | .text _ _ | .badge _ _ | .image _ _ | .checkbox _ _ _ | .button _ _ _ =>
    apply canonicalize_record
    simp [settled_cons, settled_nil, canonicalize_string, canonicalize_bool]
  | .keyValue entries =>
    apply canonicalize_record
    simp [settled_cons, settled_nil, canonicalize_string,
      canonicalize_array_map canonicalize_keyValueEntry]
  | .textInput name label placeholder required multiline =>
    apply canonicalize_record
    simp [settled_cons, settled_nil, settled_append, settled_optional_string, canonicalize_string,
      canonicalize_bool]
  | .numberInput name label min max required =>
    apply canonicalize_record
    simp [settled_cons, settled_nil, settled_append, settled_optional_float, canonicalize_string,
      canonicalize_bool]
  | .select name label options required =>
    apply canonicalize_record
    simp [settled_cons, settled_nil, canonicalize_string, canonicalize_bool,
      canonicalize_array_map canonicalize_selectOption]

theorem canonicalize_nodes (nodes : List UiNode)
    : canonicalize (.array (toValues nodes)) = .array (toValues nodes) := by
  match nodes with
  | [] => rfl
  | node :: nodes =>
    have hnodes := canonicalize_nodes nodes
    rw [canonicalize, Value.array.injEq] at hnodes
    rw [toValues, canonicalize, canonicalizeList, canonicalize_node node, hnodes]

end

theorem canonicalize_frame (frame : UiFrame) : canonicalize frame.toValue = frame.toValue := by
  apply canonicalize_record
  split
  . simp [settled_cons, settled_nil, settled_append, settled_optional_string, canonicalize_string,
      canonicalize_node]
  . simp [settled_cons, settled_nil, settled_append, settled_optional_string, canonicalize_string,
      canonicalize_node, canonicalize_provenance]

theorem floats_record (fields : List (String × Value))
    : (floats (record fields)).Perm (floatsFields fields) :=
  floats_sortFields fields

theorem floatsFields_append (as bs : List (String × Value))
    : floatsFields (as ++ bs) = floatsFields as ++ floatsFields bs := by
  simp [floatsFields_eq_flatMap]

theorem floatsFields_optional_string (key : String) (o : Option String)
    : floatsFields (optional key .string o) = [] := by
  cases o <;> rfl

theorem floatsFields_optional_float (key : String) (o : Option Rat)
    : floatsFields (optional key .float o) = o.toList := by
  cases o <;> rfl

theorem floatsList_map {encode : α → Value} (h : ∀ a, floats (encode a) = []) (as : List α)
    : floatsList (as.map encode) = [] := by
  induction as with
  | nil => rfl
  | cons a as ih => rw [List.map_cons, floatsList, h, ih, List.append_nil]

theorem floats_record_eq_nil {fields : List (String × Value)} (h : floatsFields fields = [])
    : floats (record fields) = [] := by
  have hperm := floats_record fields
  rw [h] at hperm
  exact hperm.eq_nil

theorem floats_keyValueEntry (entry : KeyValueEntry) : floats entry.toValue = [] := by
  apply floats_record_eq_nil
  rfl

theorem floats_selectOption (opt : SelectOption) : floats opt.toValue = [] := by
  apply floats_record_eq_nil
  rfl

theorem floats_provenance (p : Provenance) : floats p.toValue = [] := by
  apply floats_record_eq_nil
  simp only [floatsFields_append, floatsFields_optional_string, List.append_nil]

mutual

theorem floats_node (node : UiNode)
    : (floats node.toValue).Perm ((collect node).flatMap UiNode.bounds) := by
  match node with
  | .column children | .row children =>
    apply (floats_record _).trans
    simpa [floatsFields, collect, UiNode.bounds, floats] using floats_nodes children
  | .card title children =>
    apply (floats_record _).trans
    simpa [floatsFields_append, floatsFields_optional_string, floatsFields, collect, UiNode.bounds,
      floats] using floats_nodes children
  | .divider | .text _ _ | .badge _ _ | .image _ _ | .checkbox _ _ _ | .button _ _ _ =>
    apply (floats_record _).trans
    rfl
  | .keyValue entries =>
    apply (floats_record _).trans
    simp [floatsFields, floatsList_map floats_keyValueEntry, collect, UiNode.bounds, floats]
  | .textInput name label placeholder required multiline =>
    apply (floats_record _).trans
    simp [floatsFields_append, floatsFields_optional_string, floatsFields, collect, UiNode.bounds,
      floats]
  | .numberInput name label min max required =>
    apply (floats_record _).trans
    simp [floatsFields_append, floatsFields_optional_float, floatsFields, collect, UiNode.bounds,
      floats]
  | .select name label options required =>
    apply (floats_record _).trans
    simp [floatsFields, floatsList_map floats_selectOption, collect, UiNode.bounds, floats]

theorem floats_nodes (nodes : List UiNode)
    : (floatsList (toValues nodes)).Perm ((collectAll nodes).flatMap UiNode.bounds) := by
  match nodes with
  | [] => rfl
  | node :: nodes =>
    rw [toValues, floatsList, collectAll, List.flatMap_append]
    exact (floats_node node).append (floats_nodes nodes)

end

theorem floats_frame (frame : UiFrame) : (floats frame.toValue).Perm frame.bounds := by
  apply (floats_record _).trans
  have hprovenance : floatsFields
      (if frame.provenance = {} then [] else [("provenance", frame.provenance.toValue)]) = [] := by
    split
    . rfl
    . simp [floatsFields, floats_provenance]
  simpa [floatsFields_append, floatsFields_optional_string, hprovenance, floatsFields, floats,
    UiFrame.bounds, UiFrame.nodes] using floats_node frame.root

section

variable {rustFmt jsFmt : Rat → List Char}

theorem canonical_eq_iff
    (hrust : ∀ n : Int, |n| < 2 ^ 53 → rustFmt n = renderInt n ++ ['.', '0'])
    (hjs : ∀ n : Int, |n| < 2 ^ 53 → jsFmt n = renderInt n) (frame : UiFrame)
    (hbounds : ∀ q ∈ frame.bounds, ∃ n : Int, |n| < 2 ^ 53 ∧ q = n)
    : frame.canonical rustFmt = frame.canonical jsFmt ↔ frame.bounds = [] := by
  have hperm := floats_frame frame
  have hlength : (frame.canonical rustFmt).length
      = (frame.canonical jsFmt).length + 2 * (floats frame.toValue).length := by
    apply length_render
    intro q hq
    obtain ⟨n, hn, rfl⟩ := hbounds q (hperm.mem_iff.mp hq)
    simp [hrust n hn, hjs n hn]
  constructor
  . intro heq
    rw [heq] at hlength
    have hnil : floats frame.toValue = [] := by
      apply List.eq_nil_of_length_eq_zero
      omega
    rw [hnil] at hperm
    exact hperm.nil_eq.symm
  . intro hnil
    rw [hnil] at hperm
    apply render_congr
    simp [hperm.eq_nil]

theorem verifyFrame_iff (sha : List UInt8 → List UInt8) (frame : UiFrame)
    : verifyFrame sha jsFmt frame.toValue (frame.contentHash sha rustFmt) = true
        ↔
      sha (Bytes.utf8 (frame.canonical rustFmt)) = sha (Bytes.utf8 (frame.canonical jsFmt)) := by
  unfold verifyFrame sha256Hex UiFrame.contentHash canonicalStringify
  rw [canonicalize_frame, beq_iff_eq, (Bytes.hexLower_injective).eq_iff, eq_comm]
  rfl

-- SHA-256 does not take the two texts of a frame, where these differ, to one digest.
def CollisionFree (sha : List UInt8 → List UInt8) (rustFmt jsFmt : Rat → List Char)
    (frame : UiFrame) : Prop :=
  sha (Bytes.utf8 (frame.canonical rustFmt)) = sha (Bytes.utf8 (frame.canonical jsFmt))
    →
  Bytes.utf8 (frame.canonical rustFmt) = Bytes.utf8 (frame.canonical jsFmt)

theorem verifyFrame_contentHash_iff (sha : List UInt8 → List UInt8)
    (hrust : ∀ n : Int, |n| < 2 ^ 53 → rustFmt n = renderInt n ++ ['.', '0'])
    (hjs : ∀ n : Int, |n| < 2 ^ 53 → jsFmt n = renderInt n) (frame : UiFrame)
    (hsha : CollisionFree sha rustFmt jsFmt frame) (_hvalid : frame.validate = .ok ())
    (hbounds : ∀ q ∈ frame.bounds, ∃ n : Int, |n| < 2 ^ 53 ∧ q = n)
    : verifyFrame sha jsFmt frame.toValue (frame.contentHash sha rustFmt) = true
        ↔
      frame.bounds = [] := by
  rw [verifyFrame_iff, ← canonical_eq_iff hrust hjs frame hbounds]
  constructor
  . intro h
    exact Bytes.utf8_injective (hsha h)
  . intro h
    rw [h]

end

def writeRust (q : Rat) : List Char :=
  renderInt q.num ++ ['.', '0']

def writeJs (q : Rat) : List Char :=
  renderInt q.num

def quantityFrame (min max : Option Rat) : UiFrame where
  schemaVersion := "1.0.0"
  title := none
  provenance := {}
  root := .column [.numberInput "qty" "Quantity" min max true, .button "order" "Order" .submit]

theorem verifyFrame_unbounded
    : (quantityFrame none none).validate = .ok ()
        ∧
      (∀ n : Int, |n| < 2 ^ 53 → writeRust n = renderInt n ++ ['.', '0'])
        ∧
      verifyFrame id writeJs (quantityFrame none none).toValue
        ((quantityFrame none none).contentHash id writeRust) = true := by
  refine ⟨by decide, fun _ _ => rfl, ?_⟩
  rw [verifyFrame_contentHash_iff id (fun _ _ => rfl) (fun _ _ => rfl) _ (fun h => h)
    (by decide)]
  . decide
  . intro q hq
    simp [UiFrame.bounds, UiFrame.nodes, quantityFrame, collect, collectAll, UiNode.bounds] at hq

theorem not_verifyFrame_bounded
    : (quantityFrame (some 1) (some 10)).validate = .ok ()
        ∧
      (∀ q ∈ (quantityFrame (some 1) (some 10)).bounds, ∃ n : Int, |n| < 2 ^ 53 ∧ q = n)
        ∧
      ∀ sha, CollisionFree sha writeRust writeJs (quantityFrame (some 1) (some 10)) →
        verifyFrame sha writeJs (quantityFrame (some 1) (some 10)).toValue
          ((quantityFrame (some 1) (some 10)).contentHash sha writeRust) = false := by
  have hbounds : ∀ q ∈ (quantityFrame (some 1) (some 10)).bounds, ∃ n : Int, |n| < 2 ^ 53 ∧ q = n := by
    intro q hq
    simp [UiFrame.bounds, UiFrame.nodes, quantityFrame, collect, collectAll, UiNode.bounds] at hq
    rcases hq with rfl | rfl
    . exact ⟨1, by norm_num⟩
    . exact ⟨10, by norm_num⟩
  refine ⟨by decide, hbounds, ?_⟩
  intro sha hsha
  rw [Bool.eq_false_iff, ne_eq, verifyFrame_iff]
  intro h
  have htexts := Bytes.utf8_injective (hsha h)
  rw [canonical_eq_iff (fun _ _ => rfl) (fun _ _ => rfl) _ hbounds] at htexts
  cases htexts

end Wovyr.Ui
