import Mathlib.Data.List.Nodup
import Wovyr.Ui.Soundness

/-!
This module contains which trees the validation accepts: its three accumulators hold the number of the nodes,
the names of the inputs and the ids of the actions that `collect` lists.
-/

namespace Wovyr.Ui

open Seen

def SelectOption.Proper (option : SelectOption) : Prop :=
  option.value ≠ "" ∧ option.label ≠ ""

-- The constraints of a node on itself. A bound comes from a JSON number, so it is never a NaN.
def UiNode.Proper : UiNode → Prop
  | .column _ | .row _ | .card _ _ | .divider => True
  | .text content _ | .badge content _ => content ≠ ""
  | .keyValue entries => entries ≠ []
  | .image url alt => url ≠ "" ∧ alt ≠ ""
  | .textInput name label _ _ _ | .checkbox name label _ => name ≠ "" ∧ label ≠ ""
  | .numberInput name label min max _ =>
    (name ≠ "" ∧ label ≠ "") ∧ ∀ lower ∈ min, ∀ upper ∈ max, lower ≤ upper
  | .select name label options _ =>
    (name ≠ "" ∧ label ≠ "")
      ∧ options ≠ []
      ∧ (∀ option ∈ options, option.Proper)
      ∧ (options.map SelectOption.value).Nodup
  | .button action label _ => action ≠ "" ∧ label ≠ ""

namespace Seen

def extend (seen : Seen) (nodes : List UiNode) : Seen where
  count := seen.count + nodes.length
  inputNames := seen.inputNames ++ (nodes.filterMap UiNode.input?).map Prod.fst
  actionIds := seen.actionIds ++ (nodes.filterMap UiNode.button?).map Prod.fst

structure Fits (seen : Seen) : Prop where
  count : seen.count ≤ maxNodes
  inputNames : seen.inputNames.Nodup
  actionIds : seen.actionIds.Nodup

@[simp]
theorem extend_nil (seen : Seen) : seen.extend [] = seen := by
  simp [extend]

theorem extend_append (seen : Seen) (as bs : List UiNode)
    : seen.extend (as ++ bs) = (seen.extend as).extend bs := by
  simp [extend, Nat.add_assoc]

theorem Fits.of_extend {seen : Seen} {nodes : List UiNode} (h : (seen.extend nodes).Fits)
    : seen.Fits where
  count := by
    have := h.count
    simp only [extend] at this
    omega
  inputNames := h.inputNames.of_append_left
  actionIds := h.actionIds.of_append_left

theorem fits_empty : ({} : Seen).Fits where
  count := by simp
  inputNames := List.nodup_nil
  actionIds := List.nodup_nil

end Seen

theorem nodup_concat {α : Type} {xs : List α} {x : α} (h : xs.Nodup)
    : (xs ++ [x]).Nodup ↔ x ∉ xs := by
  simp only [List.nodup_append', h, List.nodup_singleton, true_and, List.disjoint_singleton]

theorem if_error_eq_ok {p : Prop} [Decidable p] {e : Error} {x : Except Error α} {a : α}
    : (if p then .error e else x) = .ok a ↔ ¬p ∧ x = .ok a := by
  split <;> simp_all

theorem checkOptions_eq_ok {name : String} {seen : List String} {options : List SelectOption}
    (hseen : seen.Nodup)
    : checkOptions name seen options = .ok ()
        ↔
      (∀ option ∈ options, option.Proper) ∧ (seen ++ options.map SelectOption.value).Nodup := by
  induction options generalizing seen with
  | nil => simp [checkOptions, hseen]
  | cons option options ih =>
    rw [checkOptions, List.forall_mem_cons, List.map_cons]
    split
    . next hempty =>
      simp only [reduceCtorEq, false_iff]
      intro h
      have hproper := h.1.1
      simp only [SelectOption.Proper] at hproper
      tauto
    . next hproper =>
      split
      . next hmem =>
        simp only [reduceCtorEq, false_iff]
        intro h
        have hdisjoint := (List.nodup_append'.mp h.2).2.2
        exact hdisjoint hmem List.mem_cons_self
      . next hmem =>
        have hseen' : (seen ++ [option.value]).Nodup := (nodup_concat hseen).mpr hmem
        rw [ih hseen', List.append_assoc, List.singleton_append]
        simp [SelectOption.Proper, not_or.mp hproper]

theorem registerInput_eq_ok_iff {seen seen' : Seen} {name label : String}
    : registerInput seen name label = .ok seen'
        ↔
      (name ≠ "" ∧ label ≠ "")
        ∧ name ∉ seen.inputNames
        ∧ seen' = { seen with inputNames := seen.inputNames ++ [name] } := by
  unfold registerInput
  split
  . simp only [reduceCtorEq, false_iff]
    tauto
  . split
    . simp only [reduceCtorEq, false_iff]
      tauto
    . simp only [Except.ok.injEq]
      tauto

theorem registerAction_eq_ok_iff {seen seen' : Seen} {action label : String}
    : registerAction seen action label = .ok seen'
        ↔
      (action ≠ "" ∧ label ≠ "")
        ∧ action ∉ seen.actionIds
        ∧ seen' = { seen with actionIds := seen.actionIds ++ [action] } := by
  unfold registerAction
  split
  . simp only [reduceCtorEq, false_iff]
    tauto
  . split
    . simp only [reduceCtorEq, false_iff]
      tauto
    . simp only [Except.ok.injEq]
      tauto

section

variable {seen seen' : Seen} {node : UiNode} (hseen : seen.Fits) (hcount : seen.count < maxNodes)
include hseen hcount

theorem fits_plain (hinput : node.input? = none) (hbutton : node.button? = none)
    : (seen.extend [node]).Fits ∧ seen.extend [node] = seen.counted := by
  constructor
  . constructor
    . exact hcount
    . simpa [extend, hinput] using hseen.inputNames
    . simpa [extend, hbutton] using hseen.actionIds
  . simp [extend, counted, hinput, hbutton]

theorem fits_input {name label : String} (hinput : node.input? = some (name, label))
    (hbutton : node.button? = none)
    : ((seen.extend [node]).Fits ↔ name ∉ seen.inputNames)
        ∧
      seen.extend [node] = { seen.counted with inputNames := seen.inputNames ++ [name] } := by
  constructor
  . constructor
    . intro h
      rw [← nodup_concat hseen.inputNames]
      simpa [extend, hinput] using h.inputNames
    . intro hmem
      constructor
      . exact hcount
      . simpa [extend, hinput] using (nodup_concat hseen.inputNames).mpr hmem
      . simpa [extend, hbutton] using hseen.actionIds
  . simp [extend, counted, hinput, hbutton]

theorem fits_button {action label : String} {actionClass : ActionClass}
    (hinput : node.input? = none) (hbutton : node.button? = some (action, label, actionClass))
    : ((seen.extend [node]).Fits ↔ action ∉ seen.actionIds)
        ∧
      seen.extend [node] = { seen.counted with actionIds := seen.actionIds ++ [action] } := by
  constructor
  . constructor
    . intro h
      rw [← nodup_concat hseen.actionIds]
      simpa [extend, hbutton] using h.actionIds
    . intro hmem
      constructor
      . exact hcount
      . simpa [extend, hinput] using hseen.inputNames
      . simpa [extend, hbutton] using (nodup_concat hseen.actionIds).mpr hmem
  . simp [extend, counted, hinput, hbutton]

theorem validate_plain (hinput : node.input? = none) (hbutton : node.button? = none)
    : seen.counted = seen' ↔ (seen.extend [node]).Fits ∧ seen' = seen.extend [node] := by
  obtain ⟨hfits, heq⟩ := fits_plain hseen hcount hinput hbutton
  rw [heq] at hfits ⊢
  simp [hfits, eq_comm]

theorem validate_input {name label : String} (hinput : node.input? = some (name, label))
    (hbutton : node.button? = none)
    : registerInput seen.counted name label = .ok seen'
        ↔
      (name ≠ "" ∧ label ≠ "") ∧ (seen.extend [node]).Fits ∧ seen' = seen.extend [node] := by
  obtain ⟨hfits, heq⟩ := fits_input hseen hcount hinput hbutton
  rw [registerInput_eq_ok_iff, hfits, heq]
  rfl

theorem validate_input_bind {name label : String} {rest : Seen → Except Error Seen} {p : Prop}
    (hinput : node.input? = some (name, label)) (hbutton : node.button? = none)
    (hrest : ∀ s s', rest s = .ok s' ↔ p ∧ s' = s)
    : (registerInput seen.counted name label >>= rest) = .ok seen'
        ↔
      ((name ≠ "" ∧ label ≠ "") ∧ p) ∧ (seen.extend [node]).Fits ∧ seen' = seen.extend [node] := by
  simp only [bind_eq_ok, validate_input hseen hcount hinput hbutton, hrest]
  constructor
  . rintro ⟨_, ⟨hne, hfits, rfl⟩, hp, rfl⟩
    exact ⟨⟨hne, hp⟩, hfits, rfl⟩
  . rintro ⟨⟨hne, hp⟩, hfits, rfl⟩
    exact ⟨_, ⟨hne, hfits, rfl⟩, hp, rfl⟩

theorem validateLeaf_eq_ok_iff
    (hleaf : ∀ children, node ≠ .column children ∧ node ≠ .row children)
    (hcard : ∀ title children, node ≠ .card title children)
    : validateLeaf seen.counted node = .ok seen'
        ↔
      node.Proper ∧ (seen.extend [node]).Fits ∧ seen' = seen.extend [node] := by
  cases node with
  | column children => exact absurd rfl (hleaf children).1
  | row children => exact absurd rfl (hleaf children).2
  | card title children => exact absurd rfl (hcard title children)
  | divider =>
    rw [validateLeaf, Except.ok.injEq, UiNode.Proper, true_and]
    exact validate_plain hseen hcount rfl rfl
  | text text style | badge text tone | keyValue entries =>
    rw [validateLeaf, if_error_eq_ok, Except.ok.injEq, UiNode.Proper]
    exact and_congr_right fun _ => validate_plain hseen hcount rfl rfl
  | image url alt =>
    rw [validateLeaf, if_error_eq_ok, if_error_eq_ok, Except.ok.injEq, UiNode.Proper, and_assoc]
    exact and_congr_right fun _ => and_congr_right fun _ => validate_plain hseen hcount rfl rfl
  | textInput name label placeholder required multiline =>
    exact validate_input hseen hcount rfl rfl
  | checkbox name label checked => exact validate_input hseen hcount rfl rfl
  | numberInput name label min max required =>
    apply validate_input_bind hseen hcount rfl rfl
    intro s s'
    cases min with
    | none => simp [pure, Except.pure, eq_comm]
    | some lower =>
      cases max with
      | none => simp [pure, Except.pure, eq_comm]
      | some upper =>
        simp only [throw, throwThe, MonadExceptOf.throw, pure, Except.pure, if_error_eq_ok]
        simp [Rat.not_lt, eq_comm]
  | select name label options required =>
    apply validate_input_bind hseen hcount rfl rfl
    intro s s'
    have hoptions := @checkOptions_eq_ok name [] options List.nodup_nil
    rw [List.nil_append] at hoptions
    rw [← hoptions]
    cases options with
    | nil => simp [throw, throwThe, MonadExceptOf.throw, bind, Except.bind]
    | cons option options =>
      rw [if_neg (List.cons_ne_nil option options)]
      cases checkOptions name [] (option :: options) <;>
        simp [bind, Except.bind, pure, Except.pure, eq_comm]
  | button action label actionClass =>
    obtain ⟨hfits, heq⟩ := @fits_button _ (.button action label actionClass) hseen hcount _ _ _ rfl rfl
    rw [validateLeaf, hfits, heq]
    exact registerAction_eq_ok_iff

end

theorem validateNodes_cons {d : Nat} {seen seen' : Seen} {node : UiNode} {nodes : List UiNode}
    : validateNodes d seen (node :: nodes) = .ok seen'
        ↔
      ∃ met, validateNode d seen node = .ok met ∧ validateNodes d met nodes = .ok seen' := by
  rw [validateNodes]
  cases validateNode d seen node <;> simp

theorem fits_container {d : Nat} {seen seen' : Seen} {node : UiNode} {children : List UiNode}
    (hseen : seen.Fits) (hcollect : collect node = node :: collectAll children)
    (hdepth : depth node = 1 + maxDepthOf children) (hproper : node.Proper)
    (hinput : node.input? = none) (hbutton : node.button? = none)
    (h : ∀ met : Seen, met.Fits → d + 1 ≤ maxDepth + 1 →
      (validateNodes (d + 1) met children = .ok seen'
          ↔
        (d + 1) + maxDepthOf children ≤ maxDepth + 1
          ∧ (∀ n ∈ collectAll children, n.Proper)
          ∧ (met.extend (collectAll children)).Fits
          ∧ seen' = met.extend (collectAll children)))
    : (seen.count < maxNodes ∧ d ≤ maxDepth) ∧ validateNodes (d + 1) seen.counted children = .ok seen'
        ↔
      d + depth node ≤ maxDepth + 1
        ∧ (∀ n ∈ collect node, n.Proper)
        ∧ (seen.extend (collect node)).Fits
        ∧ seen' = seen.extend (collect node) := by
  have happend : seen.extend (collect node) = (seen.extend [node]).extend (collectAll children) := by
    rw [hcollect, ← extend_append, List.singleton_append]
  rw [happend, hcollect, List.forall_mem_cons, hdepth]
  constructor
  . rintro ⟨⟨hcount, hd⟩, hchildren⟩
    obtain ⟨hfits, heq⟩ := fits_plain hseen hcount hinput hbutton
    rw [heq] at hfits ⊢
    obtain ⟨hdeep, hall, hfits', heq'⟩ := (h _ hfits (by omega)).mp hchildren
    exact ⟨by omega, ⟨hproper, hall⟩, hfits', heq'⟩
  . rintro ⟨hdeep, ⟨-, hall⟩, hfits', heq'⟩
    have hcount : seen.count < maxNodes := by
      have := hfits'.of_extend.count
      simp only [extend, List.length_singleton] at this
      omega
    obtain ⟨hfits, heq⟩ := fits_plain hseen hcount hinput hbutton
    rw [heq] at hfits hfits' heq'
    exact ⟨⟨hcount, by omega⟩, (h _ hfits (by omega)).mpr ⟨by omega, hall, hfits', heq'⟩⟩

theorem fits_leaf {d : Nat} {seen seen' : Seen} {node : UiNode} (hseen : seen.Fits)
    (hleaf : ∀ children, node ≠ .column children ∧ node ≠ .row children)
    (hcard : ∀ title children, node ≠ .card title children) (hcollect : collect node = [node])
    (hdepth : depth node = 1)
    : (seen.count < maxNodes ∧ d ≤ maxDepth) ∧ validateLeaf seen.counted node = .ok seen'
        ↔
      d + depth node ≤ maxDepth + 1
        ∧ (∀ n ∈ collect node, n.Proper)
        ∧ (seen.extend (collect node)).Fits
        ∧ seen' = seen.extend (collect node) := by
  rw [hcollect, hdepth, List.forall_mem_singleton]
  constructor
  . rintro ⟨⟨hcount, hd⟩, hvalid⟩
    exact ⟨by omega, (validateLeaf_eq_ok_iff hseen hcount hleaf hcard).mp hvalid⟩
  . rintro ⟨hd, hvalid⟩
    have hcount : seen.count < maxNodes := by
      have := hvalid.2.1.count
      simp only [extend, List.length_singleton] at this
      omega
    exact ⟨⟨hcount, by omega⟩, (validateLeaf_eq_ok_iff hseen hcount hleaf hcard).mpr hvalid⟩

mutual

theorem validateNode_eq_ok_iff (d : Nat) (seen seen' : Seen) (node : UiNode) (hseen : seen.Fits)
    : validateNode d seen node = .ok seen'
        ↔
      d + depth node ≤ maxDepth + 1
        ∧ (∀ n ∈ collect node, n.Proper)
        ∧ (seen.extend (collect node)).Fits
        ∧ seen' = seen.extend (collect node) := by
  rw [validateNode_eq_ok]
  match node with
  | .column children | .row children | .card _ children =>
    apply fits_container hseen (by rw [collect]) (by rw [depth]) (by simp [UiNode.Proper]) rfl rfl
    intro met hmet hd
    exact validateNodes_eq_ok_iff (d + 1) met seen' children hmet hd
  | .divider | .text _ _ | .badge _ _ | .keyValue _ | .image _ _ | .textInput _ _ _ _ _
  | .numberInput _ _ _ _ _ | .select _ _ _ _ | .checkbox _ _ _ | .button _ _ _ =>
    exact fits_leaf hseen (by simp) (by simp) rfl rfl

theorem validateNodes_eq_ok_iff (d : Nat) (seen seen' : Seen) (nodes : List UiNode) (hseen : seen.Fits)
    (hd : d ≤ maxDepth + 1)
    : validateNodes d seen nodes = .ok seen'
        ↔
      d + maxDepthOf nodes ≤ maxDepth + 1
        ∧ (∀ n ∈ collectAll nodes, n.Proper)
        ∧ (seen.extend (collectAll nodes)).Fits
        ∧ seen' = seen.extend (collectAll nodes) := by
  match nodes with
  | [] =>
    simp [validateNodes, maxDepthOf, collectAll, hseen, hd, eq_comm]
  | node :: nodes =>
    rw [validateNodes_cons, collectAll, maxDepthOf, extend_append, List.forall_mem_append]
    constructor
    . rintro ⟨met, hnode, hnodes⟩
      obtain ⟨hdeep, hproper, hfits, rfl⟩ := (validateNode_eq_ok_iff d seen met node hseen).mp hnode
      obtain ⟨hdeep', hproper', hfits', heq⟩ :=
        (validateNodes_eq_ok_iff d _ seen' nodes hfits hd).mp hnodes
      exact ⟨by omega, ⟨hproper, hproper'⟩, hfits', heq⟩
    . rintro ⟨hdeep, ⟨hproper, hproper'⟩, hfits', heq⟩
      have hfits := hfits'.of_extend
      refine ⟨seen.extend (collect node), ?_, ?_⟩
      . exact (validateNode_eq_ok_iff d seen _ node hseen).mpr ⟨by omega, hproper, hfits, rfl⟩
      . exact (validateNodes_eq_ok_iff d _ seen' nodes hfits hd).mpr
          ⟨by omega, hproper', hfits', heq⟩

end

namespace UiFrame

structure Proper (frame : UiFrame) : Prop where
  nodes : frame.nodes.length ≤ maxNodes
  depth : frameDepth frame ≤ maxDepth
  leaves : ∀ node ∈ frame.nodes, node.Proper
  inputNames : (frame.inputs.map Prod.fst).Nodup
  named : ∀ input ∈ frame.inputs, input.1 ≠ ""
  actionIds : (frame.actions.map Prod.fst).Nodup
  identified : ∀ button ∈ frame.actions, button.1 ≠ ""
  submit : frame.inputs ≠ [] → frame.actions ≠ []

theorem named_of_proper {frame : UiFrame} (h : ∀ node ∈ frame.nodes, node.Proper)
    : ∀ input ∈ frame.inputs, input.1 ≠ "" ∧ input.2 ≠ "" := by
  intro input hinput
  obtain ⟨node, hnode, hnode'⟩ := (mem_inputs).mp hinput
  have hproper := h node hnode
  cases node <;> cases hnode'
  . exact hproper
  . exact hproper.1
  . exact hproper.1
  . exact hproper

theorem identified_of_proper {frame : UiFrame} (h : ∀ node ∈ frame.nodes, node.Proper)
    : ∀ button ∈ frame.actions, button.1 ≠ "" ∧ button.2.1 ≠ "" := by
  intro button hbutton
  obtain ⟨node, hnode, hnode'⟩ := (mem_actions).mp hbutton
  have hproper := h node hnode
  cases node <;> cases hnode'
  exact hproper

theorem validateNode_root {frame : UiFrame} {seen : Seen}
    : validateNode 1 {} frame.root = .ok seen
        ↔
      frameDepth frame ≤ maxDepth
        ∧ (∀ node ∈ frame.nodes, node.Proper)
        ∧ (extend {} frame.nodes).Fits
        ∧ seen = extend {} frame.nodes := by
  rw [validateNode_eq_ok_iff 1 {} seen frame.root fits_empty]
  apply and_congr_left
  intro _
  simp only [frameDepth]
  omega

theorem proper_of_validate {frame : UiFrame} (h : frame.validate = .ok ()) : frame.Proper := by
  obtain ⟨-, seen, hseen, -⟩ := validate_eq_ok h
  obtain ⟨hdepth, hleaves, hfits, rfl⟩ := (validateNode_root).mp hseen
  constructor
  . simpa [extend] using hfits.count
  . exact hdepth
  . exact hleaves
  . simpa [extend, UiFrame.inputs] using hfits.inputNames
  . intro input hinput
    exact (named_of_proper hleaves input hinput).1
  . simpa [extend, UiFrame.actions] using hfits.actionIds
  . intro button hbutton
    exact (identified_of_proper hleaves button hbutton).1
  . exact actions_ne_nil_of_validate h

theorem validate_of_proper {frame : UiFrame}
    (hversion : ensureVersionSupported frame.schemaVersion = .ok ()) (h : frame.Proper)
    : frame.validate = .ok () := by
  have hfits : (extend {} frame.nodes).Fits := by
    constructor
    . simpa [extend] using h.nodes
    . simpa [extend, UiFrame.inputs] using h.inputNames
    . simpa [extend, UiFrame.actions] using h.actionIds
  have hseen := (validateNode_root).mpr ⟨h.depth, h.leaves, hfits, rfl⟩
  apply validate_of_validateNode hversion hseen
  have hsubmit := h.submit
  simpa [extend, UiFrame.inputs, UiFrame.actions] using hsubmit

theorem validate_exact (frame : UiFrame)
    : (frame.validate = .ok () ↔ ensureVersionSupported frame.schemaVersion = .ok () ∧ frame.Proper)
        ∧
      ∀ seen, validateNode 1 {} frame.root = .ok seen →
        seen.count = frame.nodes.length ∧ frameDepth frame ≤ maxDepth := by
  constructor
  . constructor
    . intro h
      exact ⟨(validate_eq_ok h).1, proper_of_validate h⟩
    . rintro ⟨hversion, h⟩
      exact validate_of_proper hversion h
  . intro seen hseen
    obtain ⟨hdepth, -, -, rfl⟩ := (validateNode_root).mp hseen
    exact ⟨by simp [extend], hdepth⟩

end Wovyr.Ui.UiFrame
