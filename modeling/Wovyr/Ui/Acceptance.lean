import Wovyr.Ui.Decision
import Wovyr.Ui.Validation

/-!
This module contains which decisions a valid frame accepts.
-/

namespace Wovyr.Ui

open UiNode Std.ExtTreeMap

section

variable (f64 : Float64)

-- The type and the bounds of a value, without the question whether an input is required.
def UiNode.Meets : UiNode → Value → Prop
  | .textInput _ _ _ _ _, value => ∃ content, value = .string content
  | .numberInput _ _ min max _, value =>
    ∃ n, asF64 f64 value = some n ∧ (∀ lower ∈ min, lower ≤ n) ∧ ∀ upper ∈ max, n ≤ upper
  | .select _ _ options _, value => ∃ option ∈ options, value = .string option.value
  | .checkbox _ _ _, value => ∃ checked, value = .bool checked
  | _, _ => False

end

-- A required text is supplied by a text that is not empty.
def UiNode.Supplied (values : Std.ExtTreeMap String Value) : UiNode → Prop
  | .textInput name _ _ true _ => ∃ content, content ≠ "" ∧ values[name]? = some (.string content)
  | .numberInput name _ _ _ true | .select name _ _ true => name ∈ values
  | _ => True

-- What a renderer holds for an input that nobody touched, a number input holds nothing.
def UiNode.Untouched : UiNode → Value → Prop
  | .textInput _ _ _ _ _, value | .select _ _ _ _, value => value = .string ""
  | .checkbox _ _ _, value => ∃ checked, value = .bool checked
  | _, _ => False

def UiNode.requiresText : UiNode → Bool
  | .textInput _ _ _ required _ => required
  | _ => false

-- The inputs for which the value of an untouched form is refused.
def UiNode.refusesEmpty : UiNode → Bool
  | .textInput _ _ _ required _ => required
  | .select _ _ _ _ => true
  | _ => false

def UiFrame.Declares (frame : UiFrame) (name : String) (input : UiNode) : Prop :=
  input ∈ frame.nodes ∧ ∃ label, input.input? = some (name, label)

structure Complete (f64 : Float64) (frame : UiFrame) (values : Std.ExtTreeMap String Value)
    : Prop where
  meets : ∀ name value, values[name]? = some value →
    ∃ input, frame.Declares name input ∧ input.Meets f64 value
  supplied : ∀ node ∈ frame.nodes, node.Supplied values

def UiFrame.UntouchedForm (frame : UiFrame) (values : Std.ExtTreeMap String Value) : Prop :=
  ∀ name value, values[name]? = some value →
    ∃ input, frame.Declares name input ∧ input.Untouched value

theorem find?_eq_of_nodup {α : Type} {f : α → Option String} {xs : List α} {x : α} {name : String}
    (hnodup : (xs.filterMap f).Nodup) (hmem : x ∈ xs) (hname : f x = some name)
    : xs.find? (fun y => f y == some name) = some x := by
  induction xs with
  | nil => cases hmem
  | cons y xs ih =>
    rw [List.find?_cons]
    rcases List.mem_cons.mp hmem with rfl | hmem
    . simp [hname]
    . cases hy : f y with
      | none =>
        rw [List.filterMap_cons_none hy] at hnodup
        simpa using ih hnodup hmem
      | some other =>
        rw [List.filterMap_cons_some hy, List.nodup_cons] at hnodup
        have hne : other ≠ name := by
          rintro rfl
          exact hnodup.1 (List.mem_filterMap.mpr ⟨x, hmem, hname⟩)
        simpa [beq_false_of_ne hne, hy] using ih hnodup.2 hmem

theorem findInput_eq_some {frame : UiFrame} (hnames : (frame.inputs.map Prod.fst).Nodup)
    {name : String} {input : UiNode}
    : findInput frame name = some input ↔ frame.Declares name input := by
  constructor
  . intro h
    have hname := List.find?_some h
    simp only [beq_iff_eq, Option.map_eq_some_iff, Prod.exists, exists_and_right, exists_eq_right]
      at hname
    exact ⟨List.mem_of_find?_eq_some h, hname⟩
  . rintro ⟨hmem, label, hinput⟩
    apply @find?_eq_of_nodup _ (fun node => node.input?.map Prod.fst) frame.nodes
    . rwa [UiFrame.inputs, List.map_filterMap] at hnames
    . exact hmem
    . rw [hinput]
      rfl

theorem findAction_eq_some {frame : UiFrame} (hids : (frame.actions.map Prod.fst).Nodup)
    {action : String × String × ActionClass} (h : action ∈ frame.actions)
    : frame.actions.find? (fun a => a.1 == action.1) = some action := by
  have := @find?_eq_of_nodup _ (fun a : String × String × ActionClass => some a.1) frame.actions action
    action.1 (by simpa [List.filterMap_eq_map'] using hids) h rfl
  simpa using this

theorem seq_eq_ok {ε α : Type} {x : Except ε Unit} {f : Unit → Except ε α} {a : α}
    : (x >>= f) = .ok a ↔ x = .ok () ∧ f () = .ok a := by
  cases x <;> simp [bind, Except.bind]

section

variable (f64 : Float64)

theorem checkMinimum_eq_ok {name : String} {n : Rat} {min : Option Rat}
    : checkMinimum f64 name n min = .ok () ↔ ∀ lower ∈ min, lower ≤ n := by
  cases min with
  | none => simp [checkMinimum]
  | some lower =>
    rw [checkMinimum, if_error_eq_ok]
    simp [Rat.not_lt]

theorem checkMaximum_eq_ok {name : String} {n : Rat} {max : Option Rat}
    : checkMaximum f64 name n max = .ok () ↔ ∀ upper ∈ max, n ≤ upper := by
  cases max with
  | none => simp [checkMaximum]
  | some upper =>
    rw [checkMaximum, if_error_eq_ok]
    simp [Rat.not_lt]

theorem checkValue_eq_ok {input : UiNode} {name : String} {value : Value}
    : checkValue f64 input name value = .ok ()
        ↔
      input.Meets f64 value ∧ (input.requiresText = true → value ≠ .string "") := by
  cases input with
  | textInput _ _ _ required _ =>
    cases value with
    | string content =>
      simp only [checkValue, if_error_eq_ok, Meets, requiresText]
      simp
    | _ => simp [checkValue, Meets]
  | numberInput _ _ min max _ =>
    simp only [checkValue, Meets, requiresText]
    cases asF64 f64 value with
    | none => simp
    | some n => simp [seq_eq_ok, checkMinimum_eq_ok, checkMaximum_eq_ok]
  | select _ _ options _ =>
    cases value with
    | string content =>
      simp only [checkValue, Meets, requiresText, Value.string.injEq]
      split
      . next h =>
        obtain ⟨option, hoption, heq⟩ := List.any_eq_true.mp h
        simpa using ⟨option, hoption, (beq_iff_eq.mp heq).symm⟩
      . next h =>
        simp only [reduceCtorEq, false_iff, not_and]
        rintro ⟨option, hoption, rfl⟩
        apply absurd _ h
        exact List.any_eq_true.mpr ⟨option, hoption, beq_self_eq_true option.value⟩
    | _ => simp [checkValue, Meets]
  | checkbox _ _ _ =>
    cases value <;> simp [checkValue, Meets, requiresText]
  | _ => simp [checkValue, Meets]

theorem checkValues_eq_ok {frame : UiFrame} {values : List (String × Value)}
    : checkValues f64 frame values = .ok ()
        ↔
      ∀ entry ∈ values,
        ∃ input, findInput frame entry.1 = some input ∧ checkValue f64 input entry.1 entry.2 = .ok () := by
  induction values with
  | nil => simp [checkValues]
  | cons entry values ih =>
    obtain ⟨name, value⟩ := entry
    rw [checkValues, List.forall_mem_cons, ← ih]
    cases findInput frame name with
    | none => simp
    | some input => simp [seq_eq_ok]

theorem checkRequired_eq_ok {decision : UiDecision} {nodes : List UiNode}
    : checkRequired decision nodes = .ok ()
        ↔
      ∀ node ∈ nodes, ∀ name, node.required? = some name → name ∈ decision.values := by
  induction nodes with
  | nil => simp [checkRequired]
  | cons node nodes ih =>
    rw [checkRequired, List.forall_mem_cons, ← ih]
    cases node.required? with
    | none => simp
    | some name =>
      by_cases hmem : name ∈ decision.values
      . simp [hmem]
      . simp [hmem]

theorem validateDecision_eq_ok {frame : UiFrame} {decision : UiDecision} (hframe : frame.Proper)
    {label : String} {actionClass : ActionClass}
    (haction : (decision.action, label, actionClass) ∈ frame.actions)
    : validateDecision f64 frame decision = .ok ()
        ↔
      (∀ name value, decision.values[name]? = some value →
        ∃ input, frame.Declares name input ∧ input.Meets f64 value
          ∧ (input.requiresText = true → value ≠ .string ""))
        ∧
      (actionClass.isAffirmative = true →
        ∀ node ∈ frame.nodes, ∀ name, node.required? = some name → name ∈ decision.values) := by
  have hfind := findAction_eq_some hframe.actionIds haction
  have hvalues : checkValues f64 frame decision.values.toList = .ok () ↔ _ := checkValues_eq_ok f64
  simp only [Prod.forall, mem_toList_iff_getElem?_eq_some,
    findInput_eq_some hframe.inputNames, checkValue_eq_ok] at hvalues
  unfold validateDecision
  rw [hfind]
  simp only [seq_eq_ok, hvalues, ← checkRequired_eq_ok]
  split
  . next haffirmative => simp [haffirmative]
  . next haffirmative => simp [haffirmative, pure, Except.pure]

end

theorem UiFrame.Declares.unique {frame : UiFrame} (hframe : frame.Proper) {name : String}
    {input input' : UiNode} (h : frame.Declares name input) (h' : frame.Declares name input')
    : input = input' := by
  rw [← findInput_eq_some hframe.inputNames] at h h'
  exact Option.some.inj (h.symm.trans h')

theorem declares_of_required {frame : UiFrame} {node : UiNode} (hnode : node ∈ frame.nodes)
    {name : String} (h : node.required? = some name) : frame.Declares name node := by
  refine ⟨hnode, ?_⟩
  unfold required? at h
  split at h <;> cases h <;> exact ⟨_, rfl⟩

theorem required_of_requiresText {frame : UiFrame} {name : String} {input : UiNode}
    (hdeclares : frame.Declares name input) (h : input.requiresText = true)
    : input.required? = some name := by
  obtain ⟨-, label, hinput⟩ := hdeclares
  cases input <;> cases hinput <;> cases h
  rfl

theorem meets_text {f64 : Float64} {input : UiNode} {value : Value} (htext : input.requiresText = true)
    (h : input.Meets f64 value) : ∃ content, value = .string content := by
  cases input <;> cases htext
  exact h

theorem supplied_iff (values : Std.ExtTreeMap String Value) (node : UiNode)
    : node.Supplied values
        ↔
      ∀ name, node.required? = some name →
        name ∈ values
          ∧
        (node.requiresText = true →
          ∃ content, content ≠ "" ∧ values[name]? = some (Value.string content)) := by
  cases node with
  | textInput name label placeholder required multiline =>
    cases required with
    | false => simp [Supplied, required?]
    | true =>
      simp only [Supplied, required?, requiresText, Option.some.injEq, forall_eq',
        true_imp_iff, iff_and_self]
      rintro ⟨content, -, hcontent⟩
      rw [mem_iff_isSome_getElem?, hcontent]
      rfl
  | numberInput name label min max required | select name label options required =>
    cases required <;> simp [Supplied, required?, requiresText]
  | _ => simp [Supplied, required?]

theorem refusesEmpty_of_meets {f64 : Float64} {input : UiNode} {value : Value}
    (hproper : input.Proper) (huntouched : input.Untouched value) (hmeets : input.Meets f64 value)
    (hne : input.requiresText = true → value ≠ .string "") : input.refusesEmpty = false := by
  cases input with
  | textInput name label placeholder required multiline =>
    cases required with
    | false => rfl
    | true => exact absurd huntouched (hne rfl)
  | select name label options required =>
    -- an option has a value
    obtain ⟨option, hoption, heq⟩ := hmeets
    rw [Untouched] at huntouched
    rw [huntouched] at heq
    exact absurd (Value.string.inj heq).symm (hproper.2.2.1 option hoption).1
  | _ => rfl

theorem meets_of_untouched {f64 : Float64} {input : UiNode} {value : Value}
    (huntouched : input.Untouched value) (h : input.refusesEmpty = false)
    : input.Meets f64 value ∧ (input.requiresText = true → value ≠ .string "") := by
  cases input with
  | textInput name label placeholder required multiline =>
    cases h
    exact ⟨⟨"", huntouched⟩, nofun⟩
  | checkbox name label checked => exact ⟨huntouched, nofun⟩
  | select name label options required => cases h
  | _ => exact huntouched.elim

section

variable (f64 : Float64) {frame : UiFrame} {decision : UiDecision} (hframe : frame.Proper)
  {label : String} {actionClass : ActionClass}
  (haction : (decision.action, label, actionClass) ∈ frame.actions)
include hframe haction

theorem complete_iff (haffirmative : actionClass.isAffirmative = true)
    : validateDecision f64 frame decision = .ok () ↔ Complete f64 frame decision.values := by
  rw [validateDecision_eq_ok f64 hframe haction]
  constructor
  . rintro ⟨hvalues, hrequired⟩
    constructor
    . intro name value hvalue
      obtain ⟨input, hdeclares, hmeets, -⟩ := hvalues name value hvalue
      exact ⟨input, hdeclares, hmeets⟩
    . intro node hnode
      rw [supplied_iff]
      intro name hname
      have hmem := hrequired haffirmative node hnode name hname
      refine ⟨hmem, ?_⟩
      intro htext
      obtain ⟨value, hvalue⟩ :=
        Option.isSome_iff_exists.mp (mem_iff_isSome_getElem?.mp hmem)
      obtain ⟨input, hdeclares, hmeets, hne⟩ := hvalues name value hvalue
      obtain rfl := hdeclares.unique hframe (declares_of_required hnode hname)
      obtain ⟨content, rfl⟩ := meets_text htext hmeets
      refine ⟨content, ?_, hvalue⟩
      rintro rfl
      exact hne htext rfl
  . intro h
    constructor
    . intro name value hvalue
      obtain ⟨input, hdeclares, hmeets⟩ := h.meets name value hvalue
      refine ⟨input, hdeclares, hmeets, ?_⟩
      rintro htext rfl
      have hname := required_of_requiresText hdeclares htext
      obtain ⟨content, hne, hcontent⟩ :=
        ((supplied_iff _ _).mp (h.supplied input hdeclares.1) name hname).2 htext
      rw [hvalue] at hcontent
      cases hcontent
      exact hne rfl
    . intro _ node hnode name hname
      exact ((supplied_iff _ _).mp (h.supplied node hnode) name hname).1

theorem untouched_iff (hback : actionClass.isAffirmative = false)
    (huntouched : frame.UntouchedForm decision.values)
    : validateDecision f64 frame decision = .ok ()
        ↔
      ∀ name ∈ decision.values, ∀ input, frame.Declares name input → input.refusesEmpty = false := by
  rw [validateDecision_eq_ok f64 hframe haction]
  constructor
  . rintro ⟨hvalues, -⟩ name hmem input hdeclares
    obtain ⟨value, hvalue⟩ :=
      Option.isSome_iff_exists.mp (mem_iff_isSome_getElem?.mp hmem)
    obtain ⟨input₁, hdeclares₁, hmeets, hne⟩ := hvalues name value hvalue
    obtain ⟨input₂, hdeclares₂, hempty⟩ := huntouched name value hvalue
    obtain rfl := hdeclares.unique hframe hdeclares₁
    obtain rfl := hdeclares.unique hframe hdeclares₂
    exact refusesEmpty_of_meets (hframe.leaves input hdeclares.1) hempty hmeets hne
  . intro h
    constructor
    . intro name value hvalue
      obtain ⟨input, hdeclares, hempty⟩ := huntouched name value hvalue
      have hmem : name ∈ decision.values := by
        rw [mem_iff_isSome_getElem?, hvalue]
        rfl
      exact ⟨input, hdeclares, meets_of_untouched hempty (h name hmem input hdeclares)⟩
    . intro haffirmative
      rw [hback] at haffirmative
      cases haffirmative

end

-- Backing out is blocked by the empty value of a required text or of a selection that comes along.
theorem backing_out (f64 : Float64) (frame : UiFrame) (decision : UiDecision)
    (hvalid : frame.validate = .ok ()) (label : String) (actionClass : ActionClass)
    (haction : (decision.action, label, actionClass) ∈ frame.actions)
    : (actionClass.isAffirmative = false → frame.UntouchedForm decision.values →
        (validateDecision f64 frame decision = .ok ()
            ↔
          ∀ name ∈ decision.values, ∀ input, frame.Declares name input → input.refusesEmpty = false))
        ∧
      (actionClass.isAffirmative = true →
        (validateDecision f64 frame decision = .ok () ↔ Complete f64 frame decision.values)) := by
  have hframe := UiFrame.proper_of_validate hvalid
  constructor
  . exact untouched_iff f64 hframe haction
  . exact complete_iff f64 hframe haction

namespace Purchase

def frame : UiFrame where
  schemaVersion := "1.0.0"
  title := none
  provenance := {}
  root := .column
    [.textInput "po_number" "PO number" none true false, .textInput "note" "Note" none false true,
      .button "approve" "Approve" .approve, .button "cancel" "Cancel" .cancel]

def f64 : Float64 where
  ofInt n := n
  display _ := ""

def cancel (name : String) : UiDecision where
  action := "cancel"
  values := insert ∅ name (.string "")

theorem frame_valid : frame.validate = .ok () := by
  decide

theorem cancel_declared (name : String) : ((cancel name).action, "Cancel", .cancel) ∈ frame.actions := by
  simp [cancel, frame, UiFrame.actions, UiFrame.nodes, collect, collectAll, button?]

theorem getElem?_cancel {name key : String} {value : Value}
    (h : (cancel name).values[key]? = some value) : key = name ∧ value = .string "" := by
  simp only [cancel, getElem?_insert, getElem?_empty] at h
  split at h
  . next heq =>
    cases h
    exact ⟨(Std.LawfulEqCmp.eq_of_compare heq).symm, rfl⟩
  . cases h

theorem cancel_untouched {name label : String} {required multiline : Bool}
    (h : textInput name label none required multiline ∈ frame.nodes)
    : frame.UntouchedForm (cancel name).values := by
  intro key value hvalue
  obtain ⟨rfl, rfl⟩ := getElem?_cancel hvalue
  exact ⟨_, ⟨h, label, rfl⟩, rfl⟩

end Purchase

open Purchase

theorem cancel_blocked
    : frame.validate = .ok ()
        ∧ ((cancel "po_number").action, "Cancel", .cancel) ∈ frame.actions
        ∧ ActionClass.cancel.isAffirmative = false
        ∧ frame.UntouchedForm (cancel "po_number").values
        ∧ validateDecision f64 frame (cancel "po_number")
            = .error (.invalid "required input `po_number` must be non-empty") := by
  refine ⟨frame_valid, cancel_declared _, rfl, ?_, ?_⟩
  . apply @cancel_untouched _ "PO number" true false
    simp [frame, UiFrame.nodes, collect, collectAll]
  . decide

theorem backing_out_note
    : frame.UntouchedForm (cancel "note").values
        ∧ validateDecision f64 frame (cancel "note") = .ok () := by
  have huntouched : frame.UntouchedForm (cancel "note").values := by
    apply @cancel_untouched _ "Note" false true
    simp [frame, UiFrame.nodes, collect, collectAll]
  have hexact := backing_out f64 frame (cancel "note") frame_valid
    "Cancel" .cancel (cancel_declared "note")
  refine ⟨huntouched, (hexact.1 rfl huntouched).mpr ?_⟩
  rintro name hname input ⟨hinput, label, hdeclared⟩
  obtain ⟨value, hvalue⟩ :=
    Option.isSome_iff_exists.mp (mem_iff_isSome_getElem?.mp hname)
  obtain ⟨rfl, -⟩ := getElem?_cancel hvalue
  simp only [frame, UiFrame.nodes, collect, collectAll, List.append_nil, List.cons_append,
    List.nil_append, List.mem_cons, List.not_mem_nil, or_false] at hinput
  rcases hinput with rfl | rfl | rfl | rfl | rfl <;> simp_all [input?, refusesEmpty]

end Wovyr.Ui
