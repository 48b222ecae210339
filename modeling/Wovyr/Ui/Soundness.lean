import Wovyr.Ui.Guard

/-!
This module contains what a validated frame and a frame that a policy lets pass are known to satisfy.
A redaction changes texts only, the controls and the shape of the tree stay.
-/

namespace Wovyr.Ui

open UiFrame List

structure Registers (seen seen' : Seen) (nodes : List UiNode) : Prop where
  inputNames : seen'.inputNames = seen.inputNames ++ (nodes.filterMap UiNode.input?).map Prod.fst
  actionIds : seen'.actionIds = seen.actionIds ++ (nodes.filterMap UiNode.button?).map Prod.fst
  named : ∀ input ∈ nodes.filterMap UiNode.input?, input.1 ≠ "" ∧ input.2 ≠ ""

theorem Registers.append {s₁ s₂ s₃ : Seen} {as bs : List UiNode} (h : Registers s₁ s₂ as)
    (h' : Registers s₂ s₃ bs) : Registers s₁ s₃ (as ++ bs) where
  inputNames := by simp [h'.inputNames, h.inputNames]
  actionIds := by simp [h'.actionIds, h.actionIds]
  named := by
    intro input hinput
    rw [filterMap_append, mem_append] at hinput
    rcases hinput with hinput | hinput
    . exact h.named input hinput
    . exact h'.named input hinput

theorem registers_plain {seen seen' : Seen} {node : UiNode} (hinput : node.input? = none)
    (hbutton : node.button? = none) (hnames : seen'.inputNames = seen.inputNames)
    (hids : seen'.actionIds = seen.actionIds) : Registers seen seen' [node] where
  inputNames := by simp [hinput, hnames]
  actionIds := by simp [hbutton, hids]
  named := by simp [hinput]

theorem registerInput_eq_ok {seen seen' : Seen} {name label : String}
    (h : registerInput seen name label = .ok seen')
    : (name ≠ "" ∧ label ≠ "") ∧ seen' = { seen with inputNames := seen.inputNames ++ [name] } := by
  unfold registerInput at h
  split at h
  . cases h
  . next hne =>
    split at h
    . cases h
    . cases h
      exact ⟨not_or.mp hne, rfl⟩

theorem registerAction_eq_ok {seen seen' : Seen} {action label : String}
    (h : registerAction seen action label = .ok seen')
    : (action ≠ "" ∧ label ≠ "")
        ∧
      seen' = { seen with actionIds := seen.actionIds ++ [action] } := by
  unfold registerAction at h
  split at h
  . cases h
  . next hne =>
    split at h
    . cases h
    . cases h
      exact ⟨not_or.mp hne, rfl⟩

theorem registers_input {seen seen' : Seen} {node : UiNode} {name label : String}
    (hinput : node.input? = some (name, label)) (hbutton : node.button? = none)
    (h : registerInput seen name label = .ok seen') : Registers seen seen' [node] := by
  obtain ⟨hne, rfl⟩ := registerInput_eq_ok h
  constructor
  . simp [hinput]
  . simp [hbutton]
  . simp [hinput, hne]

theorem validateLeaf_registers {seen seen' : Seen} {node : UiNode}
    (hleaf : ∀ children, node ≠ .column children ∧ node ≠ .row children)
    (hcard : ∀ title children, node ≠ .card title children)
    (h : validateLeaf seen node = .ok seen') : Registers seen seen' [node] := by
  cases node with
  | column children => exact absurd rfl (hleaf children).1
  | row children => exact absurd rfl (hleaf children).2
  | card title children => exact absurd rfl (hcard title children)
  | divider =>
    cases h
    exact registers_plain rfl rfl rfl rfl
  | text text style | badge text tone | keyValue entries =>
    simp only [validateLeaf] at h
    split at h
    . cases h
    . cases h
      exact registers_plain rfl rfl rfl rfl
  | image url alt =>
    simp only [validateLeaf] at h
    split at h
    . cases h
    . split at h
      . cases h
      . cases h
        exact registers_plain rfl rfl rfl rfl
  | textInput name label placeholder required multiline => exact registers_input rfl rfl h
  | numberInput name label min max required =>
    obtain ⟨seen₁, hseen, hrest⟩ := (bind_eq_ok _ _ _).mp h
    have : seen₁ = seen' := by
      split at hrest
      . split at hrest
        . cases hrest
        . exact Except.ok.inj hrest
      . exact Except.ok.inj hrest
    exact registers_input rfl rfl (this ▸ hseen)
  | select name label options required =>
    obtain ⟨seen₁, hseen, hrest⟩ := (bind_eq_ok _ _ _).mp h
    have : seen₁ = seen' := by
      split at hrest
      . cases hrest
      . obtain ⟨_, _, hrest⟩ := (bind_eq_ok _ _ _).mp hrest
        exact Except.ok.inj hrest
    exact registers_input rfl rfl (this ▸ hseen)
  | checkbox name label checked => exact registers_input rfl rfl h
  | button action label actionClass =>
    obtain ⟨-, rfl⟩ := registerAction_eq_ok h
    constructor
    . simp [UiNode.input?]
    . simp [UiNode.button?]
    . simp [UiNode.input?]

def Seen.counted (seen : Seen) : Seen :=
  { seen with count := seen.count + 1 }

theorem validateNode_eq_ok {d : Nat} {seen seen' : Seen} {node : UiNode}
    : validateNode d seen node = .ok seen'
        ↔
      (seen.count < maxNodes ∧ d ≤ maxDepth)
        ∧
      (match node with
        | .column children | .row children | .card _ children =>
          validateNodes (d + 1) seen.counted children
        | leaf => validateLeaf seen.counted leaf) = .ok seen' := by
  rw [validateNode.eq_def]
  dsimp only
  split
  . simp only [reduceCtorEq, false_iff, not_and]
    omega
  . split
    . simp only [reduceCtorEq, false_iff, not_and]
      omega
    . next hcount hdepth =>
      have hcaps : seen.count < maxNodes ∧ d ≤ maxDepth := by omega
      simp only [hcaps, true_and]
      cases node <;> rfl

theorem registers_container {seen seen' : Seen} {node : UiNode} {nodes : List UiNode}
    (hinput : node.input? = none) (hbutton : node.button? = none)
    (h : Registers seen.counted seen' nodes) : Registers seen seen' (node :: nodes) := by
  have hnode : Registers seen seen.counted [node] := registers_plain hinput hbutton rfl rfl
  exact hnode.append h

mutual

theorem validateNode_registers {d : Nat} {seen seen' : Seen} {node : UiNode}
    (h : validateNode d seen node = .ok seen') : Registers seen seen' (collect node) := by
  rw [validateNode_eq_ok] at h
  match node with
  | .column children | .row children | .card _ children =>
    exact registers_container rfl rfl (validateNodes_registers h.2)
  | .divider | .text _ _ | .badge _ _ | .keyValue _ | .image _ _ | .textInput _ _ _ _ _
  | .numberInput _ _ _ _ _ | .select _ _ _ _ | .checkbox _ _ _ | .button _ _ _ =>
    have hleaf := validateLeaf_registers (by simp) (by simp) h.2
    exact ⟨hleaf.inputNames, hleaf.actionIds, hleaf.named⟩

theorem validateNodes_registers {d : Nat} {seen seen' : Seen} {nodes : List UiNode}
    (h : validateNodes d seen nodes = .ok seen') : Registers seen seen' (collectAll nodes) := by
  match nodes with
  | [] =>
    rw [validateNodes] at h
    cases h
    constructor <;> simp [collectAll]
  | node :: nodes =>
    rw [validateNodes] at h
    split at h
    . cases h
    . next hnode =>
      exact (validateNode_registers hnode).append (validateNodes_registers h)

end

namespace UiFrame

theorem validate_eq_ok {frame : UiFrame} (h : frame.validate = .ok ())
    : ensureVersionSupported frame.schemaVersion = .ok ()
        ∧
      ∃ seen, validateNode 1 {} frame.root = .ok seen ∧ (seen.inputNames ≠ [] → seen.actionIds ≠ []) := by
  obtain ⟨_, hversion, h⟩ := (bind_eq_ok _ _ _).mp h
  obtain ⟨seen, hseen, h⟩ := (bind_eq_ok _ _ _).mp h
  refine ⟨hversion, seen, hseen, ?_⟩
  split at h
  . cases h
  . next hsubmit =>
    intro hinputs hactions
    exact hsubmit ⟨hinputs, hactions⟩

theorem validate_of_validateNode {frame : UiFrame} {seen : Seen}
    (hversion : ensureVersionSupported frame.schemaVersion = .ok ())
    (hseen : validateNode 1 {} frame.root = .ok seen)
    (hsubmit : seen.inputNames ≠ [] → seen.actionIds ≠ []) : frame.validate = .ok () := by
  have : ¬(seen.inputNames ≠ [] ∧ seen.actionIds = []) := by tauto
  simp only [validate, hversion, hseen, bind, Except.bind, if_neg this]
  rfl

theorem named_of_validate {frame : UiFrame} (h : frame.validate = .ok ())
    : ∀ input ∈ frame.inputs, input.1 ≠ "" ∧ input.2 ≠ "" := by
  obtain ⟨-, seen, hseen, -⟩ := validate_eq_ok h
  exact (validateNode_registers hseen).named

theorem actions_ne_nil_of_validate {frame : UiFrame} (h : frame.validate = .ok ())
    (hinputs : frame.inputs ≠ []) : frame.actions ≠ [] := by
  obtain ⟨-, seen, hseen, hsubmit⟩ := validate_eq_ok h
  have hregisters := validateNode_registers hseen
  have hnames := hregisters.inputNames
  have hids := hregisters.actionIds
  intro hactions
  apply hsubmit
  . rw [hnames]
    simpa [inputs, nodes] using hinputs
  . rw [hids]
    simpa [actions, nodes] using hactions

end UiFrame

theorem mem_inputs {frame : UiFrame} {input : String × String}
    : input ∈ frame.inputs ↔ ∃ node ∈ frame.nodes, node.input? = some input := by
  simp [inputs]

theorem mem_actions {frame : UiFrame} {button : String × String × ActionClass}
    : button ∈ frame.actions ↔ ∃ node ∈ frame.nodes, node.button? = some button := by
  simp [actions]

theorem depth_pos (node : UiNode) : 1 ≤ depth node := by
  cases node <;> simp [depth]

theorem controls_need_container {node : UiNode} (hinput : ∃ n ∈ collect node, n.input?.isSome)
    (hbutton : ∃ n ∈ collect node, n.button?.isSome) : 3 ≤ (collect node).length ∧ 2 ≤ depth node := by
  have hchildren : ∀ children, (∃ n ∈ collectAll children, n.input?.isSome) →
      (∃ n ∈ collectAll children, n.button?.isSome) →
      2 ≤ (collectAll children).length ∧ 1 ≤ maxDepthOf children := by
    rintro children ⟨n, hn, hinput⟩ ⟨m, hm, hbutton⟩
    constructor
    . match hlist : collectAll children with
      | [] => simp [hlist] at hn
      | [k] =>
        rw [hlist, mem_singleton] at hn hm
        subst hn hm
        cases m <;> simp [UiNode.input?, UiNode.button?] at hinput hbutton
      | _ :: _ :: _ => simp
    . cases children with
      | nil => simp [collectAll] at hn
      | cons child children =>
        have := depth_pos child
        simp only [maxDepthOf]
        omega
  cases node with
  | column children | row children | card _ children =>
    have := hchildren children (by simpa [collect, UiNode.input?] using hinput)
      (by simpa [collect, UiNode.button?] using hbutton)
    simp only [collect, depth, length_cons]
    omega
  | _ => simp [collect, UiNode.input?, UiNode.button?] at hinput hbutton

theorem three_nodes_of_inputs {frame : UiFrame} (h : frame.validate = .ok ())
    (hinputs : frame.inputs ≠ []) : 3 ≤ frame.nodes.length ∧ 2 ≤ frameDepth frame := by
  apply controls_need_container
  . obtain ⟨input, hinput⟩ := exists_mem_of_ne_nil _ hinputs
    obtain ⟨node, hnode, hnode'⟩ := (mem_inputs).mp hinput
    exact ⟨node, hnode, by simp [hnode']⟩
  . obtain ⟨button, hbutton⟩ :=
      exists_mem_of_ne_nil _ (actions_ne_nil_of_validate h hinputs)
    obtain ⟨node, hnode, hnode'⟩ := (mem_actions).mp hbutton
    exact ⟨node, hnode, by simp [hnode']⟩

theorem replaceRange_ne_nil {text replacement text' : List Char} {start stop : Nat}
    (hne : replacement ≠ []) (h : replaceRange text start stop replacement = some text')
    : text' ≠ [] := by
  unfold replaceRange at h
  split at h
  . cases h
  . split at h
    . cases h
    . cases h
      simp [hne]

theorem scrubPattern_ne_nil {pattern lower text text' : List Char} {start : Nat} {hit hit' : Bool}
    (hne : text ≠ []) (h : scrubPattern pattern lower start text hit = some (text', hit'))
    : text' ≠ [] := by
  fun_induction scrubPattern pattern lower start text hit with
  | case1 => simp_all
  | case2 => cases h
  | case3 start text hit c rest hmatch text₁ hreplace ih =>
    apply ih _ h
    apply replaceRange_ne_nil _ hreplace
    simpa [blackout] using hmatch.1
  | case4 start text hit c rest hmatch ih => exact ih hne h

section

variable (u : Unicode)

theorem scrub_ne_empty {patterns : List String} {text text' : String} {hit : Bool} (hne : text ≠ "")
    (h : scrub u patterns text = some (text', hit)) : text' ≠ "" := by
  have hlist : text.toList ≠ [] := by
    intro hnil
    exact hne (String.toList_injective hnil)
  unfold scrub at h
  simp only [Option.map_eq_some_iff, Prod.mk.injEq, Prod.exists] at h
  obtain ⟨cs, _, hfold, rfl, -⟩ := h
  suffices hcs : cs ≠ [] by
    intro hempty
    exact hcs (by simpa using congrArg String.toList hempty)
  generalize u.toLowercase text.toList = lower at hfold
  generalize false = found at hfold
  generalize text.toList = start at hfold hlist
  induction patterns generalizing start found with
  | nil =>
    cases hfold
    exact hlist
  | cons pattern patterns ih =>
    rw [foldlM_cons] at hfold
    obtain ⟨⟨start', found'⟩, hstep, hrest⟩ := Option.bind_eq_some_iff.mp hfold
    exact ih _ _ hrest (scrubPattern_ne_nil hlist hstep)

theorem length_scrubEntries {patterns : List String} {entries entries' : List KeyValueEntry}
    {hit : Bool} (h : scrubEntries u patterns entries = some (entries', hit))
    : entries'.length = entries.length := by
  induction entries generalizing entries' hit with
  | nil =>
    cases h
    rfl
  | cons entry entries ih =>
    rw [scrubEntries] at h
    split at h
    . next hrest =>
      cases h
      simp [ih hrest]
    . cases h

structure Kept (nodes nodes' : List UiNode) : Prop where
  length : nodes'.length = nodes.length
  inputs : nodes'.filterMap UiNode.input? = nodes.filterMap UiNode.input?
  buttons : nodes'.filterMap UiNode.button? = nodes.filterMap UiNode.button?

theorem Kept.refl (nodes : List UiNode) : Kept nodes nodes :=
  ⟨rfl, rfl, rfl⟩

theorem Kept.append {as as' bs bs' : List UiNode} (h : Kept as as') (h' : Kept bs bs')
    : Kept (as ++ bs) (as' ++ bs') where
  length := by simp [h.length, h'.length]
  inputs := by simp only [filterMap_append, h.inputs, h'.inputs]
  buttons := by simp only [filterMap_append, h.buttons, h'.buttons]

theorem kept_plain {node node' : UiNode} (h : node.input? = none ∧ node.button? = none)
    (h' : node'.input? = none ∧ node'.button? = none) : Kept [node] [node'] where
  length := rfl
  inputs := by simp [h.1, h'.1]
  buttons := by simp [h.2, h'.2]

structure Redacts (node node' : UiNode) : Prop where
  kept : Kept (collect node) (collect node')
  depth : depth node' = depth node
  valid : ∀ d seen seen', validateNode d seen node = .ok seen' → validateNode d seen node' = .ok seen'

structure RedactsAll (nodes nodes' : List UiNode) : Prop where
  kept : Kept (collectAll nodes) (collectAll nodes')
  depth : maxDepthOf nodes' = maxDepthOf nodes
  valid : ∀ d seen seen',
    validateNodes d seen nodes = .ok seen' → validateNodes d seen nodes' = .ok seen'

theorem Redacts.refl (node : UiNode) : Redacts node node :=
  ⟨Kept.refl _, rfl, fun _ _ _ h => h⟩

inductive Container : (List UiNode → UiNode) → Prop where
  | column : Container .column
  | row : Container .row
  | card (title : Option String) : Container (.card title)

theorem Container.redacts {container : List UiNode → UiNode} (hcontainer : Container container)
    {nodes nodes' : List UiNode} (h : RedactsAll nodes nodes')
    : Redacts (container nodes) (container nodes') := by
  have hplain (children : List UiNode)
      : (container children).input? = none ∧ (container children).button? = none := by
    cases hcontainer <;> exact ⟨rfl, rfl⟩
  have hcollect (children : List UiNode)
      : collect (container children) = [container children] ++ collectAll children := by
    cases hcontainer <;> rfl
  have hdepth (children : List UiNode) : depth (container children) = 1 + maxDepthOf children := by
    cases hcontainer <;> rw [depth]
  constructor
  . rw [hcollect, hcollect]
    exact (kept_plain (hplain nodes) (hplain nodes')).append h.kept
  . rw [hdepth, hdepth, h.depth]
  . intro d seen seen' hvalid
    rw [validateNode_eq_ok] at hvalid ⊢
    cases hcontainer <;> exact ⟨hvalid.1, h.valid _ _ _ hvalid.2⟩

theorem RedactsAll.cons {node node' : UiNode} {nodes nodes' : List UiNode} (h : Redacts node node')
    (h' : RedactsAll nodes nodes') : RedactsAll (node :: nodes) (node' :: nodes') where
  kept := h.kept.append h'.kept
  depth := by simp [maxDepthOf, h.depth, h'.depth]
  valid d seen seen' hvalid := by
    rw [validateNodes] at hvalid ⊢
    split at hvalid
    . cases hvalid
    . next hnode =>
      rw [h.valid _ _ _ hnode]
      exact h'.valid _ _ _ hvalid

inductive Caption : (String → UiNode) → Prop where
  | text (style : TextStyle) : Caption (.text · style)
  | badge (tone : Tone) : Caption (.badge · tone)

theorem Caption.redacts {caption : String → UiNode} (hcaption : Caption caption) {text text' : String}
    (h : text ≠ "" → text' ≠ "") : Redacts (caption text) (caption text') := by
  constructor
  . cases hcaption <;> exact kept_plain ⟨rfl, rfl⟩ ⟨rfl, rfl⟩
  . cases hcaption <;> rfl
  . intro d seen seen' hvalid
    rw [validateNode_eq_ok] at hvalid ⊢
    cases hcaption <;>
    . simp only [validateLeaf] at hvalid ⊢
      split at hvalid
      . cases hvalid.2
      . next hne => rwa [if_neg (h hne)]

theorem redacts_keyValue {entries entries' : List KeyValueEntry}
    (h : entries'.length = entries.length) : Redacts (.keyValue entries) (.keyValue entries') where
  kept := kept_plain ⟨rfl, rfl⟩ ⟨rfl, rfl⟩
  depth := rfl
  valid d seen seen' hvalid := by
    have hnil : entries' = [] ↔ entries = [] := by
      rw [← length_eq_zero_iff, h, length_eq_zero_iff]
    rw [validateNode_eq_ok] at hvalid ⊢
    simpa only [validateLeaf, hnil] using hvalid

mutual

theorem redactNode_redacts {patterns : List String} {node node' : UiNode} {hit : Bool}
    (h : redactNode u patterns node = some (node', hit)) : Redacts node node' := by
  match node with
  | .text text style =>
    simp only [redactNode, Option.map_eq_some_iff, Prod.mk.injEq, Prod.exists] at h
    obtain ⟨text', _, hscrub, rfl, -⟩ := h
    exact (Caption.text style).redacts fun hne => scrub_ne_empty u hne hscrub
  | .badge text tone =>
    simp only [redactNode, Option.map_eq_some_iff, Prod.mk.injEq, Prod.exists] at h
    obtain ⟨text', _, hscrub, rfl, -⟩ := h
    exact (Caption.badge tone).redacts fun hne => scrub_ne_empty u hne hscrub
  | .keyValue entries =>
    simp only [redactNode, Option.map_eq_some_iff, Prod.mk.injEq, Prod.exists] at h
    obtain ⟨entries', _, hscrub, rfl, -⟩ := h
    exact redacts_keyValue (length_scrubEntries u hscrub)
  | .column children =>
    simp only [redactNode, Option.map_eq_some_iff, Prod.mk.injEq, Prod.exists] at h
    obtain ⟨children', _, hchildren, rfl, -⟩ := h
    exact Container.column.redacts (redactNodes_redacts hchildren)
  | .row children =>
    simp only [redactNode, Option.map_eq_some_iff, Prod.mk.injEq, Prod.exists] at h
    obtain ⟨children', _, hchildren, rfl, -⟩ := h
    exact Container.row.redacts (redactNodes_redacts hchildren)
  | .card title children =>
    simp only [redactNode, Option.map_eq_some_iff, Prod.mk.injEq, Prod.exists] at h
    obtain ⟨children', _, hchildren, rfl, -⟩ := h
    exact (Container.card title).redacts (redactNodes_redacts hchildren)
  | .divider | .image _ _ | .textInput _ _ _ _ _ | .numberInput _ _ _ _ _ | .select _ _ _ _
  | .checkbox _ _ _ | .button _ _ _ =>
    cases h
    exact Redacts.refl _

theorem redactNodes_redacts {patterns : List String} {nodes nodes' : List UiNode} {hit : Bool}
    (h : redactNodes u patterns nodes = some (nodes', hit)) : RedactsAll nodes nodes' := by
  match nodes with
  | [] =>
    cases h
    exact ⟨Kept.refl _, rfl, fun _ _ _ hvalid => hvalid⟩
  | node :: nodes =>
    rw [redactNodes] at h
    split at h
    . next hnode hnodes =>
      cases h
      exact RedactsAll.cons (redactNode_redacts hnode) (redactNodes_redacts hnodes)
    . cases h

end

structure Sound (policy : UiPolicy) (frame : UiFrame) : Prop where
  valid : frame.validate = .ok ()
  nodes : frame.nodes.length ≤ policy.rules.maxNodes
  depth : frameDepth frame ≤ policy.rules.maxDepth
  destructive : policy.rules.allowDestructiveActions = false →
    ∀ button ∈ frame.actions, button.2.2 ≠ .destructive
  affirmative : ∀ button ∈ frame.actions, button.2.2.isAffirmative = true →
    ∀ token ∈ u.tokens button.2.1, token ∉ negativeLabelTokens
  declared : ∀ button ∈ frame.actions, button.2.2 ≠ .destructive →
    ∀ token ∈ u.tokens button.2.1, token ∉ destructiveLabelTokens
  sensitive : policy.rules.allowSensitiveInputNames = false →
    ∀ input ∈ frame.inputs, ∀ field ∈ [input.1, input.2], ∀ token ∈ policy.sensitiveTokens u,
      u.lower field ≠ token ∧ token ∉ u.tokens field

structure Passed (policy : UiPolicy) (frame : UiFrame) : Prop where
  nodes : frame.nodes.length ≤ policy.rules.maxNodes
  depth : frameDepth frame ≤ policy.rules.maxDepth
  sensitive : policy.rules.allowSensitiveInputNames = false →
    ∀ input ∈ frame.inputs, ∀ field ∈ [input.1, input.2], ∀ token ∈ policy.sensitiveTokens u,
      token ∉ u.tokens field
  actions : ∀ button ∈ frame.actions, actionBlock u policy button = none

theorem sensitiveToken_eq_none {sensitive : List String} {field : String}
    : sensitiveToken u sensitive field = none ↔ ∀ token ∈ sensitive, token ∉ u.tokens field := by
  simp only [sensitiveToken, find?_eq_none, decide_eq_true_eq]
  constructor
  . intro h token htoken hmem
    exact h token hmem htoken
  . intro h token hmem htoken
    exact h token htoken hmem

theorem sensitiveBlock_eq_none {policy : UiPolicy} {sensitive : List String} {node : UiNode}
    : sensitiveBlock u policy sensitive node = none
        ↔
      ∀ input, node.input? = some input →
        ∀ field ∈ [input.1, input.2], ∀ token ∈ sensitive, token ∉ u.tokens field := by
  unfold sensitiveBlock
  split
  . simp_all
  . next name label hinput =>
    simp only [hinput, Option.some.injEq, forall_eq', forall_mem_cons, not_mem_nil,
      false_implies, implies_true, and_true, ← sensitiveToken_eq_none]
    split
    . simp_all
    . next hsome =>
      simp only [reduceCtorEq, false_iff, not_and]
      intro hname hlabel
      simp [hname, hlabel] at hsome

theorem blocked_eq_none {policy : UiPolicy} {frame : UiFrame}
    : blocked u policy frame = none
        ↔
      Passed u policy frame ∧ ∀ node ∈ frame.nodes, mediaBlock u policy node = none := by
  have hsensitive : (∀ node ∈ frame.nodes, sensitiveBlock u policy (policy.sensitiveTokens u) node = none)
      ↔ ∀ input ∈ frame.inputs, ∀ field ∈ [input.1, input.2], ∀ token ∈ policy.sensitiveTokens u,
        token ∉ u.tokens field := by
    simp only [sensitiveBlock_eq_none, mem_inputs]
    constructor
    . rintro h input ⟨node, hnode, hinput⟩
      exact h node hnode input hinput
    . intro h node hnode input hinput
      exact h input ⟨node, hnode, hinput⟩
  unfold blocked
  split
  . next hnodes =>
    simp only [reduceCtorEq, false_iff, not_and]
    intro h
    have := h.nodes
    omega
  . split
    . next hdepth =>
      simp only [reduceCtorEq, false_iff, not_and]
      intro h
      have := h.depth
      omega
    . next hnodes hdepth =>
      simp only [Option.or_eq_none_iff, findSome?_eq_none_iff]
      constructor
      . rintro ⟨hmedia, hinputs, hactions⟩
        refine ⟨⟨by omega, by omega, ?_, hactions⟩, hmedia⟩
        intro hallow
        rw [hallow] at hinputs
        exact hsensitive.mp (findSome?_eq_none_iff.mp hinputs)
      . rintro ⟨h, hmedia⟩
        refine ⟨hmedia, ?_, h.actions⟩
        split
        . rfl
        . next hallow =>
          exact findSome?_eq_none_iff.mpr
            (hsensitive.mpr (h.sensitive (by simpa using hallow)))

theorem actionBlock_eq_none {policy : UiPolicy} {button : String × String × ActionClass}
    : actionBlock u policy button = none
        ↔
      (policy.rules.allowDestructiveActions = false → button.2.2 ≠ .destructive)
        ∧
      (button.2.2.isAffirmative = true → ∀ token ∈ u.tokens button.2.1, token ∉ negativeLabelTokens)
        ∧
      (button.2.2 ≠ .destructive → ∀ token ∈ u.tokens button.2.1, token ∉ destructiveLabelTokens) := by
  obtain ⟨action, label, actionClass⟩ := button
  simp only [actionBlock, any_eq_true, decide_eq_true_eq]
  split
  . simp_all
  . split
    . next h =>
      simp only [reduceCtorEq, false_iff, not_and, not_forall, not_not]
      obtain ⟨haffirmative, token, htoken, hmem⟩ := h
      intro _ hnegative
      exact absurd hmem (hnegative haffirmative token htoken)
    . split
      . next h =>
        simp only [reduceCtorEq, false_iff, not_and, not_forall, not_not]
        obtain ⟨hclass, token, htoken, hmem⟩ := h
        intro _ _
        exact ⟨hclass, token, htoken, hmem⟩
      . next hdestructive hnegative hdeclared =>
        simp only [true_iff]
        refine ⟨?_, ?_, ?_⟩
        . intro hallow hclass
          exact hdestructive ⟨hclass, hallow⟩
        . intro haffirmative token htoken hmem
          exact hnegative ⟨haffirmative, token, htoken, hmem⟩
        . intro hclass token htoken hmem
          exact hdeclared ⟨hclass, token, htoken, hmem⟩

theorem passed_of_kept {policy : UiPolicy} {frame frame' : UiFrame}
    (hkept : Kept frame.nodes frame'.nodes) (hdepth : frameDepth frame' = frameDepth frame)
    (h : Passed u policy frame) : Passed u policy frame' := by
  have hinputs : frame'.inputs = frame.inputs := hkept.inputs
  have hactions : frame'.actions = frame.actions := hkept.buttons
  constructor
  . rw [hkept.length]
    exact h.nodes
  . rw [hdepth]
    exact h.depth
  . rw [hinputs]
    exact h.sensitive
  . rw [hactions]
    exact h.actions

theorem validate_redacted {frame : UiFrame} {root : UiNode} (hredacts : Redacts frame.root root)
    (h : frame.validate = .ok ()) : { frame with root }.validate = .ok () := by
  obtain ⟨hversion, seen, hseen, hsubmit⟩ := validate_eq_ok h
  exact validate_of_validateNode hversion (hredacts.valid _ _ _ hseen) hsubmit

def Verdict.isBlock : Verdict → Bool
  | .block _ _ => true
  | _ => false

theorem isBlock_of_actionBlock {policy : UiPolicy} {button : String × String × ActionClass}
    {verdict : Verdict} (h : actionBlock u policy button = some verdict)
    : verdict.isBlock = true := by
  obtain ⟨action, label, actionClass⟩ := button
  simp only [actionBlock] at h
  repeat' split at h
  all_goals
    cases h
    try rfl

theorem isBlock_of_sensitiveBlock {policy : UiPolicy} {sensitive : List String} {node : UiNode}
    {verdict : Verdict} (h : sensitiveBlock u policy sensitive node = some verdict)
    : verdict.isBlock = true := by
  unfold sensitiveBlock at h
  repeat' split at h
  all_goals
    cases h
    try rfl

theorem isBlock_of_mediaBlock {policy : UiPolicy} {node : UiNode} {verdict : Verdict}
    (h : mediaBlock u policy node = some verdict) : verdict.isBlock = true := by
  unfold mediaBlock at h
  split at h
  . obtain ⟨reason, -, rfl⟩ := Option.map_eq_some_iff.mp h
    rfl
  . cases h

theorem isBlock_of_blocked {policy : UiPolicy} {frame : UiFrame} {verdict : Verdict}
    (h : blocked u policy frame = some verdict) : verdict.isBlock = true := by
  unfold blocked at h
  split at h
  . cases h
    rfl
  . split at h
    . cases h
      rfl
    . simp only [Option.or_eq_some_iff] at h
      rcases h with h | ⟨-, h | ⟨-, h⟩⟩
      . obtain ⟨node, -, hnode⟩ := exists_of_findSome?_eq_some h
        exact isBlock_of_mediaBlock u hnode
      . split at h
        . cases h
        . obtain ⟨node, -, hnode⟩ := exists_of_findSome?_eq_some h
          exact isBlock_of_sensitiveBlock u hnode
      . obtain ⟨button, -, hbutton⟩ := exists_of_findSome?_eq_some h
        exact isBlock_of_actionBlock u hbutton

def Verdict.shown (frame : UiFrame) : Verdict → Option UiFrame
  | .allow => some frame
  | .redact redacted _ => some redacted
  | .block _ _ => none

theorem evaluate_shown {policy : UiPolicy} {frame frame' : UiFrame} {verdict : Verdict}
    (hvalid : frame.validate = .ok ()) (h : evaluate u policy frame = some verdict)
    (hshown : verdict.shown frame = some frame')
    : frame'.validate = .ok () ∧ Passed u policy frame' := by
  unfold evaluate at h
  split at h
  . next hblocked =>
    cases h
    have := isBlock_of_blocked u hblocked
    cases verdict <;> cases this
    cases hshown
  . next hblocked =>
    have hpassed := ((blocked_eq_none u).mp hblocked).1
    split at h
    . cases h
      cases hshown
      exact ⟨hvalid, hpassed⟩
    . split at h
      . cases h
      . next root hredact =>
        cases h
        cases hshown
        have hredacts := redactNode_redacts u hredact
        exact ⟨validate_redacted hredacts hvalid, passed_of_kept u hredacts.kept hredacts.depth hpassed⟩
      . cases h
        cases hshown
        exact ⟨hvalid, hpassed⟩

-- Every token of the policy that is not a run of alphanumeric characters has a run which is a token
-- of the policy too, or no frame with an input passes the other rules.
def Covered (policy : UiPolicy) : Prop :=
  policy.rules.allowSensitiveInputNames = true
    ∨ policy.rules.maxNodes < 3
    ∨ policy.rules.maxDepth < 2
    ∨ ∀ token ∈ policy.sensitiveTokens u, token = "" ∨ ∃ t ∈ policy.sensitiveTokens u, t ∈ u.runs token

theorem sensitive_of_covered {policy : UiPolicy} {frame : UiFrame} (hcovered : Covered u policy)
    (hvalid : frame.validate = .ok ()) (h : Passed u policy frame)
    (hallow : policy.rules.allowSensitiveInputNames = false) {input : String × String}
    (hinput : input ∈ frame.inputs) {field : String} (hfield : field ∈ [input.1, input.2])
    {token : String} (htoken : token ∈ policy.sensitiveTokens u) : u.lower field ≠ token := by
  intro hlower
  have hcontrols := three_nodes_of_inputs hvalid (ne_nil_of_mem hinput)
  have hnodes := h.nodes
  have hdepth := h.depth
  rcases hcovered with hcovered | hcovered | hcovered | hcovered
  . rw [hallow] at hcovered
    cases hcovered
  . omega
  . omega
  . rcases hcovered token htoken with hempty | ⟨t, ht, hrun⟩
    . have hnamed := named_of_validate hvalid input hinput
      have hne : field ≠ "" := by
        simp only [mem_cons, not_mem_nil, or_false] at hfield
        rcases hfield with rfl | rfl
        . exact hnamed.1
        . exact hnamed.2
      exact u.lower_ne_empty hne (hlower.trans hempty)
    . subst hlower
      exact h.sensitive hallow input hinput field hfield t ht hrun

theorem sound_of_passed {policy : UiPolicy} {frame : UiFrame} (hcovered : Covered u policy)
    (hvalid : frame.validate = .ok ()) (h : Passed u policy frame) : Sound u policy frame := by
  have hactions : ∀ button ∈ frame.actions, _ := fun button hbutton =>
    (actionBlock_eq_none u).mp (h.actions button hbutton)
  constructor
  . exact hvalid
  . exact h.nodes
  . exact h.depth
  . intro hallow button hbutton
    exact (hactions button hbutton).1 hallow
  . intro button hbutton
    exact (hactions button hbutton).2.1
  . intro button hbutton
    exact (hactions button hbutton).2.2
  . intro hallow input hinput field hfield token htoken
    constructor
    . exact sensitive_of_covered u hcovered hvalid h hallow hinput hfield htoken
    . exact h.sensitive hallow input hinput field hfield token htoken

def credentialFrame (token : String) : UiFrame where
  schemaVersion := "1.0.0"
  title := none
  provenance := {}
  root := .column [.textInput token token none false false, .button "go" "Go" .neutral]

theorem validate_credentialFrame {token : String} (hne : token ≠ "")
    : (credentialFrame token).validate = .ok () := by
  have hversion : ensureVersionSupported "1.0.0" = .ok () := by decide
  have hroot : validateNode 1 {} (credentialFrame token).root
      = .ok { count := 3, inputNames := [token], actionIds := ["go"] } := by
    simp [credentialFrame, validateNode, validateNodes, validateLeaf, registerInput, registerAction,
      hne, maxNodes, maxDepth]
  exact validate_of_validateNode hversion hroot (by simp)

theorem tokens_go : u.tokens "Go" = ["go"] := by
  have hlower : u.lower "Go" = "go" := by
    rw [u.lower_ascii (by simp [IsAscii])]
    decide
  rw [Unicode.tokens, hlower, u.runs_eq_singleton (by decide) (by decide)]

theorem evaluate_credentialFrame {policy : UiPolicy} {token : String}
    (hnodes : 3 ≤ policy.rules.maxNodes) (hdepth : 2 ≤ policy.rules.maxDepth)
    (h : ∀ t ∈ policy.sensitiveTokens u, t ∉ u.tokens token)
    : evaluate u policy (credentialFrame token) = some .allow := by
  have hblocked : blocked u policy (credentialFrame token) = none := by
    rw [blocked_eq_none]
    refine ⟨⟨hnodes, hdepth, ?_, ?_⟩, ?_⟩
    . intro _
      simpa [inputs, nodes, credentialFrame, collect, collectAll, UiNode.input?]
        using h
    . simp only [actions, nodes, credentialFrame, collect, collectAll, UiNode.button?,
        actionBlock_eq_none]
      simp [tokens_go, UiNode.button?, ActionClass.isAffirmative, destructiveLabelTokens]
    . simp [nodes, credentialFrame, collect, collectAll, mediaBlock]
  unfold evaluate
  rw [hblocked]
  dsimp only
  split
  . rfl
  . rfl

theorem runs_default : ∀ token ∈ defaultSensitiveInputTokens, u.runs token = [token] := by
  have hall : ∀ token ∈ defaultSensitiveInputTokens,
      token ≠ "" ∧ Unicode.asciiAlphanumeric token = true := by decide
  intro token htoken
  exact u.runs_eq_singleton (hall token htoken).1 (hall token htoken).2

theorem exists_credentialFrame_of_not_covered {policy : UiPolicy} (h : ¬Covered u policy)
    : ∃ token, (credentialFrame token).validate = .ok ()
        ∧ evaluate u policy (credentialFrame token) = some .allow
        ∧ ¬Sound u policy (credentialFrame token) := by
  simp only [Covered, not_or, not_forall, not_exists, not_and, not_lt] at h
  obtain ⟨hallow, hnodes, hdepth, effective, heffective, hne, hruns⟩ := h
  have hconfigured : ∃ token, u.lower token = effective := by
    unfold UiPolicy.sensitiveTokens at heffective
    split at heffective
    . next hdefault =>
      exfalso
      apply hruns effective
      . rw [UiPolicy.sensitiveTokens, if_pos hdefault]
        exact heffective
      . rw [runs_default u effective heffective]
        simp
    . obtain ⟨token, -, htoken⟩ := mem_map.mp heffective
      exact ⟨token, htoken⟩
  obtain ⟨token, rfl⟩ := hconfigured
  have htoken : token ≠ "" := by
    rintro rfl
    exact hne u.lower_empty
  refine ⟨token, validate_credentialFrame htoken, evaluate_credentialFrame u hnodes hdepth hruns, ?_⟩
  intro hsound
  have hinput : (token, token) ∈ (credentialFrame token).inputs := by
    simp [inputs, nodes, credentialFrame, collect, collectAll, UiNode.input?]
  have := hsound.sensitive (by simpa using hallow) _ hinput token (by simp) _ heffective
  exact this.1 rfl

end

end Wovyr.Ui
