import Wovyr.Workflow.Condition

/-!
This module contains the grammar of guard expressions with the meaning of an expression, and the
proof that the evaluation by repeated search for operators has this meaning.
-/

namespace Wovyr.Workflow.Condition

open List

def operatorChars : List Char :=
  ['=', '!', '>', '<', '&', '|']

theorem forall_mem_of_all {xs : List α} {P : α → Prop} [DecidablePred P] (h : (xs.all fun x => decide (P x)) = true)
    : ∀ x ∈ xs, P x := by
  simpa using h

structure IsIdent (ident : List Char) : Prop where
  ne_nil : ident ≠ []
  visible : ∀ c ∈ ident, Text.isWhitespace c = false
  free : ∀ c ∈ ident, c ∉ ['\'', '"', '.'] ++ operatorChars

def isNumeric (c : Char) : Bool :=
  c.isDigit || c ∈ ['+', '-', '.', 'e', 'E']

def pathText (head : List Char) (rest : List (List Char)) : List Char :=
  ['.'].intercalate (head :: rest)

inductive Operand (p : Platform) where
  | quoted (q : Char) (content : List Char) (hq : q = '\'' ∨ q = '"') (hfree : q ∉ content)
  | number (digits : List Char) (n : Rat) (hdigits : ∀ c ∈ digits, isNumeric c = true) (hne : digits ≠ [])
      (hparse : p.parseF64 (String.ofList digits) = some n)
  | bool (b : Bool)
  | null
  | path (head : List Char) (rest : List (List Char)) (hidents : ∀ ident ∈ head :: rest, IsIdent ident)
      (hword : String.ofList (pathText head rest) ∉ ["true", "false", "null"])
      (hparse : p.parseF64 (String.ofList (pathText head rest)) = none)

inductive Comparison (p : Platform) where
  | test (operand : Operand p)
  | compare (lhs : Operand p) (op : Operator) (rhs : Operand p)

inductive Conjunction (p : Platform) where
  | one (comparison : Comparison p)
  | and (comparison : Comparison p) (rest : Conjunction p)

inductive Guard (p : Platform) where
  | one (conjunction : Conjunction p)
  | or (conjunction : Conjunction p) (rest : Guard p)

section

variable {p : Platform}

def Operand.token : Operand p → List Char
  | .quoted q content _ _ => q :: (content ++ [q])
  | .number digits _ _ _ _ => digits
  | .bool true => "true".toList
  | .bool false => "false".toList
  | .null => "null".toList
  | .path head rest _ _ _ => pathText head rest

def Operand.Renders (operand : Operand p) (text : List Char) : Prop :=
  ∃ before after, (∀ c ∈ before ++ after, Text.isWhitespace c = true) ∧ text = before ++ operand.token ++ after

def Around (R : List Char → Prop) (token : List Char) (S : List Char → Prop) (text : List Char) : Prop :=
  ∃ l r, R l ∧ S r ∧ text = l ++ (token ++ r)

def Comparison.Renders : Comparison p → List Char → Prop
  | .test operand => operand.Renders
  | .compare lhs op rhs => Around lhs.Renders op.text rhs.Renders

def Conjunction.Renders : Conjunction p → List Char → Prop
  | .one comparison => comparison.Renders
  | .and comparison rest => Around comparison.Renders ['&', '&'] rest.Renders

def Guard.Renders : Guard p → List Char → Prop
  | .one conjunction => conjunction.Renders
  | .or conjunction rest => Around conjunction.Renders ['|', '|'] rest.Renders

def descend (v : Value) : List (List Char) → Value
  | [] => v
  | ident :: idents =>
    match field? (String.ofList ident) v with
    | some w => descend w idents
    | none => .null

section

variable (vars : Variables)

def Operand.value : Operand p → Value
  | .quoted _ content _ _ => .string (String.ofList content)
  | .number _ n _ _ _ => .float n
  | .bool b => .bool b
  | .null => .null
  | .path head rest _ _ _ =>
    match vars[String.ofList head]? with
    | some v => descend v rest
    | none => .null

end

/--
Two JSON values are equal. The fields of an object have no order.
-/
inductive Equal : Value → Value → Prop where
  | plain {v : Value} : (∀ xs, v ≠ .array xs) → (∀ fields, v ≠ .object fields) → Equal v v
  | array {xs ys : List Value} : Forall₂ Equal xs ys → Equal (.array xs) (.array ys)
  | object {fields other : List (String × Value)} {value : String → Value} : fields.length = other.length
    → (∀ key v, (key, v) ∈ fields → other.lookup key = some (value key))
    → (∀ key v, (key, v) ∈ fields → Equal v (value key)) → Equal (.object fields) (.object other)

variable (p) in
def Same (v w : Value) : Prop :=
  Equal v w ∨ ∃ n, asF64 p v = some n ∧ asF64 p w = some n

variable (p) in
def Ordered (R : Rat → Rat → Prop) (v w : Value) : Prop :=
  ∃ m n, asF64 p v = some m ∧ asF64 p w = some n ∧ R m n

variable (p) in
def Operator.Holds (v w : Value) : Operator → Prop
  | .eq => Same p v w
  | .ne => ¬Same p v w
  | .ge => Ordered p (fun m n => m ≥ n) v w
  | .le => Ordered p (fun m n => m ≤ n) v w
  | .gt => Ordered p (fun m n => m > n) v w
  | .lt => Ordered p (fun m n => m < n) v w

def Truthy (v : Value) : Prop :=
  v ∉ [.null, .bool false, .string "", .int 0, .float 0]

section

variable (vars : Variables)

def Comparison.Holds : Comparison p → Prop
  | .test operand => Truthy (operand.value vars)
  | .compare lhs op rhs => op.Holds p (lhs.value vars) (rhs.value vars)

def Conjunction.Holds : Conjunction p → Prop
  | .one comparison => comparison.Holds vars
  | .and comparison rest => comparison.Holds vars ∧ rest.Holds

def Guard.Holds : Guard p → Prop
  | .one conjunction => conjunction.Holds vars
  | .or conjunction rest => conjunction.Holds vars ∨ rest.Holds

end

end

inductive Silent (bad : List Char) : List Char → Prop where
  | nil : Silent bad []
  | plain {c : Char} {text : List Char} (hc : c ∉ ['\'', '"'] ++ bad) (h : Silent bad text) : Silent bad (c :: text)
  | quoted {q : Char} {content text : List Char} (hq : q = '\'' ∨ q = '"') (hfree : q ∉ content)
      (h : Silent bad text) : Silent bad (q :: (content ++ q :: text))

namespace Silent

variable {bad bad' text text' : List Char}

theorem of_forall (h : ∀ c ∈ text, c ∉ ['\'', '"'] ++ bad) : Silent bad text := by
  induction text with
  | nil => exact .nil
  | cons c text ih =>
    obtain ⟨hc, htext⟩ := List.forall_mem_cons.mp h
    exact .plain hc (ih htext)

theorem append (h : Silent bad text) (h' : Silent bad text') : Silent bad (text ++ text') := by
  induction h with
  | nil => exact h'
  | plain hc _ ih => exact .plain hc ih
  | quoted hq hfree _ ih =>
    rw [List.cons_append, List.append_assoc, List.cons_append]
    exact .quoted hq hfree ih

theorem mono (h : Silent bad text) (hsub : bad' ⊆ bad) : Silent bad' text := by
  induction h with
  | nil => exact .nil
  | plain hc _ ih =>
    refine .plain ?_ ih
    intro hmem
    exact hc (List.append_subset.mpr ⟨List.subset_append_left _ _, List.subset_append_of_subset_right _ hsub⟩ hmem)
  | quoted hq hfree _ ih => exact .quoted hq hfree ih

end Silent

theorem findOp_quote {op before content rest : List Char} {q : Char} (hfree : q ∉ content)
    : findOp op (some q) before (content ++ q :: rest)
        = findOp op none ((content ++ [q]).reverse ++ before) rest := by
  induction content generalizing before with
  | nil => simp [findOp]
  | cons c content ih =>
    obtain ⟨hc, hfree⟩ := not_or.mp (List.mem_cons.not.mp hfree)
    rw [List.cons_append, findOp, if_neg (Ne.symm hc), ih hfree]
    simp

theorem findOp_skip {op before rest : List Char} {c : Char} (hc : c ∉ ['\'', '"'])
    (hop : op.isPrefixOf (c :: rest) = false)
    : findOp op none before (c :: rest) = findOp op none (c :: before) rest := by
  rw [mem_pair] at hc
  rw [findOp, if_neg hc, if_neg (Bool.eq_false_iff.mp hop)]

theorem Silent.findOp {bad text : List Char} (h : Silent bad text) {o : Char} (ho : o ∈ bad)
    (op before rest : List Char)
    : findOp (o :: op) none before (text ++ rest) = findOp (o :: op) none (text.reverse ++ before) rest := by
  induction h generalizing before with
  | nil => rfl
  | plain hc _ ih =>
    obtain ⟨hquote, hbad⟩ := not_or.mp (mem_append.not.mp hc)
    rw [cons_append, findOp_skip hquote, ih]
    . simp
    . rw [isPrefixOf_cons_cons, Bool.and_eq_false_iff, beq_eq_false_iff_ne]
      refine .inl ?_
      rintro rfl
      exact hbad ho
  | quoted hq hfree _ ih =>
    rw [cons_append, Condition.findOp, if_pos hq, append_assoc, cons_append, findOp_quote hfree, ih]
    simp

theorem Silent.findOp_none {bad text : List Char} (h : Silent bad text) {o : Char} (ho : o ∈ bad)
    (op before : List Char) : Condition.findOp (o :: op) none before text = none := by
  have hskip := h.findOp ho op before []
  rw [append_nil] at hskip
  rw [hskip, Condition.findOp]

theorem findOp_hit {op before rest : List Char} {o : Char} (ho : o ∉ ['\'', '"'])
    : findOp (o :: op) none before (o :: op ++ rest) = some (before.reverse, rest) := by
  rw [List.mem_pair] at ho
  rw [List.cons_append, findOp, if_neg ho, if_pos]
  . simp
  . rw [List.isPrefixOf_iff_prefix]
    exact List.prefix_append (o :: op) rest

theorem splitTop_silent {sep : Char} {text : List Char} (h : Silent [sep] text) : splitTop sep text = [text] := by
  unfold splitTop
  split
  . rfl
  . next hfind =>
    rw [h.findOp_none List.mem_cons_self] at hfind
    cases hfind

theorem splitTop_append {sep : Char} {text rest : List Char} (h : Silent [sep] text) (hsep : sep ∉ ['\'', '"'])
    : splitTop sep (text ++ ([sep, sep] ++ rest)) = text :: splitTop sep rest := by
  have hfind : findOp [sep, sep] none [] (text ++ ([sep, sep] ++ rest)) = some (text, rest) := by
    rw [h.findOp mem_cons_self, findOp_hit hsep]
    simp
  conv =>
    lhs
    unfold splitTop
  split
  . next hnone =>
    rw [hfind] at hnone
    cases hnone
  . next hsome =>
    rw [hfind] at hsome
    cases hsome
    rfl

theorem Silent.not_prefix {text : List Char} (h : Silent operatorChars text) : ['='].isPrefixOf text = false := by
  cases h with
  | nil => rfl
  | plain hc _ =>
    rw [isPrefixOf_cons_cons, isPrefixOf_nil_left, Bool.and_true, beq_eq_false_iff_ne]
    rintro rfl
    exact hc (by decide)
  | quoted hq _ _ =>
    rw [isPrefixOf_cons_cons, isPrefixOf_nil_left, Bool.and_true, beq_eq_false_iff_ne]
    rintro rfl
    exact absurd hq (by decide)

theorem findOp_miss {op text r : List Char} {o : Char} (hr : Silent operatorChars r) (ho : o ∈ operatorChars)
    (hquote : ∀ c ∈ text, c ∉ ['\'', '"'])
    (hmiss : ∀ t ∈ text.tails, t ≠ [] → (o :: op).isPrefixOf (t ++ r) = false) (before : List Char)
    : findOp (o :: op) none before (text ++ r) = none := by
  induction text generalizing before with
  | nil => exact hr.findOp_none ho op before
  | cons c text ih =>
    obtain ⟨hc, hquote⟩ := List.forall_mem_cons.mp hquote
    rw [List.tails, List.forall_mem_cons] at hmiss
    have hfirst : (o :: op).isPrefixOf (c :: (text ++ r)) = false := hmiss.1 (List.cons_ne_nil _ _)
    rw [List.cons_append, findOp_skip hc hfirst]
    exact ih hquote hmiss.2 _

theorem findSome_operators {l r : List Char} (hl : Silent operatorChars l) (hr : Silent operatorChars r)
    (op : Operator)
    : (operators.findSome? fun op' => (findOp op'.text none [] (l ++ (op.text ++ r))).map fun sides => (op', sides))
        = some (op, l, r) := by
  have hprefix := hr.not_prefix
  have hhit (o : Char) (rest : List Char) (ho : o ∈ operatorChars)
      : findOp (o :: rest) none [] (l ++ (o :: rest ++ r)) = some (l, r) := by
    rw [hl.findOp ho, findOp_hit]
    . simp
    . revert o
      simp [operatorChars]
  have hmiss (o : Char) (rest text : List Char) (ho : o ∈ operatorChars) (hquote : ∀ c ∈ text, c ∉ ['\'', '"'])
      (hmiss : ∀ t ∈ text.tails, t ≠ [] → (o :: rest).isPrefixOf (t ++ r) = false)
      : findOp (o :: rest) none [] (l ++ (text ++ r)) = none := by
    rw [hl.findOp ho, findOp_miss hr ho hquote hmiss]
  cases op <;> simp only [operators, findSome?_cons, Operator.text]
  . rw [hhit _ _ (by decide)]
    rfl
  . rw [hmiss '=' ['='] ['!', '='] (by decide) (by simp) (by simp [isPrefixOf_cons_cons, hprefix]),
      hhit _ _ (by decide)]
    rfl
  . rw [hmiss '=' ['='] ['>', '='] (by decide) (by simp) (by simp [isPrefixOf_cons_cons, hprefix]),
      hmiss '!' ['='] ['>', '='] (by decide) (by simp) (by simp [isPrefixOf_cons_cons]), hhit _ _ (by decide)]
    rfl
  . rw [hmiss '=' ['='] ['<', '='] (by decide) (by simp) (by simp [isPrefixOf_cons_cons, hprefix]),
      hmiss '!' ['='] ['<', '='] (by decide) (by simp) (by simp [isPrefixOf_cons_cons]),
      hmiss '>' ['='] ['<', '='] (by decide) (by simp) (by simp [isPrefixOf_cons_cons]), hhit _ _ (by decide)]
    rfl
  . rw [hmiss '=' ['='] ['>'] (by decide) (by simp) (by simp [isPrefixOf_cons_cons]),
      hmiss '!' ['='] ['>'] (by decide) (by simp) (by simp [isPrefixOf_cons_cons]),
      hmiss '>' ['='] ['>'] (by decide) (by simp) (by simp [isPrefixOf_cons_cons, hprefix]),
      hmiss '<' ['='] ['>'] (by decide) (by simp) (by simp [isPrefixOf_cons_cons]), hhit _ _ (by decide)]
    rfl
  . rw [hmiss '=' ['='] ['<'] (by decide) (by simp) (by simp [isPrefixOf_cons_cons]),
      hmiss '!' ['='] ['<'] (by decide) (by simp) (by simp [isPrefixOf_cons_cons]),
      hmiss '>' ['='] ['<'] (by decide) (by simp) (by simp [isPrefixOf_cons_cons]),
      hmiss '<' ['='] ['<'] (by decide) (by simp) (by simp [isPrefixOf_cons_cons, hprefix]),
      hmiss '>' [] ['<'] (by decide) (by simp) (by simp [isPrefixOf_cons_cons]), hhit _ _ (by decide)]
    rfl

theorem findSome_operators_none {text : List Char} (h : Silent operatorChars text)
    : (operators.findSome? fun op => (findOp op.text none [] text).map fun sides => (op, sides)) = none := by
  rw [findSome?_eq_none_iff]
  intro op _
  cases op <;> exact congrArg (Option.map _) (h.findOp_none (by decide) _ _)

structure Trimmable (R : List Char → Prop) : Prop where
  ne_nil : ∀ text, R text → text ≠ []
  left : ∀ text, R text → R (text.dropWhile Text.isWhitespace)
  right : ∀ text, R text → R (text.rdropWhile Text.isWhitespace)

theorem Trimmable.trim {R : List Char → Prop} (h : Trimmable R) {text : List Char} (htext : R text)
    : R (trim text) :=
  h.right _ (h.left _ htext)

theorem Trimmable.around {R S : List Char → Prop} (hR : Trimmable R) (hS : Trimmable S) (token : List Char)
    : Trimmable (Around R token S) := by
  refine ⟨?_, ?_, ?_⟩
  . rintro text ⟨l, r, hl, hr, rfl⟩ hnil
    exact hR.ne_nil l hl (append_eq_nil_iff.mp hnil).1
  . rintro text ⟨l, r, hl, hr, rfl⟩
    refine ⟨_, r, hR.left l hl, hr, ?_⟩
    rw [dropWhile_append, if_neg]
    rw [List.isEmpty_iff]
    exact hR.ne_nil _ (hR.left l hl)
  . rintro text ⟨l, r, hl, hr, rfl⟩
    refine ⟨l, _, hl, hS.right r hr, ?_⟩
    have hne := hS.ne_nil _ (hS.right r hr)
    unfold rdropWhile at hne ⊢
    rw [reverse_append, reverse_append, append_assoc, dropWhile_append, if_neg]
    . simp
    . rw [List.isEmpty_iff]
      exact fun hnil => hne (congrArg reverse hnil)

section

variable {p : Platform}

theorem IsIdent.visible_text {ident : List Char} (h : IsIdent ident)
    : ∀ c ∈ ident, Text.isWhitespace c = false ∧ c ∉ ['\'', '"'] ++ operatorChars := by
  intro c hc
  refine ⟨h.visible c hc, ?_⟩
  intro hmem
  apply h.free c hc
  rcases List.mem_append.mp hmem with hquote | hop
  . exact List.mem_append_left _ (List.mem_append_left ['.'] hquote)
  . exact List.mem_append_right _ hop

theorem isNumeric_visible {c : Char} (h : isNumeric c = true)
    : Text.isWhitespace c = false ∧ c ∉ ['\'', '"'] ++ operatorChars := by
  unfold isNumeric at h
  rw [Bool.or_eq_true, decide_eq_true_eq] at h
  cases h with
  | inr hmem =>
    have hmarks : ∀ c ∈ ['+', '-', '.', 'e', 'E'],
        Text.isWhitespace c = false ∧ c ∉ ['\'', '"'] ++ operatorChars :=
      forall_mem_of_all (by decide)
    exact hmarks c hmem
  | inl hdigit =>
    have hrange : 48 ≤ c.toNat ∧ c.toNat ≤ 57 := by
      simpa [Char.isDigit, Char.le_def, UInt32.le_iff_toNat_le] using hdigit
    constructor
    . unfold Text.isWhitespace
      simp
      omega
    . intro hmem
      have hnone : ∀ c' ∈ ['\'', '"'] ++ operatorChars, ¬(48 ≤ c'.toNat ∧ c'.toNat ≤ 57) :=
        forall_mem_of_all (by decide)
      exact hnone c hmem hrange

theorem Operand.token_bare {operand : Operand p}
    (hquoted : ∀ q content hq hfree, operand ≠ .quoted q content hq hfree)
    : operand.token ≠ [] ∧ ∀ c ∈ operand.token, Text.isWhitespace c = false ∧ c ∉ ['\'', '"'] ++ operatorChars := by
  have hwords : ∀ word ∈ ["true".toList, "false".toList, "null".toList],
      word ≠ [] ∧ ∀ c ∈ word, Text.isWhitespace c = false ∧ c ∉ ['\'', '"'] ++ operatorChars := by
    intro word hword
    refine ⟨?_, forall_mem_of_all ?_⟩
    . revert word
      decide
    . revert word
      decide
  cases operand with
  | quoted q content hq hfree => exact absurd rfl (hquoted q content hq hfree)
  | number digits n hdigits hne hparse => exact ⟨hne, fun c hc => isNumeric_visible (hdigits c hc)⟩
  | bool b => cases b <;> exact hwords _ (by simp [Operand.token])
  | null => exact hwords _ (by simp [Operand.token])
  | path head rest hidents hword hparse =>
    change pathText head rest ≠ [] ∧ ∀ c ∈ pathText head rest, _
    unfold pathText
    clear hword hparse hquoted
    induction rest generalizing head with
    | nil =>
      rw [intercalate_singleton]
      exact ⟨(hidents head mem_cons_self).ne_nil, (hidents head mem_cons_self).visible_text⟩
    | cons ident rest ih =>
      obtain ⟨hhead, hrest⟩ := forall_mem_cons.mp hidents
      rw [intercalate_cons_cons]
      refine ⟨?_, ?_⟩
      . exact fun hnil => hhead.ne_nil (append_eq_nil_iff.mp (append_eq_nil_iff.mp hnil).1).1
      . intro c hc
        rcases mem_append.mp hc with hc | hc
        . rcases mem_append.mp hc with hc | hc
          . exact hhead.visible_text c hc
          . rw [mem_singleton.mp hc]
            decide
        . exact (ih ident hrest).2 c hc

theorem Operand.silent_token (operand : Operand p) : Silent operatorChars operand.token := by
  cases operand with
  | quoted q content hq hfree => exact .quoted hq hfree .nil
  | _ => exact .of_forall fun c hc => ((Operand.token_bare (by simp)).2 c hc).2

theorem Operand.renders_silent {operand : Operand p} {text : List Char} (h : operand.Renders text)
    : Silent operatorChars text := by
  obtain ⟨before, after, hblank, rfl⟩ := h
  have hvisible : ∀ c ∈ ['\'', '"'] ++ operatorChars, Text.isWhitespace c = false :=
    forall_mem_of_all (by decide)
  have hsilent (blanks : List Char) (hsub : blanks ⊆ before ++ after) : Silent operatorChars blanks := by
    apply Silent.of_forall
    intro c hc hmem
    exact Bool.false_ne_true ((hvisible c hmem).symm.trans (hblank c (hsub hc)))
  exact ((hsilent before (List.subset_append_left _ _)).append operand.silent_token).append
    (hsilent after (List.subset_append_right _ _))

def Tight (text : List Char) : Prop :=
  (∃ c rest, text = c :: rest ∧ Text.isWhitespace c = false)
    ∧ ∃ rest c, text = rest ++ [c] ∧ Text.isWhitespace c = false

theorem Tight.dropWhile {token before after : List Char} (h : Tight token)
    (hbefore : ∀ c ∈ before, Text.isWhitespace c = true)
    : (before ++ token ++ after).dropWhile Text.isWhitespace = token ++ after := by
  obtain ⟨⟨c, rest, rfl, hc⟩, -⟩ := h
  rw [List.append_assoc, List.dropWhile_append_of_pos hbefore, List.cons_append, List.dropWhile_cons_of_neg]
  exact Bool.eq_false_iff.mp hc

theorem Tight.rdropWhile {token before after : List Char} (h : Tight token)
    (hafter : ∀ c ∈ after, Text.isWhitespace c = true)
    : (before ++ token ++ after).rdropWhile Text.isWhitespace = before ++ token := by
  obtain ⟨-, rest, c, rfl, hc⟩ := h
  have hreverse : ∀ c ∈ after.reverse, Text.isWhitespace c = true := by
    intro c hc
    exact hafter c (List.mem_reverse.mp hc)
  unfold List.rdropWhile
  rw [List.reverse_append, List.dropWhile_append_of_pos hreverse, ← List.append_assoc, List.reverse_append,
    List.reverse_singleton, List.singleton_append, List.dropWhile_cons_of_neg (Bool.eq_false_iff.mp hc)]
  simp

theorem Operand.tight_token (operand : Operand p) : Tight operand.token := by
  have hbare (hquoted : ∀ q content hq hfree, operand ≠ .quoted q content hq hfree) : Tight operand.token := by
    obtain ⟨hne, hvisible⟩ := operand.token_bare hquoted
    obtain ⟨c, rest, hcons⟩ := List.exists_cons_of_ne_nil hne
    obtain ⟨rest', c', hlast⟩ := List.eq_nil_or_concat operand.token |>.resolve_left hne
    rw [List.concat_eq_append] at hlast
    refine ⟨⟨c, rest, hcons, (hvisible c ?_).1⟩, rest', c', hlast, (hvisible c' ?_).1⟩
    . rw [hcons]
      exact List.mem_cons_self
    . rw [hlast]
      exact List.mem_append_right _ List.mem_cons_self
  cases operand with
  | quoted q content hq hfree =>
    have hvisible : Text.isWhitespace q = false := by
      rcases hq with rfl | rfl <;> decide
    exact ⟨⟨q, content ++ [q], rfl, hvisible⟩, q :: content, q, rfl, hvisible⟩
  | _ => exact hbare (by simp)

theorem Operand.trimmable (operand : Operand p) : Trimmable operand.Renders := by
  refine ⟨?_, ?_, ?_⟩
  . rintro text ⟨before, after, -, rfl⟩ hnil
    obtain ⟨⟨c, rest, hcons, -⟩, -⟩ := operand.tight_token
    rw [hcons] at hnil
    simp at hnil
  . rintro text ⟨before, after, hblank, rfl⟩
    rw [operand.tight_token.dropWhile fun c hc => hblank c (List.mem_append_left _ hc)]
    exact ⟨[], after, fun c hc => hblank c (List.mem_append_right _ hc), rfl⟩
  . rintro text ⟨before, after, hblank, rfl⟩
    rw [operand.tight_token.rdropWhile fun c hc => hblank c (List.mem_append_right _ hc)]
    refine ⟨before, [], ?_, (List.append_nil _).symm⟩
    rw [List.append_nil]
    exact fun c hc => hblank c (List.mem_append_left _ hc)

theorem Comparison.trimmable (comparison : Comparison p) : Trimmable comparison.Renders := by
  cases comparison with
  | test operand => exact operand.trimmable
  | compare lhs op rhs => exact lhs.trimmable.around rhs.trimmable op.text

theorem Conjunction.trimmable (conjunction : Conjunction p) : Trimmable conjunction.Renders := by
  induction conjunction with
  | one comparison => exact comparison.trimmable
  | and comparison rest ih => exact comparison.trimmable.around ih ['&', '&']

theorem Guard.trimmable (guard : Guard p) : Trimmable guard.Renders := by
  induction guard with
  | one conjunction => exact conjunction.trimmable
  | or conjunction rest ih => exact conjunction.trimmable.around ih ['|', '|']

theorem Comparison.renders_silent {comparison : Comparison p} {text : List Char} (h : comparison.Renders text)
    : Silent ['&', '|'] text := by
  cases comparison with
  | test operand => exact (Operand.renders_silent h).mono (by decide)
  | compare lhs op rhs =>
    obtain ⟨l, r, hl, hr, rfl⟩ := h
    have hop : Silent ['&', '|'] op.text := by
      apply Silent.of_forall
      cases op <;> exact forall_mem_of_all (by decide)
    exact ((Operand.renders_silent hl).mono (by decide)).append
      (hop.append ((Operand.renders_silent hr).mono (by decide)))

theorem Conjunction.renders_silent {conjunction : Conjunction p} {text : List Char}
    (h : conjunction.Renders text) : Silent ['|'] text := by
  induction conjunction generalizing text with
  | one comparison => exact (Comparison.renders_silent h).mono (by decide)
  | and comparison rest ih =>
    obtain ⟨l, r, hl, hr, rfl⟩ := h
    have hand : Silent ['|'] ['&', '&'] := .of_forall (forall_mem_of_all (by decide))
    exact ((Comparison.renders_silent hl).mono (by decide)).append (hand.append (ih hr))

theorem trim_renders {operand : Operand p} {text : List Char} (h : operand.Renders text)
    : trim text = operand.token := by
  obtain ⟨before, after, hblank, rfl⟩ := h
  unfold trim
  rw [operand.tight_token.dropWhile fun c hc => hblank c (List.mem_append_left _ hc)]
  exact @Tight.rdropWhile _ [] _ operand.tight_token fun c hc => hblank c (List.mem_append_right _ hc)

theorem quoted_bare {operand : Operand p} (hquoted : ∀ q content hq hfree, operand ≠ .quoted q content hq hfree)
    : (quoted '\'' operand.token || quoted '"' operand.token) = false := by
  obtain ⟨hne, hvisible⟩ := operand.token_bare hquoted
  obtain ⟨c, rest, hcons⟩ := exists_cons_of_ne_nil hne
  have hc := (hvisible c (hcons ▸ mem_cons_self)).2
  have hhead (q : Char) (hq : q ∈ ['\'', '"']) : quoted q operand.token = false := by
    unfold quoted
    rw [hcons, List.head?_cons, beq_eq_false_iff_ne.mpr]
    . rfl
    . intro heq
      cases heq
      exact hc (List.mem_append_left _ hq)
  rw [hhead _ (by decide), hhead _ (by decide)]
  rfl

section

variable (vars : Variables)

theorem foldlM_descend (v : Value) (rest : List (List Char))
    : ((rest.map String.ofList).foldlM (fun current part => field? part current) v).getD .null = descend v rest := by
  induction rest generalizing v with
  | nil => rfl
  | cons ident rest ih =>
    rw [List.map_cons, List.foldlM_cons, descend]
    cases field? (String.ofList ident) v with
    | none => rfl
    | some w => exact ih w

theorem lookupPath_path {head : List Char} {rest : List (List Char)}
    (hidents : ∀ ident ∈ head :: rest, IsIdent ident)
    : lookupPath vars (String.ofList (pathText head rest))
        = (match vars[String.ofList head]? with
          | some v => descend v rest
          | none => .null) := by
  have hsplit : Text.split '.' (String.ofList (pathText head rest)) = (head :: rest).map String.ofList := by
    unfold Text.split pathText
    rw [String.toList_ofList, List.splitOn_intercalate '.' _ (List.cons_ne_nil _ _)]
    intro ident hident hdot
    exact (hidents ident hident).free '.' hdot (by decide)
  unfold lookupPath
  rw [hsplit, List.map_cons]
  dsimp only
  cases vars[String.ofList head]? with
  | none => rfl
  | some v => exact foldlM_descend v rest

theorem resolve_renders {operand : Operand p} {text : List Char} (h : operand.Renders text)
    : resolve p vars text = operand.value vars := by
  unfold resolve
  dsimp only
  rw [trim_renders h]
  cases operand with
  | quoted q content hq hfree =>
    rw [if_pos]
    . unfold Operand.token Operand.value
      simp
    . have hlast : (q :: (content ++ [q])).getLast? = some q := List.getLast?_append_of_ne_nil (q :: content) (by simp)
      unfold quoted Operand.token
      rcases hq with rfl | rfl <;> simp [hlast]
  | number digits n hdigits hne hparse =>
    have hword (word : String) (hmem : ∃ c ∈ word.toList, isNumeric c = false) : String.ofList digits ≠ word := by
      rintro rfl
      obtain ⟨c, hc, hnumeric⟩ := hmem
      rw [String.toList_ofList] at hc
      rw [hdigits c hc] at hnumeric
      cases hnumeric
    have htrue := hword "true" ⟨'t', by decide, by decide⟩
    have hfalse := hword "false" ⟨'f', by decide, by decide⟩
    have hnull := hword "null" ⟨'n', by decide, by decide⟩
    rw [quoted_bare (by simp), if_neg Bool.false_ne_true]
    unfold Operand.token Operand.value
    split
    . next heq => exact absurd heq htrue
    . next heq => exact absurd heq hfalse
    . next heq => exact absurd heq hnull
    . rw [hparse]
  | bool b =>
    rw [quoted_bare (by simp), if_neg Bool.false_ne_true]
    cases b <;> rfl
  | null =>
    rw [quoted_bare (by simp), if_neg Bool.false_ne_true]
    rfl
  | path head rest hidents hword hparse =>
    simp only [List.mem_cons, List.not_mem_nil, or_false, not_or] at hword
    obtain ⟨htrue, hfalse, hnull⟩ := hword
    rw [quoted_bare (by simp), if_neg Bool.false_ne_true]
    unfold Operand.token Operand.value
    split
    . next heq => exact absurd heq htrue
    . next heq => exact absurd heq hfalse
    . next heq => exact absurd heq hnull
    . rw [hparse]
      exact lookupPath_path vars hidents

mutual

theorem equals_iff (v w : Value) : v.equals w = true ↔ Equal v w := by
  cases v with
  | array xs =>
    cases w with
    | array ys =>
      rw [Value.equals, equalsAll_iff xs ys]
      constructor
      . exact .array
      . intro h
        cases h with
        | plain hxs => exact absurd rfl (hxs xs)
        | array h => exact h
    | _ => 
      refine iff_of_false (by simp [Value.equals]) ?_
      intro h
      cases h
  | object fields =>
    cases w with
    | object other =>
      rw [Value.equals, Bool.and_eq_true, beq_iff_eq, equalsFields_iff fields other]
      constructor
      . rintro ⟨hlength, h⟩
        have hvalue (key : String) : ∃ value, ∀ v, (key, v) ∈ fields → other.lookup key = some value ∧ Equal v value := by
          by_cases hkey : ∃ v, (key, v) ∈ fields
          . obtain ⟨v, hv⟩ := hkey
            obtain ⟨w, hw, -⟩ := h key v hv
            refine ⟨w, fun v' hv' => ?_⟩
            obtain ⟨w', hw', heq⟩ := h key v' hv'
            cases hw.symm.trans hw'
            exact ⟨hw, heq⟩
          . exact ⟨.null, fun v hv => absurd ⟨v, hv⟩ hkey⟩
        choose value hvalue using hvalue
        exact .object hlength (fun key v hv => (hvalue key v hv).1) fun key v hv => (hvalue key v hv).2
      . intro h
        cases h with
        | plain _ hfields => exact absurd rfl (hfields fields)
        | object hlength hother h => exact ⟨hlength, fun key v hv => ⟨_, hother key v hv, h key v hv⟩⟩
    | _ =>
      refine iff_of_false (by simp [Value.equals]) ?_
      intro h
      cases h
  | _ =>
    rw [show Value.equals _ w = (_ == w) by cases w <;> rfl, beq_iff_eq]
    constructor
    . rintro rfl
      exact .plain nofun nofun
    . intro h
      cases h
      rfl
termination_by structural v

theorem equalsAll_iff (xs ys : List Value) : Value.equalsAll xs ys = true ↔ List.Forall₂ Equal xs ys := by
  match xs, ys with
  | [], [] => simp [Value.equalsAll]
  | [], y :: ys => exact iff_of_false (by simp [Value.equalsAll]) nofun
  | x :: xs, [] => exact iff_of_false (by simp [Value.equalsAll]) nofun
  | x :: xs, y :: ys =>
    rw [Value.equalsAll, Bool.and_eq_true, equals_iff x y, equalsAll_iff xs ys, List.forall₂_cons]
termination_by structural xs

theorem equalsFields_iff (fields other : List (String × Value)) : Value.equalsFields fields other = true
    ↔ ∀ key v, (key, v) ∈ fields → ∃ w, other.lookup key = some w ∧ Equal v w := by
  match fields with
  | [] => simp [Value.equalsFields]
  | (key, v) :: fields =>
    rw [Value.equalsFields, Bool.and_eq_true, equalsFields_iff fields other, Option.any_eq_true]
    simp only [equals_iff v]
    constructor
    . rintro ⟨hfirst, h⟩ key' v' hmem
      cases hmem with
      | head => exact hfirst
      | tail _ hmem => exact h key' v' hmem
    . intro h
      exact ⟨h key v List.mem_cons_self, fun key' v' hmem => h key' v' (List.mem_cons_of_mem _ hmem)⟩
termination_by structural fields

end

theorem valuesEqual_iff (v w : Value) : valuesEqual p v w = true ↔ Same p v w := by
  unfold valuesEqual Same
  constructor
  . intro h
    split at h
    . next x y hx hy =>
      rw [hx, hy, eq_of_beq h]
      exact .inr ⟨y, rfl, rfl⟩
    . exact .inl ((equals_iff v w).mp h)
  . rintro (h | ⟨n, hv, hw⟩)
    . split
      . next x y hx hy =>
        cases h with
        | plain => exact beq_iff_eq.mpr (Option.some.inj (hx.symm.trans hy))
        | array => cases hx
        | object => cases hx
      . exact (equals_iff v w).mpr h
    . rw [hv, hw]
      exact beq_self_eq_true n

theorem ordered_iff (R : Rat → Rat → Prop) [DecidableRel R] (v w : Value)
    : ((asF64 p v).any fun m => (asF64 p w).any fun n => decide (R m n)) = true ↔ Ordered p R v w := by
  unfold Ordered
  cases asF64 p v <;> cases asF64 p w <;> simp

theorem apply_iff (op : Operator) (v w : Value) : op.apply p v w = true ↔ op.Holds p v w := by
  cases op with
  | eq => exact valuesEqual_iff v w
  | ne =>
    unfold Operator.apply Operator.Holds
    rw [Bool.not_eq_true', ← valuesEqual_iff, Bool.not_eq_true]
  | ge => exact ordered_iff (fun m n => n ≤ m) v w
  | le => exact ordered_iff (fun m n => m ≤ n) v w
  | gt => exact ordered_iff (fun m n => n < m) v w
  | lt => exact ordered_iff (fun m n => m < n) v w

theorem truthy_iff (v : Value) : truthy v = true ↔ Truthy v := by
  unfold truthy Truthy
  cases v <;> simp

def Decides (result : Except String Bool) (P : Prop) : Prop :=
  ∃ b, result = .ok b ∧ (b = true ↔ P)

theorem evalCompare_renders {comparison : Comparison p} {text : List Char} (h : comparison.Renders text)
    : Decides (evalCompare p vars text) (comparison.Holds vars) := by
  have htrim := comparison.trimmable.trim h
  unfold evalCompare
  dsimp only
  rw [if_neg (comparison.trimmable.ne_nil _ htrim)]
  cases comparison with
  | test operand =>
    rw [findSome_operators_none (Operand.renders_silent htrim), resolve_renders vars htrim]
    exact ⟨_, rfl, truthy_iff _⟩
  | compare lhs op rhs =>
    obtain ⟨l, r, hl, hr, heq⟩ := htrim
    rw [heq, findSome_operators (Operand.renders_silent hl) (Operand.renders_silent hr)]
    dsimp only
    rw [resolve_renders vars hl, resolve_renders vars hr]
    exact ⟨_, rfl, apply_iff op _ _⟩

theorem evalAnd_renders {conjunction : Conjunction p} {text : List Char} (h : conjunction.Renders text)
    : Decides (evalAnd p vars (splitTop '&' text)) (conjunction.Holds vars) := by
  induction conjunction generalizing text with
  | one comparison =>
    rw [splitTop_silent ((Comparison.renders_silent h).mono (by decide))]
    obtain ⟨b, hb, hiff⟩ := evalCompare_renders vars h
    unfold evalAnd
    rw [hb]
    cases b <;> exact ⟨_, rfl, hiff⟩
  | and comparison rest ih =>
    obtain ⟨l, r, hl, hr, rfl⟩ := h
    rw [splitTop_append ((Comparison.renders_silent hl).mono (by decide)) (by decide)]
    obtain ⟨b, hb, hiff⟩ := evalCompare_renders vars hl
    unfold evalAnd
    rw [hb]
    cases b with
    | false => exact ⟨false, rfl, iff_of_false Bool.false_ne_true fun h => Bool.false_ne_true (hiff.mpr h.1)⟩
    | true =>
      obtain ⟨b', hb', hiff'⟩ := ih hr
      exact ⟨b', hb', hiff'.trans (and_iff_right (hiff.mp rfl)).symm⟩

theorem evalOr_renders {guard : Guard p} {text : List Char} (h : guard.Renders text)
    : Decides (evalOr p vars (splitTop '|' text)) (guard.Holds vars) := by
  induction guard generalizing text with
  | one conjunction =>
    rw [splitTop_silent (Conjunction.renders_silent h)]
    obtain ⟨b, hb, hiff⟩ := evalAnd_renders vars h
    unfold evalOr
    rw [hb]
    cases b <;> exact ⟨_, rfl, hiff⟩
  | or conjunction rest ih =>
    obtain ⟨l, r, hl, hr, rfl⟩ := h
    rw [splitTop_append (Conjunction.renders_silent hl) (by decide)]
    obtain ⟨b, hb, hiff⟩ := evalAnd_renders vars hl
    unfold evalOr
    rw [hb]
    cases b with
    | true => exact ⟨true, rfl, iff_of_true rfl (.inl (hiff.mp rfl))⟩
    | false =>
      obtain ⟨b', hb', hiff'⟩ := ih hr
      exact ⟨b', hb', hiff'.trans (or_iff_right fun h => Bool.false_ne_true (hiff.mpr h)).symm⟩

theorem evaluate_exact (guard : Guard p) (expr : String) (h : guard.Renders expr.toList)
    : ∃ b, evaluate p vars expr = .ok b ∧ (b = true ↔ guard.Holds vars) := by
  have htrim := guard.trimmable.trim h
  unfold evaluate
  dsimp only
  rw [if_neg (guard.trimmable.ne_nil _ htrim)]
  exact evalOr_renders vars htrim

end

end

def Guard.sample : Guard .integral :=
  .or
    (.one (.compare
      (.path ['x'] []
        (List.forall_mem_singleton.mpr
          ⟨by decide, forall_mem_of_all (by decide), forall_mem_of_all (by decide)⟩)
        (by decide) (by decide))
      .eq
      (.quoted '\'' ['|', '|', '"'] (by decide) (by decide))))
    (.one (.one (.compare
      (.number ['3'] 3 (forall_mem_of_all (by decide)) (by decide) (by decide))
      .lt
      (.path ['y'] []
        (forall_mem_singleton.mpr
          ⟨by decide, forall_mem_of_all (by decide), forall_mem_of_all (by decide)⟩)
        (by decide) (by decide)))))

theorem evaluate_exact_sample
    : evaluate .integral (({} : Variables).insert "y" (.int 5)) "x=='||\"' || 3 <y " = .ok true := by
  have hrenders : Guard.sample.Renders "x=='||\"' || 3 <y ".toList := by
    refine ⟨"x=='||\"' ".toList, " 3 <y ".toList, ⟨['x'], "'||\"' ".toList, ?_, ?_, by decide⟩,
      ⟨" 3 ".toList, "y ".toList, ?_, ?_, by decide⟩, by decide⟩
    . exact ⟨[], [], forall_mem_of_all (by decide), by decide⟩
    . exact ⟨[], [' '], forall_mem_of_all (by decide), by decide⟩
    . exact ⟨[' '], [' '], forall_mem_of_all (by decide), by decide⟩
    . exact ⟨[], [' '], forall_mem_of_all (by decide), by decide⟩
  obtain ⟨b, hb, hiff⟩ := evaluate_exact (({} : Variables).insert "y" (.int 5)) Guard.sample _ hrenders
  have hholds : Guard.sample.Holds (({} : Variables).insert "y" (.int 5)) := by
    refine .inr ⟨3, 5, rfl, ?_, by decide⟩
    have hfound : (({} : Variables).insert "y" (.int 5))[String.ofList ['y']]? = some (.int 5) :=
      Std.ExtTreeMap.getElem?_insert_self
    unfold Operand.value
    dsimp only
    rw [hfound]
    rfl
  rw [hb, hiff.mpr hholds]

end Wovyr.Workflow.Condition
