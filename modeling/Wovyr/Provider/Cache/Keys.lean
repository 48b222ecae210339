import Wovyr.Lib.Run
import Wovyr.Lib.Spelling
import Wovyr.Provider.Cache.View

/-!
This module contains what two requests have in common if their cache keys are the same, and proves for which
requests this is all that the answer depends on.
-/

namespace Wovyr.Provider

open Quoted (Sealed)

/-- What is documented of the texts of single fields. A bar or a backslash in one of them is within quotes. -/
structure Formats.Faithful (fmt : Formats) : Prop where
  json : Json.WritesFloats fmt.json
  float : Function.Injective fmt.float
  toolChoice : Function.Injective (ToolChoice.debug fmt)
  responseFormat : Function.Injective (ResponseFormat.debug fmt)
  sealedFloat : ∀ q, Sealed '|' (fmt.float q).toList
  sealedStr : ∀ s, Sealed '|' (fmt.str s).toList
  sealedValue : ∀ v, Sealed '|' (fmt.value v).toList

/-- All that shapes an answer besides the turns of the conversation. -/
structure Compatible (a b : ChatRequest) : Prop where
  model : a.model = b.model
  temperature : a.temperature = b.temperature
  maxTokens : a.maxTokens = b.maxTokens
  toolChoice : a.toolChoice = b.toolChoice
  responseFormat : a.responseFormat = b.responseFormat
  tools : a.tools = b.tools
  system : contents .system a = contents .system b

def paramHead (fmt : Formats) (request : ChatRequest) : String :=
  request.model ++ "|" ++ debugOption fmt.float request.temperature
    ++ "|" ++ debugOption (ToolChoice.debug fmt) request.toolChoice
    ++ "|" ++ debugOption (ResponseFormat.debug fmt) request.responseFormat
    ++ "|sys:"

/-- The system prompt of the second request begins with what the parameters of the first one have in addition. -/
def Shifted (fmt : Formats) (a b : ChatRequest) : Prop :=
  a.tools = b.tools ∧ ∃ rest, rest ≠ "" ∧ paramHead fmt a = paramHead fmt b ++ rest
    ∧ contents .system b = rest ++ contents .system a

/-- Neither request is shifted against the other one, and they do not differ in the maximum of tokens alone. -/
structure Distinct (fmt : Formats) (a b : ChatRequest) : Prop where
  left : ¬Shifted fmt a b
  right : ¬Shifted fmt b a
  maxTokens : a.model = b.model → a.temperature = b.temperature → a.toolChoice = b.toolChoice →
    a.responseFormat = b.responseFormat → a.tools = b.tools → contents .system a = contents .system b →
      a.maxTokens = b.maxTokens

/-- Equal keys mean equal parameters. -/
structure KeysTell (fmt : Formats) (a b : ChatRequest) : Prop where
  cacheKey : cacheKey fmt a = cacheKey fmt b →
    a.model = b.model ∧ a.temperature = b.temperature ∧ a.maxTokens = b.maxTokens ∧ a.toolChoice = b.toolChoice
      ∧ a.responseFormat = b.responseFormat ∧ a.messages = b.messages ∧ a.tools = b.tools
  paramKey : paramKey fmt a = paramKey fmt b → Compatible a b

section

variable {fmt : Formats}

theorem scan_control (n : Nat) (h : n < 0x20) (cs : List Char)
    : Quoted.scan '|' .inside (Json.escapeChar (Char.ofNat n) ++ cs) = Quoted.scan '|' .inside cs := by
  interval_cases n <;> rfl

theorem scan_escapeChar (c : Char) (cs : List Char)
    : Quoted.scan '|' .inside (Json.escapeChar c ++ cs) = Quoted.scan '|' .inside cs := by
  by_cases hcontrol : c.toNat < 0x20
  . have h := scan_control c.toNat hcontrol cs
    rwa [Char.ofNat_toNat] at h
  . by_cases hquote : c = '"'
    . subst hquote
      rfl
    . by_cases hslash : c = '\\'
      . subst hslash
        rfl
      . rw [Json.escapeChar_raw hcontrol hquote hslash, List.singleton_append, Quoted.scan, if_neg hquote, if_neg hslash]

theorem sealed_quote (s : String) : Sealed '|' (Json.quote s) := by
  have hbody (cs : List Char) : Quoted.scan '|' .inside (cs.flatMap Json.escapeChar ++ ['"']) = some .out := by
    induction cs with
    | nil => rfl
    | cons c cs ih => rw [List.flatMap_cons, List.append_assoc, scan_escapeChar, ih]
  exact hbody s.toList

theorem sealed_number {cs : List Char} (h : ∀ c ∈ cs, Json.isNumberChar c = true) : Sealed '|' cs := by
  apply Sealed.of_plain
  intro c hc
  have hnumber := h c hc
  refine ⟨?_, ?_, ?_⟩
  all_goals
    rintro rfl
    cases hnumber

mutual

theorem sealed_render (hfmt : Json.WritesFloats fmt.json) (v : Value) : Sealed '|' (Json.render fmt.json v) := by
  match v with
  | .null => rfl
  | .bool true => rfl
  | .bool false => rfl
  | .int n => exact sealed_number fun _ => Json.isNumberChar_of_mem_renderInt
  | .float q => exact sealed_number (hfmt.chars q)
  | .string s => exact sealed_quote s
  | .array [] => rfl
  | .array (v :: vs) =>
    exact .cons (by decide) (by decide) (by decide) ((sealed_render hfmt v).append (sealed_renderTail hfmt vs))
  | .object [] => rfl
  | .object ((k, v) :: fields) =>
    have hvalue := (sealed_render hfmt v).append (sealed_renderFields hfmt fields)
    exact .cons (by decide) (by decide) (by decide)
      ((sealed_quote k).append (.cons (by decide) (by decide) (by decide) hvalue))

theorem sealed_renderTail (hfmt : Json.WritesFloats fmt.json) (vs : List Value)
    : Sealed '|' (Json.renderTail fmt.json vs) := by
  match vs with
  | [] => rfl
  | v :: vs =>
    exact .cons (by decide) (by decide) (by decide) ((sealed_render hfmt v).append (sealed_renderTail hfmt vs))

theorem sealed_renderFields (hfmt : Json.WritesFloats fmt.json) (fields : List (String × Value))
    : Sealed '|' (Json.renderFields fmt.json fields) := by
  match fields with
  | [] => rfl
  | (k, v) :: fields =>
    have hvalue := (sealed_render hfmt v).append (sealed_renderFields hfmt fields)
    exact .cons (by decide) (by decide) (by decide)
      ((sealed_quote k).append (.cons (by decide) (by decide) (by decide) hvalue))

end

theorem toList_bar {a b x y : String} (h : a ++ "|" ++ x = b ++ "|" ++ y)
    : a.toList ++ '|' :: x.toList = b.toList ++ '|' :: y.toList := by
  have htexts := congrArg String.toList h
  rwa [String.toList_append, String.toList_append, String.toList_append, String.toList_append,
    List.append_assoc, List.append_assoc] at htexts

theorem bar_inj {a b x y : String} (hx : Sealed '|' x.toList) (hy : Sealed '|' y.toList)
    (h : a ++ "|" ++ x = b ++ "|" ++ y) : a = b ∧ x = y := by
  obtain ⟨hab, hxy⟩ := Quoted.append_bar_inj (by decide) (by decide) hx hy (toList_bar h)
  exact ⟨String.toList_inj.mp hab, String.toList_inj.mp hxy⟩

theorem sealed_append {a b : String} (ha : Sealed '|' a.toList) (hb : Sealed '|' b.toList)
    : Sealed '|' (a ++ b).toList := by
  rw [String.toList_append]
  exact ha.append hb

theorem sealed_literal {s : String} (h : (s.toList.all fun c => c != '"' && c != '|' && c != '\\') = true)
    : Sealed '|' s.toList := by
  apply Sealed.of_plain
  simpa [and_assoc] using h

theorem sealed_debugOption {debug : α → String} (h : ∀ a, Sealed '|' (debug a).toList) (a? : Option α)
    : Sealed '|' (debugOption debug a?).toList := by
  cases a? with
  | none => exact @sealed_literal "None" rfl
  | some a => exact sealed_append (sealed_append (sealed_literal rfl) (h a)) (sealed_literal rfl)

theorem debugOption_injective {debug : α → String} (h : Function.Injective debug)
    : Function.Injective (debugOption debug) := by
  have hne (a : α) : debugOption debug none ≠ debugOption debug (some a) := by
    intro heq
    have htexts := congrArg String.toList heq
    simp [debugOption, String.toList_append] at htexts
  intro a? b? heq
  cases a? with
  | none =>
    cases b? with
    | none => rfl
    | some b => exact absurd heq (hne b)
  | some a =>
    cases b? with
    | none => exact absurd heq.symm (hne a)
    | some b =>
      simp only [debugOption, String.append_left_inj, String.append_right_inj] at heq
      rw [h heq]

theorem sealed_toolChoice (hfmt : fmt.Faithful) (choice : ToolChoice) : Sealed '|' (choice.debug fmt).toList := by
  cases choice with
  | auto => exact @sealed_literal "Auto" rfl
  | none => exact @sealed_literal "None" rfl
  | required => exact @sealed_literal "Required" rfl
  | tool name =>
    exact sealed_append (sealed_append (sealed_literal rfl) (hfmt.sealedStr name)) (sealed_literal rfl)

theorem sealed_responseFormat (hfmt : fmt.Faithful) (format : ResponseFormat)
    : Sealed '|' (format.debug fmt).toList := by
  cases format with
  | jsonObject => exact @sealed_literal "JsonObject" rfl
  | jsonSchema name schema =>
    have hname : Sealed '|' ("JsonSchema \x7b name: " ++ fmt.str name).toList :=
      sealed_append (sealed_literal rfl) (hfmt.sealedStr name)
    have hlabel : Sealed '|' ("JsonSchema \x7b name: " ++ fmt.str name ++ ", schema: ").toList :=
      sealed_append hname (sealed_literal rfl)
    exact sealed_append (sealed_append hlabel (hfmt.sealedValue schema)) (sealed_literal rfl)

theorem toList_toString (n : Nat) : (toString n).toList = Json.renderInt n := by
  show (Nat.repr n).toList = Nat.toDigits 10 n
  exact String.toList_ofList

theorem toString_injective : Function.Injective (toString : Nat → String) := by
  intro m n heq
  have htexts := congrArg String.toList heq
  rw [toList_toString, toList_toString] at htexts
  exact Int.ofNat.inj (Json.renderInt_injective htexts)

theorem sealed_toString (n : Nat) : Sealed '|' (toString n).toList := by
  rw [toList_toString]
  exact sealed_number fun _ => Json.isNumberChar_of_mem_renderInt

theorem sealed_toJson (hfmt : fmt.Faithful) (vs : List Value) : Sealed '|' (toJson fmt vs).toList := by
  unfold toJson
  rw [String.toList_ofList]
  exact sealed_render hfmt.json (.array vs)

theorem toJson_injective (hfmt : fmt.Faithful) : Function.Injective (toJson fmt) := by
  intro vs ws heq
  have htexts := congrArg String.toList heq
  unfold toJson at htexts
  rw [String.toList_ofList, String.toList_ofList] at htexts
  exact Value.array.inj (hfmt.json.render_injective htexts)

theorem role_injective : Function.Injective Role.toValue := by
  intro a b h
  cases a <;> cases b <;> first | rfl | exact absurd h (by decide)

theorem contentPart_injective : Function.Injective ContentPart.toValue := by
  intro a b h
  cases a <;> cases b <;> simp_all [ContentPart.toValue]

theorem toolCall_injective : Function.Injective ToolCall.toValue := by
  rintro ⟨id, name, arguments⟩ ⟨id', name', arguments'⟩ h
  simpa [ToolCall.toValue] using h

theorem toolSpec_injective : Function.Injective ToolSpec.toValue := by
  rintro ⟨name, description, parameters, strict⟩ ⟨name', description', parameters', strict'⟩ h
  simpa [ToolSpec.toValue] using h

def fieldOf (key : String) : Value → Option Value
  | .object fields => (fields.find? fun f => f.1 == key).map Prod.snd
  | _ => none

theorem find_optField (key key' : String) (s : Option String)
    : (optField key s).find? (fun f => f.1 == key')
        = if key = key' then s.map fun s => (key, .string s) else none := by
  cases s with
  | none => simp [optField]
  | some s =>
    by_cases h : key = key'
    . simp [optField, h]
    . simp [optField, h]

theorem find_listField (key key' : String) (xs : List Value)
    : (listField key xs).find? (fun f => f.1 == key')
        = if key = key' ∧ xs ≠ [] then some (key, .array xs) else none := by
  cases xs with
  | nil => simp [listField]
  | cons x xs =>
    by_cases h : key = key'
    . simp [listField, h]
    . simp [listField, h]

theorem optField_inj {key : String} {s t : Option String}
    (h : s.map (Prod.snd ∘ fun s => (key, Value.string s)) = t.map (Prod.snd ∘ fun s => (key, Value.string s)))
    : s = t := by
  apply Option.map_injective _ h
  intro a b heq
  exact Value.string.inj heq

theorem listField_inj {key : String} {toValue : α → Value} (hinj : Function.Injective toValue) {xs ys : List α}
    (h : Option.map Prod.snd (if xs = [] then none else some (key, Value.array (xs.map toValue)))
      = Option.map Prod.snd (if ys = [] then none else some (key, Value.array (ys.map toValue)))) : xs = ys := by
  by_cases hx : xs = []
  . by_cases hy : ys = []
    . rw [hx, hy]
    . simp [hx, hy] at h
  . by_cases hy : ys = []
    . simp [hx, hy] at h
    . simp only [if_neg hx, if_neg hy, Option.map_some, Option.some.injEq, Value.array.injEq] at h
      exact List.map_injective_iff.mpr hinj h

theorem message_injective : Function.Injective Message.toValue := by
  intro a b h
  have hrole := congrArg (fieldOf "role") h
  have hcontent := congrArg (fieldOf "content") h
  have hparts := congrArg (fieldOf "parts") h
  have hcalls := congrArg (fieldOf "tool_calls") h
  have hid := congrArg (fieldOf "tool_call_id") h
  have hname := congrArg (fieldOf "name") h
  simp only [fieldOf, Message.toValue, List.cons_append, List.nil_append, List.append_assoc, BEq.rfl,
    List.find?_cons_of_pos, Option.map_some, Option.some.injEq, String.reduceBEq, Bool.false_eq_true, not_false_eq_true,
    List.find?_cons_of_neg, List.find?_append, find_optField, ↓reduceIte, find_listField, String.reduceEq, ne_eq,
    List.map_eq_nil_iff, false_and, Option.or_self, Option.or_none, Option.map_map, true_and, ite_not,
    Option.none_or] at hrole hcontent hparts hcalls hid hname
  cases a
  cases b
  rw [Message.mk.injEq]
  exact ⟨role_injective hrole, optField_inj hcontent, listField_inj contentPart_injective hparts,
    listField_inj toolCall_injective hcalls, optField_inj hid, optField_inj hname⟩

variable {a b : ChatRequest}

theorem cacheKey_tells (hfmt : fmt.Faithful) (h : cacheKey fmt a = cacheKey fmt b)
    : a.model = b.model ∧ a.temperature = b.temperature ∧ a.maxTokens = b.maxTokens ∧ a.toolChoice = b.toolChoice
        ∧ a.responseFormat = b.responseFormat ∧ a.messages = b.messages ∧ a.tools = b.tools := by
  unfold cacheKey at h
  obtain ⟨h, htools⟩ := bar_inj (sealed_toJson hfmt _) (sealed_toJson hfmt _) h
  obtain ⟨h, hmessages⟩ := bar_inj (sealed_toJson hfmt _) (sealed_toJson hfmt _) h
  obtain ⟨h, hformat⟩ := bar_inj (sealed_debugOption (sealed_responseFormat hfmt) _)
    (sealed_debugOption (sealed_responseFormat hfmt) _) h
  obtain ⟨h, hchoice⟩ := bar_inj (sealed_debugOption (sealed_toolChoice hfmt) _)
    (sealed_debugOption (sealed_toolChoice hfmt) _) h
  obtain ⟨h, hmax⟩ := bar_inj (sealed_debugOption sealed_toString _) (sealed_debugOption sealed_toString _) h
  obtain ⟨hmodel, htemperature⟩ := bar_inj (sealed_debugOption hfmt.sealedFloat _)
    (sealed_debugOption hfmt.sealedFloat _) h
  exact ⟨hmodel, debugOption_injective hfmt.float htemperature, debugOption_injective toString_injective hmax,
    debugOption_injective hfmt.toolChoice hchoice, debugOption_injective hfmt.responseFormat hformat,
    List.map_injective_iff.mpr message_injective (toJson_injective hfmt hmessages),
    List.map_injective_iff.mpr toolSpec_injective (toJson_injective hfmt htools)⟩

theorem paramHead_tells (hfmt : fmt.Faithful) (h : paramHead fmt a = paramHead fmt b)
    : a.model = b.model ∧ a.temperature = b.temperature ∧ a.toolChoice = b.toolChoice
        ∧ a.responseFormat = b.responseFormat := by
  unfold paramHead at h
  rw [String.append_left_inj] at h
  obtain ⟨h, hformat⟩ := bar_inj (sealed_debugOption (sealed_responseFormat hfmt) _)
    (sealed_debugOption (sealed_responseFormat hfmt) _) h
  obtain ⟨h, hchoice⟩ := bar_inj (sealed_debugOption (sealed_toolChoice hfmt) _)
    (sealed_debugOption (sealed_toolChoice hfmt) _) h
  obtain ⟨hmodel, htemperature⟩ := bar_inj (sealed_debugOption hfmt.sealedFloat _)
    (sealed_debugOption hfmt.sealedFloat _) h
  exact ⟨hmodel, debugOption_injective hfmt.float htemperature, debugOption_injective hfmt.toolChoice hchoice,
    debugOption_injective hfmt.responseFormat hformat⟩

theorem not_shifted_of_plain (hfmt : fmt.Faithful) (ha : '|' ∉ a.model.toList) (hb : '|' ∉ b.model.toList)
    : ¬Shifted fmt a b := by
  rintro ⟨-, rest, hrest, hhead, -⟩
  have h := congrArg String.toList hhead
  simp only [paramHead, String.toList_append, List.append_assoc] at h
  obtain ⟨-, h⟩ := Quoted.free_append_inj ha hb h
  obtain ⟨-, h⟩ := (sealed_debugOption hfmt.sealedFloat _).append_inj (by decide)
    (sealed_debugOption hfmt.sealedFloat _) h
  obtain ⟨-, h⟩ := (sealed_debugOption (sealed_toolChoice hfmt) _).append_inj (by decide)
    (sealed_debugOption (sealed_toolChoice hfmt) _) h
  obtain ⟨-, h⟩ := (sealed_debugOption (sealed_responseFormat hfmt) _).append_inj (by decide)
    (sealed_debugOption (sealed_responseFormat hfmt) _) h
  exact hrest (String.toList_eq_nil_iff.mp (List.self_eq_append_right.mp h))

theorem paramHead_congr (hmodel : a.model = b.model) (htemperature : a.temperature = b.temperature)
    (hchoice : a.toolChoice = b.toolChoice) (hformat : a.responseFormat = b.responseFormat)
    : paramHead fmt a = paramHead fmt b := by
  unfold paramHead
  rw [hmodel, htemperature, hchoice, hformat]

theorem paramKey_eq_iff (hfmt : fmt.Faithful)
    : paramKey fmt a = paramKey fmt b
        ↔ paramHead fmt a ++ contents .system a = paramHead fmt b ++ contents .system b ∧ a.tools = b.tools := by
  have hkey (request : ChatRequest) : paramKey fmt request
      = paramHead fmt request ++ contents .system request ++ "|"
        ++ ("tools:" ++ toJson fmt (request.tools.map ToolSpec.toValue)) := by
    have hlabel : "|tools:" = "|" ++ "tools:" := rfl
    unfold paramKey paramHead
    rw [hlabel]
    simp only [String.append_assoc]
  have hsealed (request : ChatRequest)
      : Sealed '|' ("tools:" ++ toJson fmt (request.tools.map ToolSpec.toValue)).toList :=
    sealed_append (sealed_literal rfl) (sealed_toJson hfmt _)
  rw [hkey a, hkey b]
  constructor
  . intro h
    obtain ⟨hhead, htools⟩ := bar_inj (hsealed a) (hsealed b) h
    rw [String.append_right_inj] at htools
    exact ⟨hhead, List.map_injective_iff.mpr toolSpec_injective (toJson_injective hfmt htools)⟩
  . rintro ⟨hhead, htools⟩
    rw [hhead, htools]

theorem not_compatible_of_shifted (hfmt : fmt.Faithful) (h : Shifted fmt a b)
    : paramKey fmt a = paramKey fmt b ∧ paramHead fmt a ≠ paramHead fmt b := by
  obtain ⟨htools, rest, hrest, hhead, hsystem⟩ := h
  refine ⟨(paramKey_eq_iff hfmt).mpr ⟨?_, htools⟩, ?_⟩
  . rw [hhead, hsystem, String.append_assoc]
  . intro heq
    rw [heq] at hhead
    exact hrest (String.append_eq_left_iff.mp hhead.symm)

theorem compatible_of_distinct (hfmt : fmt.Faithful) (h : Distinct fmt a b) (hkey : paramKey fmt a = paramKey fmt b)
    : Compatible a b := by
  obtain ⟨htext, htools⟩ := (paramKey_eq_iff hfmt).mp hkey
  have hsame : paramHead fmt a = paramHead fmt b ∧ contents .system a = contents .system b := by
    obtain ⟨rest, ⟨hhead, hsystem⟩ | ⟨hhead, hsystem⟩⟩ := Spelling.append_eq_append htext
    . by_cases hrest : rest = ""
      . rw [hrest, String.append_empty] at hhead
        rw [hrest, String.empty_append] at hsystem
        exact ⟨hhead.symm, hsystem⟩
      . exact absurd ⟨htools.symm, rest, hrest, hhead, hsystem⟩ h.right
    . by_cases hrest : rest = ""
      . rw [hrest, String.append_empty] at hhead
        rw [hrest, String.empty_append] at hsystem
        exact ⟨hhead, hsystem.symm⟩
      . exact absurd ⟨htools, rest, hrest, hhead, hsystem⟩ h.left
  obtain ⟨hmodel, htemperature, hchoice, hformat⟩ := paramHead_tells hfmt hsame.1
  exact {
    model := hmodel
    temperature := htemperature
    maxTokens := h.maxTokens hmodel htemperature hchoice hformat htools hsame.2
    toolChoice := hchoice
    responseFormat := hformat
    tools := htools
    system := hsame.2
  }

theorem keysTell_iff (hfmt : fmt.Faithful) (a b : ChatRequest) : KeysTell fmt a b ↔ Distinct fmt a b := by
  constructor
  . intro h
    refine { left := ?_, right := ?_, maxTokens := ?_ }
    . intro hshifted
      obtain ⟨hkey, hne⟩ := not_compatible_of_shifted hfmt hshifted
      have hsame := h.paramKey hkey
      exact hne (paramHead_congr hsame.model hsame.temperature hsame.toolChoice hsame.responseFormat)
    . intro hshifted
      obtain ⟨hkey, hne⟩ := not_compatible_of_shifted hfmt hshifted
      have hsame := h.paramKey hkey.symm
      exact hne (paramHead_congr hsame.model hsame.temperature hsame.toolChoice hsame.responseFormat).symm
    . intro hmodel htemperature hchoice hformat htools hsystem
      apply Compatible.maxTokens
      apply h.paramKey
      rw [paramKey_eq_iff hfmt, paramHead_congr hmodel htemperature hchoice hformat, hsystem]
      exact ⟨rfl, htools⟩
  . intro h
    exact { cacheKey := cacheKey_tells hfmt, paramKey := compatible_of_distinct hfmt h }

end

namespace ExactCache

variable {c : ExactCache} {key k : String} {nowMs ttlMs : Nat} {e : CacheEntry}

theorem of_get (h : (c.get key nowMs ttlMs).1 = some e) : c.entries[key]? = some e := by
  unfold get at h
  split at h
  next hfound =>
    split at h
    . cases h
    . cases h
      exact hfound
  next => cases h

theorem producer_get (h : (c.get key nowMs ttlMs).2.entries[k]? = some e)
    : ∃ e', c.entries[k]? = some e' ∧ e'.producer = e.producer := by
  unfold get at h
  split at h
  next found hfound =>
    split at h
    . exact ⟨e, Map.of_erase h, rfl⟩
    . rcases Map.of_insert h with ⟨hk, rfl⟩ | h
      . exact ⟨found, hk ▸ hfound, rfl⟩
      . exact ⟨e, h, rfl⟩
  next => exact ⟨e, h, rfl⟩

theorem producer_insert {response : ChatResponse} {producer : Nat}
    (h : (c.insert key nowMs ttlMs response producer).entries[k]? = some e)
    : c.entries[k]? = some e ∨ key = k ∧ e.producer = producer := by
  unfold insert at h
  split at h
  . exact .inl h
  . have hkept := of_getElem?_evict h
    rcases Map.of_insert hkept with ⟨hk, rfl⟩ | hkept
    . exact .inr ⟨hk, rfl⟩
    . unfold sweep at hkept
      rw [Std.ExtTreeMap.getElem?_filter'] at hkept
      exact .inl (Option.filter_eq_some_iff.mp hkept).1

end ExactCache

namespace Traffic

variable {V S : Type} (traffic : Traffic V S)

def SameKey (call producer : Nat) : Prop :=
  cacheKey traffic.fmt (traffic.requestOf producer) = cacheKey traffic.fmt (traffic.requestOf call)
    ∨ paramKey traffic.fmt (traffic.requestOf producer) = paramKey traffic.fmt (traffic.requestOf call)

/-- All that is stored is stored under the keys of the call that has produced it. -/
structure Keyed (s : State V) : Prop where
  cache : ∀ key (e : CacheEntry), s.cache.entries[key]? = some e →
    cacheKey traffic.fmt (traffic.requestOf e.producer) = key
  semanticCache : ∀ e ∈ s.semanticCache.entries, paramKey traffic.fmt (traffic.requestOf e.producer) = e.paramKey
  answers : ∀ answer ∈ s.answers, ∀ producer, answer.source = some producer → traffic.SameKey answer.call producer

variable {traffic} {s : State V}

namespace Keyed

theorem finish (h : Keyed traffic s) {call : Nat} {result : Except Error ChatResponse} {source : Option Nat}
    (hsource : ∀ producer, source = some producer → traffic.SameKey call producer)
    : Keyed traffic (s.finish call result source) where
  cache := h.cache
  semanticCache := h.semanticCache
  answers := forall_mem_snoc h.answers hsource

theorem lookup (h : Keyed traffic s) (call : Nat) : Keyed traffic (s.lookup traffic call) := by
  unfold State.lookup
  split
  . exact { cache := h.cache, semanticCache := h.semanticCache, answers := h.answers }
  . have hleft : Keyed traffic { s with
        cache := (s.cache.get (cacheKey traffic.fmt (traffic.requestOf call)) s.nowMs traffic.cfg.ttlMs).2 } := by
      refine { cache := ?_, semanticCache := h.semanticCache, answers := h.answers }
      intro key e he
      obtain ⟨e', he', hproducer⟩ := ExactCache.producer_get he
      rw [← hproducer]
      exact h.cache key e' he'
    dsimp only
    split
    next e he =>
      apply hleft.finish
      intro producer hproducer
      cases hproducer
      exact .inl (h.cache _ e (ExactCache.of_get he))
    next => exact { cache := hleft.cache, semanticCache := h.semanticCache, answers := h.answers }

theorem search (h : Keyed traffic s) (call : Nat) (vec : Option V) : Keyed traffic (s.search traffic call vec) := by
  unfold State.search
  split
  . exact { cache := h.cache, semanticCache := h.semanticCache, answers := h.answers }
  . split
    next e he =>
      apply h.finish
      intro producer hproducer
      cases hproducer
      obtain ⟨hmem, hserves⟩ := InMemorySemanticCache.of_lookup he
      right
      rw [h.semanticCache e hmem]
      exact hserves.1
    next => exact { cache := h.cache, semanticCache := h.semanticCache, answers := h.answers }

theorem respond (h : Keyed traffic s) (call : Nat) (vec : Option V) (result : Except Error ChatResponse)
    : Keyed traffic (s.respond call vec result) := by
  unfold State.respond
  split
  . exact h.finish nofun
  . exact { cache := h.cache, semanticCache := h.semanticCache, answers := h.answers }

theorem store (h : Keyed traffic s) (call : Nat) (vec : Option V) (response : ChatResponse)
    : Keyed traffic (s.store traffic call vec response) := by
  unfold State.store
  refine { cache := ?_, semanticCache := h.semanticCache, answers := h.answers }
  intro key e he
  change (if traffic.cfg.mode = .off then s.cache else _).entries[key]? = some e at he
  split at he
  . exact h.cache key e he
  . cases ExactCache.producer_insert he with
    | inl hold => exact h.cache key e hold
    | inr hnew =>
      rw [hnew.2]
      exact hnew.1

theorem index (h : Keyed traffic s) (call : Nat) (vec : Option V) (response : ChatResponse)
    : Keyed traffic (s.index traffic call vec response) := by
  cases vec with
  | none => exact h.finish nofun
  | some v =>
    have hstored : Keyed traffic { s with
        semanticCache := s.semanticCache.store (paramKey traffic.fmt (traffic.requestOf call))
          traffic.embeddingModel v s.nowMs response call } := by
      refine { cache := h.cache, semanticCache := ?_, answers := h.answers }
      intro e he
      cases InMemorySemanticCache.of_mem_store he with
      | inl hold => exact h.semanticCache e hold
      | inr hnew =>
        rw [hnew]
        rfl
    exact hstored.finish nofun

theorem step (h : Keyed traffic s) (move : Move) : Keyed traffic (traffic.step s move) := by
  have hsame {calls : Nat → Progress V} {nowMs : Nat} : Keyed traffic { s with calls, nowMs } :=
    { cache := h.cache, semanticCache := h.semanticCache, answers := h.answers }
  cases move with
  | tick nowMs =>
    simp only [Traffic.step]
    split
    . exact hsame
    . exact h
  | lookup call =>
    simp only [Traffic.step]
    split
    . exact h.lookup call
    . exact h
  | embed call =>
    simp only [Traffic.step]
    split
    . exact hsame
    . exact h
  | search call =>
    simp only [Traffic.step]
    split
    . exact h.search call _
    . exact h
  | respond call result =>
    simp only [Traffic.step]
    split
    . exact h.respond call _ result
    . exact h
  | store call =>
    simp only [Traffic.step]
    split
    . exact h.store call _ _
    . exact h
  | index call =>
    simp only [Traffic.step]
    split
    . exact h.index call _ _
    . exact h
  | drop call =>
    simp only [Traffic.step]
    split
    . exact h
    . exact hsame

end Keyed

theorem keyed_run (semanticMaxEntries : Nat) (moves : List Move)
    : Keyed traffic (traffic.run (traffic.init semanticMaxEntries) moves) := by
  have hgo (s : State V) (hs : Keyed traffic s) : Keyed traffic (traffic.run s moves) := by
    induction moves generalizing s with
    | nil => exact hs
    | cons move moves ih => exact ih (traffic.step s move) (hs.step move)
  apply hgo
  refine { cache := ?_, semanticCache := nofun, answers := nofun }
  intro key e he
  simp [init] at he

end Traffic

/-- What a cache key tells of the parameters, for any two requests and in any run of a gateway. -/
structure HitsCompatible (fmt : Formats) : Prop where
  keys : ∀ a b, KeysTell fmt a b ↔ Distinct fmt a b
  hits : ∀ (V S : Type) (traffic : Traffic V S) (semanticMaxEntries : Nat) (moves : List Traffic.Move),
    traffic.fmt = fmt → (∀ call producer, Distinct fmt (traffic.requestOf producer) (traffic.requestOf call)) →
      ∀ answer ∈ (traffic.run (traffic.init semanticMaxEntries) moves).answers, ∀ producer,
        answer.source = some producer → Compatible (traffic.requestOf producer) (traffic.requestOf answer.call)

theorem compatible_of_tells {fmt : Formats} {a b : ChatRequest} (h : KeysTell fmt a b)
    (hkey : cacheKey fmt a = cacheKey fmt b ∨ paramKey fmt a = paramKey fmt b) : Compatible a b := by
  cases hkey with
  | inr hparam => exact h.paramKey hparam
  | inl hcache =>
    obtain ⟨hmodel, htemperature, hmax, hchoice, hformat, hmessages, htools⟩ := h.cacheKey hcache
    have hsystem : contents .system a = contents .system b := by
      unfold contents
      rw [hmessages]
    exact {
      model := hmodel
      temperature := htemperature
      maxTokens := hmax
      toolChoice := hchoice
      responseFormat := hformat
      tools := htools
      system := hsystem
    }

theorem hits_compatible (fmt : Formats) (hfmt : fmt.Faithful) : HitsCompatible fmt where
  keys := keysTell_iff hfmt
  hits := by
    rintro V S traffic semanticMaxEntries moves rfl hdistinct answer hanswer producer hproducer
    have hkey := (Traffic.keyed_run semanticMaxEntries moves).answers answer hanswer producer hproducer
    exact compatible_of_tells ((keysTell_iff hfmt _ _).mpr (hdistinct answer.call producer)) hkey

def plainFloat (q : Rat) : List Char :=
  Json.renderInt q.num ++ 'e' :: Json.renderInt q.den

def plainFormats : Formats where
  float q := String.ofList (plainFloat q)
  str s := String.ofList (Json.quote s)
  value v := String.ofList (Json.render plainFloat v)
  json := plainFloat

theorem writesFloats_plain : Json.WritesFloats plainFloat where
  injective := by
    intro p q h
    have hsplit (n : Int) (cs : List Char) : (Json.renderInt n ++ 'e' :: cs).takeWhile Json.isIntChar = Json.renderInt n := by
      rw [List.takeWhile_append_of_pos fun c hc => Json.isIntChar_of_mem_renderInt hc]
      simp [Json.isIntChar]
    have hnum : Json.renderInt p.num = Json.renderInt q.num := by
      rw [← hsplit p.num (Json.renderInt p.den), ← hsplit q.num (Json.renderInt q.den)]
      exact congrArg (List.takeWhile Json.isIntChar) h
    unfold plainFloat at h
    rw [hnum, List.append_cancel_left_eq, List.cons.injEq] at h
    exact Rat.ext (Json.renderInt_injective hnum) (Int.ofNat.inj (Json.renderInt_injective h.2))
  chars := by
    intro q c hc
    simp only [plainFloat, List.mem_append, List.mem_cons] at hc
    rcases hc with hc | rfl | hc
    . exact Json.isNumberChar_of_mem_renderInt hc
    . rfl
    . exact Json.isNumberChar_of_mem_renderInt hc
  marked := by
    intro q
    refine ⟨'e', ?_, rfl⟩
    simp [plainFloat]
  head := by
    intro q
    cases hn : Json.renderInt q.num with
    | nil => exact absurd hn Json.renderInt_ne_nil
    | cons c cs =>
      refine ⟨c, by simp [plainFloat, hn], ?_⟩
      apply Json.isIntChar_of_mem_renderInt (n := q.num)
      rw [hn]
      exact List.mem_cons_self

theorem plain_str_inj {name name' rest rest' : String} (h : plainFormats.str name ++ rest = plainFormats.str name' ++ rest')
    : name = name' ∧ rest = rest' := by
  have htexts := congrArg String.toList h
  simp only [plainFormats, String.toList_append, String.toList_ofList] at htexts
  obtain ⟨hname, hrest⟩ := Json.quote_append_inj htexts
  exact ⟨hname, String.toList_inj.mp hrest⟩

theorem plain_tool_ne (name : String) {s : String} (h : (s.toList.take 2 == ['T', 'o']) = false)
    : (ToolChoice.tool name).debug plainFormats ≠ s := by
  rintro rfl
  have htexts : ((ToolChoice.tool name).debug plainFormats).toList.take 2 = ['T', 'o'] := by
    simp only [ToolChoice.debug, String.toList_append, List.append_assoc]
    rfl
  rw [htexts] at h
  cases h

theorem schema_ne_object (name schema : String)
    : "JsonSchema \x7b name: " ++ name ++ ", schema: " ++ schema ++ " \x7d" ≠ "JsonObject" := by
  intro h
  have hlength := congrArg String.length h
  have hobject : "JsonObject".length = 10 := rfl
  have hschema : "JsonSchema \x7b name: ".length = 19 := rfl
  simp only [String.length_append, hobject, hschema] at hlength
  omega

theorem schema_inj {name name' : String} {schema schema' : Value}
    (h : "JsonSchema \x7b name: " ++ plainFormats.str name ++ ", schema: " ++ plainFormats.value schema ++ " \x7d"
      = "JsonSchema \x7b name: " ++ plainFormats.str name' ++ ", schema: " ++ plainFormats.value schema' ++ " \x7d")
    : name = name' ∧ schema = schema' := by
  have hassoc (a b c d : String) : a ++ b ++ c ++ d = a ++ (b ++ (c ++ d)) := by
    rw [String.append_assoc, String.append_assoc]
  rw [String.append_left_inj, hassoc, hassoc, String.append_right_inj] at h
  obtain ⟨hname, hrest⟩ := plain_str_inj h
  rw [String.append_right_inj] at hrest
  exact ⟨hname, (writesFloats_plain).render_injective (String.ofList_inj.mp hrest)⟩

theorem faithful_plain : plainFormats.Faithful where
  json := writesFloats_plain
  float := by
    intro p q h
    exact (writesFloats_plain).injective (String.ofList_inj.mp h)
  toolChoice := by
    intro a b h
    cases a with
    | tool name =>
      cases b with
      | tool name' =>
        simp only [ToolChoice.debug, String.append_assoc, String.append_right_inj] at h
        rw [(plain_str_inj h).1]
      | auto => exact absurd h (plain_tool_ne name (by decide))
      | none => exact absurd h (plain_tool_ne name (by decide))
      | required => exact absurd h (plain_tool_ne name (by decide))
    | auto =>
      cases b with
      | tool name => exact absurd h.symm (plain_tool_ne name (by decide))
      | auto => rfl
      | none => exact absurd h (by decide)
      | required => exact absurd h (by decide)
    | none =>
      cases b with
      | tool name => exact absurd h.symm (plain_tool_ne name (by decide))
      | auto => exact absurd h (by decide)
      | none => rfl
      | required => exact absurd h (by decide)
    | required =>
      cases b with
      | tool name => exact absurd h.symm (plain_tool_ne name (by decide))
      | auto => exact absurd h (by decide)
      | none => exact absurd h (by decide)
      | required => rfl
  responseFormat := by
    intro a b h
    cases a with
    | jsonObject =>
      cases b with
      | jsonObject => rfl
      | jsonSchema name schema => exact absurd h.symm (schema_ne_object _ _)
    | jsonSchema name schema =>
      cases b with
      | jsonObject => exact absurd h (schema_ne_object _ _)
      | jsonSchema name' schema' =>
        obtain ⟨hname, hschema⟩ := schema_inj h
        rw [hname, hschema]
  sealedFloat q := by
    simp only [plainFormats, String.toList_ofList]
    exact sealed_number (writesFloats_plain.chars q)
  sealedStr s := by
    simp only [plainFormats, String.toList_ofList]
    exact sealed_quote s
  sealedValue v := by
    simp only [plainFormats, String.toList_ofList]
    exact @sealed_render plainFormats writesFloats_plain v

def disguised : ChatRequest :=
  { model := "m|None|None|None|sys:x", messages := [.system "y"] }

def disguising : ChatRequest :=
  { model := "m", messages := [.system "x|None|None|None|sys:y"] }

theorem not_keysTell_disguised : plainFormats.Faithful ∧ ¬KeysTell plainFormats disguised disguising
    ∧ ¬KeysTell plainFormats { disguised with maxTokens := some 16 } disguised := by
  refine ⟨faithful_plain, ?_, ?_⟩
  . intro h
    have hsame := h.paramKey (by decide)
    exact absurd hsame.model (by decide)
  . intro h
    have hsame := h.paramKey (by decide)
    exact absurd hsame.maxTokens (by decide)

theorem hits_compatible_plain : HitsCompatible plainFormats :=
  hits_compatible plainFormats faithful_plain

end Wovyr.Provider
