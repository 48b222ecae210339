import Wovyr.Json.Text
import Wovyr.Lib.Text

/-!
This module contains the requests and responses of chat completions that all providers share.
-/

namespace Wovyr.Provider

inductive Role where
  | system
  | user
  | assistant
  | tool
deriving DecidableEq

inductive ContentPart where
  | text (text : String)
  | imageUrl (url : String)
  | image (mediaType data : String)
  | audio (mediaType data : String)
deriving DecidableEq

structure ToolCall where
  id : String
  name : String
  arguments : String
deriving DecidableEq

structure Message where
  role : Role
  content : Option String := none
  parts : List ContentPart := []
  toolCalls : List ToolCall := []
  toolCallId : Option String := none
  name : Option String := none
deriving DecidableEq

namespace Message

def text (role : Role) (content : String) : Message :=
  { role, content := some content }

def system (content : String) : Message :=
  text .system content

def user (content : String) : Message :=
  text .user content

def assistant (content : String) : Message :=
  text .assistant content

def toolResult (toolCallId name content : String) : Message :=
  { role := .tool, content := some content, toolCallId := some toolCallId, name := some name }

end Message

structure ToolSpec where
  name : String
  description : String
  parameters : Value
  strict : Bool := false
deriving DecidableEq

inductive ToolChoice where
  | auto
  | none
  | required
  | tool (name : String)
deriving DecidableEq

inductive ResponseFormat where
  | jsonObject
  | jsonSchema (name : String) (schema : Value)
deriving DecidableEq

structure ChatRequest where
  model : String
  messages : List Message
  temperature : Option Rat := .none
  maxTokens : Option Nat := .none
  tools : List ToolSpec := []
  toolChoice : Option ToolChoice := .none
  responseFormat : Option ResponseFormat := .none
deriving DecidableEq

structure Usage where
  promptTokens : Nat := 0
  completionTokens : Nat := 0
  totalTokens : Nat := 0
  costUsd : Rat := 0
deriving DecidableEq

structure ChatResponse where
  message : Message
  model : String
  usage : Usage
  finishReason : String
deriving DecidableEq

-- How `serde` writes these values.

def Role.toValue : Role → Value
  | .system => .string "system"
  | .user => .string "user"
  | .assistant => .string "assistant"
  | .tool => .string "tool"

def ContentPart.toValue : ContentPart → Value
  | .text s => .object [("type", .string "text"), ("text", .string s)]
  | .imageUrl url => .object [("type", .string "image_url"), ("url", .string url)]
  | .image mediaType data =>
    .object [("type", .string "image"), ("media_type", .string mediaType), ("data", .string data)]
  | .audio mediaType data =>
    .object [("type", .string "audio"), ("media_type", .string mediaType), ("data", .string data)]

def ToolCall.toValue (c : ToolCall) : Value :=
  .object [("id", .string c.id), ("name", .string c.name), ("arguments", .string c.arguments)]

def optField (key : String) (s : Option String) : List (String × Value) :=
  s.toList.map fun s => (key, .string s)

def listField (key : String) (xs : List Value) : List (String × Value) :=
  if xs.isEmpty then [] else [(key, .array xs)]

def Message.toValue (m : Message) : Value :=
  .object ([("role", m.role.toValue)] ++ optField "content" m.content
    ++ listField "parts" (m.parts.map ContentPart.toValue)
    ++ listField "tool_calls" (m.toolCalls.map ToolCall.toValue)
    ++ optField "tool_call_id" m.toolCallId ++ optField "name" m.name)

def ToolSpec.toValue (t : ToolSpec) : Value :=
  .object [("name", .string t.name), ("description", .string t.description),
    ("parameters", t.parameters), ("strict", .bool t.strict)]

-- What `{:?}` and `serde_json` make of floating-point numbers, strings and values.
structure Formats where
  float : Rat → String
  str : String → String
  value : Value → String
  json : Rat → List Char

def debugOption (debug : α → String) : Option α → String
  | .none => "None"
  | .some a => "Some(" ++ debug a ++ ")"

def ToolChoice.debug (fmt : Formats) : ToolChoice → String
  | .auto => "Auto"
  | .none => "None"
  | .required => "Required"
  | .tool name => "Tool(" ++ fmt.str name ++ ")"

def ResponseFormat.debug (fmt : Formats) : ResponseFormat → String
  | .jsonObject => "JsonObject"
  | .jsonSchema name schema =>
    "JsonSchema \x7b name: " ++ fmt.str name ++ ", schema: " ++ fmt.value schema ++ " \x7d"

def toJson (fmt : Formats) (xs : List Value) : String :=
  String.ofList (Json.render fmt.json (.array xs))

end Wovyr.Provider
