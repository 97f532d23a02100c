import TdsWasm.AbiTypes

/-! The model conversation of the ABI: content blocks, messages, and one model turn. A block that
does not read as one of the known kinds is carried as the value it is. -/

set_option autoImplicit false

namespace TdsWasm

open Decode

inductive Role where
  | user
  | assistant
  deriving DecidableEq

namespace Role

def asStr : Role → String
  | user => "user"
  | assistant => "assistant"

def ofName (name : String) : Option Role := [user, assistant].find? fun role => role.asStr = name

def encode (role : Role) : Json := .str role.asStr

def decode (levels : Nat) (j : Json) : Option Role := (unitVariant levels j).bind ofName

end Role

inductive KnownContent where
  | text (text : String)
  | thinking (thinking : String) (signature : Option String)
  | redactedThinking (data : String)
  | toolUse (id name : String) (input : JsonValue)
  | toolResult (toolUseId content : String) (isError : Bool)

namespace KnownContent

/-- The values of the tag `type`, in the order of the variants. -/
def kinds : List String := ["text", "thinking", "redacted_thinking", "tool_use", "tool_result"]

def encode : KnownContent → Json
  | text t => .obj [("type", .str "text"), ("text", .str t)]
  | thinking t signature =>
      .obj ([("type", .str "thinking"), ("thinking", .str t)] ++
        (signature.map fun s => ("signature", Json.str s)).toList)
  | redactedThinking data => .obj [("type", .str "redacted_thinking"), ("data", .str data)]
  | toolUse id name input =>
      .obj [("type", .str "tool_use"), ("id", .str id), ("name", .str name), ("input", input.toJson)]
  | toolResult toolUseId content isError =>
      .obj ([("type", .str "tool_result"), ("tool_use_id", .str toolUseId), ("content", .str content)] ++
        if isError then [("is_error", .bool true)] else [])

/-- The fields of the variant of that kind, read from what the tag left. -/
def ofFields (kind : String) (rest : Json) : Option KnownContent :=
  if kind = "text" then
    (fields ["text"] rest).bind fun fields => do
      let text ← required "text" string fields
      return .text text
  else if kind = "thinking" then
    (fields ["thinking", "signature"] rest).bind fun fields => do
      let thinking ← required "thinking" string fields
      let signature ← defaulted "signature" none (option string) fields
      return .thinking thinking signature
  else if kind = "redacted_thinking" then
    (fields ["data"] rest).bind fun fields => do
      let data ← required "data" string fields
      return .redactedThinking data
  else if kind = "tool_use" then
    (fields ["id", "name", "input"] rest).bind fun fields => do
      let id ← required "id" string fields
      let name ← required "name" string fields
      let input ← required "input" (fun j => some j.toValue) fields
      return .toolUse id name input
  else if kind = "tool_result" then
    (fields ["tool_use_id", "content", "is_error"] rest).bind fun fields => do
      let toolUseId ← required "tool_use_id" string fields
      let content ← required "content" string fields
      let isError ← defaulted "is_error" false bool fields
      return .toolResult toolUseId content isError
  else none

/-- Read a buffered block as one of the known kinds. -/
def ofBuffered (j : Json) : Option KnownContent := do
  let (tag, rest) ← internallyTagged "type" j
  let kind ← variantName kinds tag
  ofFields kind rest

end KnownContent

/-- One content block. The `raw` arm carries a block of any other kind through as a value. -/
inductive Content where
  | known (block : KnownContent)
  | raw (value : JsonValue)

namespace Content

def encode : Content → Json
  | known block => block.encode
  | raw value => value.toJson

/-- The first arm that reads the buffered block: a known kind, else the raw value. -/
def ofBuffered (j : Json) : Content :=
  match KnownContent.ofBuffered j with
  | some block => known block
  | none => raw j.toValue

/-- A block is buffered before an arm is chosen, so all of it counts against the levels. -/
def decode (levels : Nat) (j : Json) : Option Content :=
  if j.depth ≤ levels then some (ofBuffered j) else none

def text (t : String) : Content := known (.text t)

def toolResult (toolUseId content : String) (isError : Bool) : Content :=
  known (.toolResult toolUseId content isError)

/-- The text of this block, if it is a text block. -/
def asText : Content → Option String
  | known (.text t) => some t
  | _ => none

/-- The id, name and input of this block, if it is a tool-use block. -/
def asToolUse : Content → Option (String × String × JsonValue)
  | known (.toolUse id name input) => some (id, name, input)
  | _ => none

end Content

structure Message where
  role : Role
  content : List Content

namespace Message

def user (content : List Content) : Message := ⟨.user, content⟩

def assistant (content : List Content) : Message := ⟨.assistant, content⟩

def encode (message : Message) : Json :=
  .obj [("role", message.role.encode), ("content", .arr (message.content.map Content.encode))]

def decode (levels : Nat) (j : Json) : Option Message :=
  record ["role", "content"] levels j fun levels fields => do
    let role ← required "role" (Role.decode levels) fields
    let content ← required "content" (list levels Content.decode) fields
    return ⟨role, content⟩

end Message

/-- A model turn requested by the agent. There is no model id, no API key and no endpoint in it. -/
structure LlmRequest where
  system : Option String
  messages : List Message
  tools : List ToolSpec

namespace LlmRequest

def encode (request : LlmRequest) : Json :=
  .obj ((request.system.map fun s => ("system", Json.str s)).toList ++
    [("messages", .arr (request.messages.map Message.encode)),
      ("tools", .arr (request.tools.map ToolSpec.encode))])

def decode (levels : Nat) (j : Json) : Option LlmRequest :=
  record ["system", "messages", "tools"] levels j fun levels fields => do
    let system ← defaulted "system" none (option string) fields
    let messages ← required "messages" (list levels Message.decode) fields
    let tools ← defaulted "tools" [] (list levels ToolSpec.decode) fields
    return ⟨system, messages, tools⟩

end LlmRequest

structure LlmResponse where
  /-- `end_turn`, `tool_use`, `max_tokens`, `refusal`, ... -/
  stopReason : String
  content : List Content
  usage : Usage

namespace LlmResponse

def encode (response : LlmResponse) : Json :=
  .obj [("stop_reason", .str response.stopReason),
    ("content", .arr (response.content.map Content.encode)), ("usage", response.usage.encode)]

def decode (levels : Nat) (j : Json) : Option LlmResponse :=
  record ["stop_reason", "content", "usage"] levels j fun levels fields => do
    let stopReason ← required "stop_reason" string fields
    let content ← required "content" (list levels Content.decode) fields
    let usage ← defaulted "usage" .zero (Usage.decode levels) fields
    return ⟨stopReason, content, usage⟩

/-- Every text block, which is what a caller wants as the answer. -/
def joinedText (response : LlmResponse) : String :=
  Text.trim ("\n".intercalate (response.content.filterMap Content.asText))

end LlmResponse

end TdsWasm
