import TdsWasm.LibDecode

/-! The ABI shared by guest and host (`tds-abi`): constants, the capability envelope, what the
agent is started with and answers, tools, and the wire forms of all of them. -/

set_option autoImplicit false

namespace TdsWasm

open Decode

/-- Version of this ABI. The host refuses to run a guest that disagrees. -/
def abiVersion : Int32 := 1

def hostModule : String := "tds_host"

namespace ErrorCode

/-- The guest passed a pointer and a length outside its own memory. -/
def badPointer : Int32 := -1

/-- The capability name was not valid UTF-8, or a read did not match the pending response. -/
def badRequest : Int32 := -2

/-- The host could not serialize a response. -/
def internal : Int32 := -3

end ErrorCode

inductive LogLevel where
  | debug
  | info
  | warn
  | error
  deriving DecidableEq

namespace LogLevel

def fromI32 (v : Int32) : LogLevel :=
  if v = 0 then .debug else if v = 2 then .warn else if v = 3 then .error else .info

def asStr : LogLevel → String
  | debug => "debug"
  | info => "info"
  | warn => "warn"
  | error => "error"

def toI32 : LogLevel → Int32
  | debug => 0
  | info => 1
  | warn => 2
  | error => 3

end LogLevel

def packPtrLen (ptr len : UInt32) : UInt64 := (ptr.toUInt64 <<< 32) ||| len.toUInt64

/-- Inverse of `packPtrLen`. -/
def unpackPtrLen (packed : UInt64) : UInt32 × UInt32 :=
  ((packed >>> 32).toUInt32, (packed &&& 0xffffffff).toUInt32)

/-! ### Capability envelope -/

namespace Cap

def toolsList : String := "tools.list"

def toolInvoke : String := "tool.invoke"

def llmComplete : String := "llm.complete"

end Cap

structure CapError where
  kind : String
  message : String
  deriving DecidableEq

namespace CapError

def denied (message : String) : CapError := ⟨"denied", message⟩

def notFound (message : String) : CapError := ⟨"not_found", message⟩

def upstream (message : String) : CapError := ⟨"upstream", message⟩

def invalid (message : String) : CapError := ⟨"invalid", message⟩

def display (e : CapError) : String := e.kind ++ ": " ++ e.message

def encode (e : CapError) : Json := .obj [("kind", .str e.kind), ("message", .str e.message)]

def decode (levels : Nat) (j : Json) : Option CapError :=
  record ["kind", "message"] levels j fun _ fields => do
    let kind ← required "kind" string fields
    let message ← required "message" string fields
    return ⟨kind, message⟩

end CapError

/-- Every capability call resolves to exactly one of these. -/
inductive CapResponse (α : Type) where
  | ok (value : α)
  | err (error : CapError)

namespace CapResponse

variable {α : Type}

def intoResult : CapResponse α → Except CapError α
  | ok value => .ok value
  | err error => .error error

def encode (encodeValue : α → Json) : CapResponse α → Json
  | ok value => .obj [("ok", encodeValue value)]
  | err error => .obj [("err", error.encode)]

def decode (decodeValue : Nat → Json → Option α) (levels : Nat) (j : Json) :
    Option (CapResponse α) :=
  newtypeVariant levels (fun levels name j =>
    if name = "ok" then (decodeValue levels j).map ok
    else if name = "err" then (CapError.decode levels j).map err
    else none) j

end CapResponse

/-! ### Agent invocation -/

/-- What the host hands the agent when it starts. -/
structure AgentInput where
  task : String
  context : Option String
  maxSteps : UInt32

namespace AgentInput

def encode (input : AgentInput) : Json :=
  .obj ([("task", Json.str input.task)] ++ (input.context.map fun c => ("context", Json.str c)).toList ++
    [("max_steps", .num (Numeral.ofNat input.maxSteps.toNat))])

def decode (levels : Nat) (j : Json) : Option AgentInput :=
  record ["task", "context", "max_steps"] levels j fun _ fields => do
    let task ← required "task" string fields
    let context ← defaulted "context" none (option string) fields
    let maxSteps ← required "max_steps" u32 fields
    return ⟨task, context, maxSteps⟩

end AgentInput

inductive StopReason where
  | completed
  | stepLimit
  | refusal
  | error
  deriving DecidableEq

namespace StopReason

def asStr : StopReason → String
  | completed => "completed"
  | stepLimit => "step_limit"
  | refusal => "refusal"
  | error => "error"

def ofName (name : String) : Option StopReason :=
  [completed, stepLimit, refusal, error].find? fun stop => stop.asStr = name

def encode (stop : StopReason) : Json := .str stop.asStr

def decode (levels : Nat) (j : Json) : Option StopReason := (unitVariant levels j).bind ofName

end StopReason

structure ToolCallRecord where
  step : UInt32
  name : String
  input : JsonValue
  ok : Bool
  /-- Truncated result, for the audit trail. -/
  result : String

namespace ToolCallRecord

def encode (call : ToolCallRecord) : Json :=
  .obj [("step", .num (Numeral.ofNat call.step.toNat)), ("name", .str call.name),
    ("input", call.input.toJson), ("ok", .bool call.ok), ("result", .str call.result)]

def decode (levels : Nat) (j : Json) : Option ToolCallRecord :=
  record ["step", "name", "input", "ok", "result"] levels j fun levels fields => do
    let step ← required "step" u32 fields
    let name ← required "name" string fields
    let input ← required "input" (value levels) fields
    let ok ← required "ok" bool fields
    let result ← required "result" string fields
    return ⟨step, name, input, ok, result⟩

end ToolCallRecord

structure Usage where
  inputTokens : UInt64
  outputTokens : UInt64
  deriving DecidableEq

namespace Usage

def zero : Usage := ⟨0, 0⟩

/-- Addition on `u64` fields, which wraps in the release build the agent ships as. -/
def add (usage other : Usage) : Usage :=
  ⟨usage.inputTokens + other.inputTokens, usage.outputTokens + other.outputTokens⟩

def encode (usage : Usage) : Json :=
  .obj [("input_tokens", .num (Numeral.ofNat usage.inputTokens.toNat)),
    ("output_tokens", .num (Numeral.ofNat usage.outputTokens.toNat))]

def decode (levels : Nat) (j : Json) : Option Usage :=
  record ["input_tokens", "output_tokens"] levels j fun _ fields => do
    let inputTokens ← defaulted "input_tokens" 0 u64 fields
    let outputTokens ← defaulted "output_tokens" 0 u64 fields
    return ⟨inputTokens, outputTokens⟩

end Usage

/-- What the agent hands back when it finishes. -/
structure AgentOutput where
  answer : String
  /-- How many model turns were consumed. -/
  steps : UInt32
  stop : StopReason
  /-- Every tool the agent invoked, in order. -/
  toolCalls : List ToolCallRecord
  /-- Token usage summed across all model turns. -/
  usage : Usage

namespace AgentOutput

def encode (output : AgentOutput) : Json :=
  .obj [("answer", .str output.answer), ("steps", .num (Numeral.ofNat output.steps.toNat)),
    ("stop", output.stop.encode), ("tool_calls", .arr (output.toolCalls.map ToolCallRecord.encode)),
    ("usage", output.usage.encode)]

def decode (levels : Nat) (j : Json) : Option AgentOutput :=
  record ["answer", "steps", "stop", "tool_calls", "usage"] levels j fun levels fields => do
    let answer ← required "answer" string fields
    let steps ← required "steps" u32 fields
    let stop ← required "stop" (StopReason.decode levels) fields
    let toolCalls ← defaulted "tool_calls" [] (list levels ToolCallRecord.decode) fields
    let usage ← defaulted "usage" .zero (Usage.decode levels) fields
    return ⟨answer, steps, stop, toolCalls, usage⟩

end AgentOutput

/-! ### Tools -/

/-- A tool the host is willing to run on the agent's behalf. -/
structure ToolSpec where
  name : String
  description : String
  inputSchema : JsonValue

namespace ToolSpec

def encode (spec : ToolSpec) : Json :=
  .obj [("name", .str spec.name), ("description", .str spec.description),
    ("input_schema", spec.inputSchema.toJson)]

def decode (levels : Nat) (j : Json) : Option ToolSpec :=
  record ["name", "description", "input_schema"] levels j fun levels fields => do
    let name ← required "name" string fields
    let description ← required "description" string fields
    let inputSchema ← required "input_schema" (value levels) fields
    return ⟨name, description, inputSchema⟩

end ToolSpec

structure ToolsListResponse where
  tools : List ToolSpec

namespace ToolsListResponse

def encode (response : ToolsListResponse) : Json :=
  .obj [("tools", .arr (response.tools.map ToolSpec.encode))]

def decode (levels : Nat) (j : Json) : Option ToolsListResponse :=
  record ["tools"] levels j fun levels fields => do
    let tools ← required "tools" (list levels ToolSpec.decode) fields
    return ⟨tools⟩

end ToolsListResponse

structure ToolInvokeRequest where
  name : String
  input : JsonValue

namespace ToolInvokeRequest

def encode (request : ToolInvokeRequest) : Json :=
  .obj [("name", .str request.name), ("input", request.input.toJson)]

def decode (levels : Nat) (j : Json) : Option ToolInvokeRequest :=
  record ["name", "input"] levels j fun levels fields => do
    let name ← required "name" string fields
    let input ← required "input" (value levels) fields
    return ⟨name, input⟩

end ToolInvokeRequest

structure ToolInvokeResponse where
  /-- Text handed back to the model as a `tool_result` block. -/
  content : String

namespace ToolInvokeResponse

def encode (response : ToolInvokeResponse) : Json := .obj [("content", .str response.content)]

def decode (levels : Nat) (j : Json) : Option ToolInvokeResponse :=
  record ["content"] levels j fun _ fields => do
    let content ← required "content" string fields
    return ⟨content⟩

end ToolInvokeResponse

end TdsWasm
