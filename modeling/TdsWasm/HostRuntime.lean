import TdsWasm.HostTools
import TdsWasm.HostLlm
import TdsWasm.LibMachine

/-! The three host functions (`runtime.rs`) and the machine they make of a run: the guest moves by
calling one of them with any arguments and any memory, the host answers from its state. -/

set_option autoImplicit false

namespace TdsWasm

structure LogLine where
  level : String
  message : String

/-- State the host keeps for a single run. -/
structure HostState where
  policy : Policy
  llm : LlmProvider
  tools : ToolBox
  /-- The response to the most recent capability call, waiting to be read. -/
  pending : Bytes
  logs : List LogLine
  llmCalls : UInt32

namespace HostState

/-- The state a run starts with. -/
def initial (policy : Policy) (llm : LlmProvider) (tools : ToolBox) : HostState where
  policy := policy
  llm := llm
  tools := tools
  pending := []
  logs := []
  llmCalls := 0

end HostState

/-! ### Guest memory access -/

/-- Copy `len` bytes out of guest memory, refusing any range that is not wholly inside it. There is
no memory when the module does not export one under that name. -/
def readGuest (memory : Option Bytes) (ptr len : UInt32) : Option Bytes :=
  memory.bind fun data =>
    if ptr.toNat + len.toNat ≤ data.length then some ((data.drop ptr.toNat).take len.toNat) else none

/-- The memory after a write, unless the range is not wholly inside it. -/
def writeGuest (memory : Option Bytes) (ptr : UInt32) (bytes : Bytes) : Option Bytes :=
  memory.bind fun data =>
    if ptr.toNat + bytes.length ≤ data.length then
      some (data.take ptr.toNat ++ bytes ++ data.drop (ptr.toNat + bytes.length))
    else none

/-! ### Capabilities -/

section Dispatch

variable (platform : Platform)

/-- Encode the envelope. The ABI types always encode, so the fallback of the source for a failed
encoding is never taken. -/
def respond {α : Type} (encodeValue : α → Json) (result : Except CapError α) : Bytes :=
  let envelope : CapResponse α := match result with
    | .ok value => .ok value
    | .error error => .err error
  platform.codec.toVec (envelope.encode encodeValue)

/-- The type `()`: no capability answers with it, but errors are encoded at it. -/
def encodeUnit : Unit → Json := fun _ => .null

/-- Route a capability call. Anything not listed here does not exist. -/
def dispatch (state : HostState) (history : History) (name : String) (request : Bytes) :
    Bytes × HostState × List HostEvent :=
  if name = Cap.toolsList then
    (respond platform ToolsListResponse.encode (.ok ⟨state.tools.specs⟩), state, [])
  else if name = Cap.toolInvoke then
    match platform.codec.fromSlice "ToolInvokeRequest" ToolInvokeRequest.decode request with
    | .ok req =>
        let (answer, tools, events) := state.tools.invoke platform history req.name req.input
        (respond platform ToolInvokeResponse.encode (answer.map fun content => ⟨content⟩),
          { state with tools := tools }, events ++ [.invoked req answer])
    | .error e =>
        (respond platform ToolInvokeResponse.encode
          (.error (.invalid ("malformed tool.invoke request: " ++ e))), state, [])
  else if name = Cap.llmComplete then
    let allowed := state.policy.limits.maxSteps
    if allowed ≤ state.llmCalls then
      (respond platform LlmResponse.encode (.error (.denied ("this run has already used its " ++
        toString allowed.toNat ++ " model turns"))), state, [])
    else
      match platform.codec.fromSlice "LlmRequest" LlmRequest.decode request with
      | .ok req =>
          let (answer, effects) := state.llm.complete history req
          (respond platform LlmResponse.encode answer, { state with llmCalls := state.llmCalls + 1 },
            effects.map .model ++ [.completed req answer])
      | .error e =>
          (respond platform LlmResponse.encode
            (.error (.invalid ("malformed llm.complete request: " ++ e))), state, [])
  else
    (respond platform encodeUnit (.error (.notFound ("this host provides no capability named " ++
      Text.debug platform.plain name))), state, [])

end Dispatch

/-! ### Host functions -/

/-- What a host function reaches through its caller. -/
structure Caller where
  data : HostState
  memory : Option Bytes
  history : History

namespace Caller

def maxLogBytes : UInt32 := 8 * 1024

def maxLogLines : Nat := 512

/-- The host function `log`. -/
def log (caller : Caller) (level : Int32) (ptr len : UInt32) : Caller :=
  match readGuest caller.memory ptr (min len maxLogBytes) with
  | none => caller
  | some bytes =>
      let line : LogLine := ⟨(LogLevel.fromI32 level).asStr, Text.fromUtf8Lossy bytes⟩
      if caller.data.logs.length < maxLogLines then
        { caller with data := { caller.data with logs := caller.data.logs ++ [line] } }
      else caller

def setPending (caller : Caller) (pending : Bytes) : Caller :=
  { caller with data := { caller.data with pending := pending } }

/-- The host function `call`. Its value is the length of the response, cast to `i32`. -/
def call (platform : Platform) (caller : Caller) (namePtr nameLen reqPtr reqLen : UInt32) :
    Int32 × Caller :=
  let max := caller.data.policy.limits.maxRequestBytes
  if max < reqLen.toNat ∨ 256 < nameLen then
    let response := respond platform encodeUnit (.error (.invalid ("capability request of " ++
      toString reqLen.toNat ++ " bytes exceeds the " ++ toString max ++ " byte limit")))
    (Int32.ofNat response.length, caller.setPending response)
  else
    match readGuest caller.memory namePtr nameLen with
    | none => (ErrorCode.badPointer, caller)
    | some nameBytes =>
        match readGuest caller.memory reqPtr reqLen with
        | none => (ErrorCode.badPointer, caller)
        | some reqBytes =>
            match Text.fromUtf8 nameBytes with
            | none => (ErrorCode.badRequest, caller)
            | some name =>
                let (response, state, events) :=
                  dispatch platform caller.data caller.history name reqBytes
                (Int32.ofNat response.length,
                  { caller with
                    data := { state with pending := response }
                    history := caller.history ++ events })

/-- The host function `response_read`. The pending response is taken first, put back when the
length is wrong, and lost when the range is bad. -/
def responseRead (caller : Caller) (ptr len : UInt32) : Int32 × Caller :=
  let pending := caller.data.pending
  if pending.length ≠ len.toNat then (ErrorCode.badRequest, caller)
  else
    match writeGuest caller.memory ptr pending with
    | some memory => (Int32.ofNat len.toNat, { caller.setPending [] with memory := some memory })
    | none => (ErrorCode.badPointer, caller.setPending [])

end Caller

/-! ### Runs -/

/-- One call of a host function by the guest. -/
inductive Invocation where
  | log (level : Int32) (ptr len : UInt32)
  | call (namePtr nameLen reqPtr reqLen : UInt32)
  | responseRead (ptr len : UInt32)

/-- A move of the guest: what its memory holds by now, and the host function it calls. -/
structure GuestMove where
  memory : Option Bytes
  invocation : Invocation

/-- What the host is left with between two moves of the guest. -/
structure HostRun where
  data : HostState
  history : History

/-- What a move gives back: the value of the function, if it has one, and the memory. -/
structure HostReply where
  value : Option Int32
  memory : Option Bytes

namespace HostRun

def caller (run : HostRun) (memory : Option Bytes) : Caller := ⟨run.data, memory, run.history⟩

def ofCaller (caller : Caller) (value : Option Int32) : HostRun × HostReply :=
  (⟨caller.data, caller.history⟩, ⟨value, caller.memory⟩)

def step (platform : Platform) (run : HostRun) (move : GuestMove) : HostRun × HostReply :=
  match move.invocation with
  | .log level ptr len => ofCaller ((run.caller move.memory).log level ptr len) none
  | .call namePtr nameLen reqPtr reqLen =>
      let (value, caller) := (run.caller move.memory).call platform namePtr nameLen reqPtr reqLen
      ofCaller caller (some value)
  | .responseRead ptr len =>
      let (value, caller) := (run.caller move.memory).responseRead ptr len
      ofCaller caller (some value)

/-- A run of any guest. -/
def machine (platform : Platform) : Machine HostRun GuestMove HostReply := ⟨step platform⟩

def start (policy : Policy) (llm : LlmProvider) (tools : ToolBox) : HostRun :=
  ⟨.initial policy llm tools, []⟩

end HostRun

abbrev HostMoment : Type := Machine.Moment HostRun GuestMove HostReply

end TdsWasm
