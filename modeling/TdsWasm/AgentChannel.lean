import TdsWasm.AgentLoop
import TdsWasm.HostInvoke

/-! How the agent reaches the host: `host_call` over the three imported functions, the sandbox that lays
out in guest memory what they refer to and may stop the guest at any time, and the exports of the agent
module (`tds_alloc`, `tds_dealloc`, `tds_run`). -/

set_option autoImplicit false

namespace TdsWasm

/-! ### Host calls -/

/-- A host function as the agent calls it, with the bytes its pointers refer to. A read gives the value
of the function and what the buffer holds afterwards. -/
inductive HostImport where
  | log (level : Int32) (message : Bytes)
  | call (name request : Bytes)
  | responseRead (len : Int32)

abbrev importSignature : Signature where
  Op := HostImport
  Answer
    | .log _ _ => Unit
    | .call _ _ => Int32
    | .responseRead _ => Int32 × Bytes

abbrev ImportProgram (α : Type) : Type := Program importSignature α

def callFailure (n : Int32) : String :=
  if n = ErrorCode.badPointer then "host rejected a memory reference"
  else if n = ErrorCode.badRequest then "host could not decode the request"
  else if n = ErrorCode.internal then "host failed internally"
  else "unknown host failure"

section HostCall

variable (codec : JsonCodec) {α : Type}

/-- Read the envelope of a response. -/
def openResponse (name : String) (decode : Nat → Json → Option α) (buf : Bytes) : Except CapError α :=
  match codec.fromSlice "CapResponse" (CapResponse.decode decode) buf with
  | .ok envelope => envelope.intoResult
  | .error e => .error ⟨"host", name ++ ": malformed response: " ++ e⟩

/-- Fetch the response that a call has announced with this value, and decode it. -/
def receiveResponse (name : String) (decode : Nat → Json → Option α) (n : Int32) :
    ImportProgram (Except CapError α) :=
  if n < 0 then
    .done (.error ⟨"host", name ++ ": " ++ callFailure n⟩)
  else if 0 < n then
    Program.ask (HostImport.responseRead n) fun (read : Int32 × Bytes) =>
      if read.1 ≠ n then .done (.error ⟨"host", name ++ ": truncated response"⟩)
      else .done (openResponse codec name decode read.2)
  else .done (openResponse codec name decode [])

/-- Invoke a host capability and decode its response. The body is the encoded request; encoding never
fails at the types of the ABI. -/
def hostCall (name : String) (body : Bytes) (decode : Nat → Json → Option α) :
    ImportProgram (Except CapError α) :=
  Program.ask (HostImport.call (Text.utf8 name) body) (receiveResponse codec name decode)

/-- The questions of the agent as programs over the imports. -/
def hostOp : (op : AgentOp) → ImportProgram (agentSignature.Answer op)
  | .emit level message => Program.ask (HostImport.log level.toI32 (Text.utf8 message)) Program.done
  | .toolsList => hostCall codec Cap.toolsList (codec.toVec (.obj [])) ToolsListResponse.decode
  | .toolInvoke request =>
      hostCall codec Cap.toolInvoke (codec.toVec request.encode) ToolInvokeResponse.decode
  | .llmComplete request =>
      hostCall codec Cap.llmComplete (codec.toVec request.encode) LlmResponse.decode

end HostCall

/-! ### The sandbox -/

/-- The guest's memory when it calls a host function, and where in it the arguments are. -/
structure Placement where
  memory : Bytes
  first : UInt32
  second : UInt32

namespace Placement

def invocation (placement : Placement) : HostImport → Invocation
  | .log level message => .log level placement.first (UInt32.ofNat message.length)
  | .call name request => .call placement.first (UInt32.ofNat name.length) placement.second
      (UInt32.ofNat request.length)
  | .responseRead len => .responseRead placement.first len.toUInt32

def move (placement : Placement) (op : HostImport) : GuestMove :=
  ⟨some placement.memory, placement.invocation op⟩

/-- These bytes lie in memory at that address, and their length fits a word. -/
def Holding (placement : Placement) (ptr : UInt32) (bytes : Bytes) : Prop :=
  bytes.length < 2 ^ 32 ∧
    readGuest (some placement.memory) ptr (UInt32.ofNat bytes.length) = some bytes

/-- What the arguments refer to lies in memory. -/
def Holds (placement : Placement) : HostImport → Prop
  | .log _ message => placement.Holding placement.first message
  | .call name request =>
      placement.Holding placement.first name ∧ placement.Holding placement.second request
  | .responseRead len => placement.first.toNat + len.toUInt32.toNat ≤ placement.memory.length

/-- What the guest gets back. The two functions that give a value always give one. -/
def answer (placement : Placement) (reply : HostReply) : (op : HostImport) → importSignature.Answer op
  | .log _ _ => ()
  | .call _ _ => reply.value.getD 0
  | .responseRead len => (reply.value.getD 0,
      (readGuest reply.memory placement.first len.toUInt32).getD [])

end Placement

/-- A block of guest memory. -/
structure Block where
  ptr : UInt32
  len : UInt32
  deriving DecidableEq

namespace Block

def contents (block : Block) (memory : Bytes) : Option Bytes :=
  readGuest (some memory) block.ptr block.len

def Disjoint (left right : Block) : Prop :=
  left.ptr.toNat + left.len.toNat ≤ right.ptr.toNat ∨
    right.ptr.toNat + right.len.toNat ≤ left.ptr.toNat

end Block

/-- The engine around the compiled agent: what it computes between two calls of host functions, its
allocator, and the traps that may stop it at any of these. The allocator gives out blocks that are inside
the memory, above address 1 and apart from all blocks in use, or the null pointer; a block in use keeps
its contents when another one is taken or freed. -/
structure Sandbox where
  Guest : Type
  memory : Guest → Bytes
  setMemory : Guest → Bytes → Guest
  /-- The blocks that `alloc` has given out and that are not freed. -/
  handed : Guest → List Block
  place : Guest → HostImport → Except Trap Placement × Guest
  compute : Guest → Bytes → Except Trap Unit × Guest
  allocate : Guest → UInt32 → Except Trap UInt32 × Guest
  release : Guest → Block → Except Trap Unit × Guest
  memory_set : ∀ guest data, memory (setMemory guest data) = data
  handed_set : ∀ guest data, handed (setMemory guest data) = handed guest
  place_holds : ∀ guest op placement guest', place guest op = (.ok placement, guest') → placement.Holds op
  place_handed : ∀ guest op, handed (place guest op).2 = handed guest
  compute_fits : ∀ guest bytes guest', compute guest bytes = (.ok (), guest') → bytes.length < 2 ^ 32
  compute_handed : ∀ guest bytes, handed (compute guest bytes).2 = handed guest
  allocate_ok : ∀ guest len ptr guest', allocate guest len = (.ok ptr, guest') → ptr ≠ 0 →
    1 < ptr.toNat ∧ ptr.toNat + len.toNat ≤ (memory guest').length ∧
      (∀ block ∈ handed guest, block.Disjoint ⟨ptr, len⟩) ∧ handed guest' = ⟨ptr, len⟩ :: handed guest
  allocate_keeps : ∀ guest len ptr guest', allocate guest len = (.ok ptr, guest') →
    ∀ block ∈ handed guest, block.contents (memory guest') = block.contents (memory guest)
  release_ok : ∀ guest block guest', release guest block = (.ok (), guest') →
    handed guest' = (handed guest).erase block
  release_keeps : ∀ guest block guest', release guest block = (.ok (), guest') →
    ∀ kept ∈ (handed guest).erase block, kept.contents (memory guest') = kept.contents (memory guest)

namespace Sandbox

variable (platform : Platform) (sandbox : Sandbox)

/-- Code of the guest, in the store. -/
def inGuest {α : Type} (code : sandbox.Guest → Except Trap α × sandbox.Guest) :
    GuestCall sandbox.Guest α :=
  fun store => ((code store.guest).1.mapError .trap, { store with guest := (code store.guest).2 })

/-- The guest computes up to its next call of a host function, and the host answers it. -/
def serve : importSignature.StoppingHandler Failure (Store sandbox.Guest) := fun store op =>
  match sandbox.place store.guest op with
  | (.error trap, guest) => (.error (.trap trap), { store with guest := guest })
  | (.ok placement, guest) =>
      let (host, reply) := store.host.step platform (placement.move op)
      (.ok (placement.answer reply op), ⟨host, sandbox.setMemory guest (reply.memory.getD [])⟩)

/-! ### Exports -/

def isizeMax : Nat := 2 ^ 31 - 1

/-- Allocate `len` bytes of guest memory for the host to write into. -/
def tdsAlloc (len : UInt32) : GuestCall sandbox.Guest UInt32 := do
  if len = 0 then return 1
  if isizeMax < len.toNat then return 0
  sandbox.inGuest fun guest => sandbox.allocate guest len

/-- Free an allocation that `tdsAlloc` has handed out. -/
def tdsDealloc (ptr len : UInt32) : GuestCall sandbox.Guest Unit := do
  if ptr = 0 ∨ ptr = 1 ∨ len = 0 then return
  if isizeMax < len.toNat then return
  sandbox.inGuest fun guest => sandbox.release guest ⟨ptr, len⟩

def outOfBounds : Trap := .other "wasm trap: out of bounds memory access"

/-- Hand a buffer to the host, which reads it and frees it. -/
def leakToHost (bytes : Bytes) : GuestCall sandbox.Guest UInt64 := do
  let len := UInt32.ofNat bytes.length
  let out ← sandbox.tdsAlloc len
  if out = 0 then return packPtrLen 0 0
  sandbox.inGuest fun guest =>
    match writeGuest (some (sandbox.memory guest)) out bytes with
    | some data => (.ok (), sandbox.setMemory guest data)
    | none => (.error outOfBounds, guest)
  return packPtrLen out len

/-- What the agent answers to an input that does not decode. -/
def unparsedOutput (e : String) : AgentOutput where
  answer := "could not parse agent input: " ++ e
  steps := 0
  stop := .error
  toolCalls := []
  usage := .zero

/-- The agent on the input that these bytes encode. -/
def agentOutput (raw : Bytes) : GuestCall sandbox.Guest AgentOutput :=
  match platform.codec.fromSlice "AgentInput" AgentInput.decode raw with
  | .ok input => ((runAgent input).translate (hostOp platform.codec)).exec (sandbox.serve platform)
  | .error e => pure (unparsedOutput e)

/-- Run the agent on the input at that place. -/
def tdsRun (ptr len : UInt32) : GuestCall sandbox.Guest UInt64 := do
  let raw ← sandbox.inGuest fun guest =>
    match readGuest (some (sandbox.memory guest)) ptr len with
    | some raw => (.ok raw, guest)
    | none => (.error outOfBounds, guest)
  let output ← sandbox.agentOutput platform raw
  let bytes := platform.codec.toVec output.encode
  sandbox.inGuest fun guest => sandbox.compute guest bytes
  sandbox.leakToHost bytes

/-- The agent module in this sandbox. It has no start function. -/
def agent : Instance sandbox.Guest where
  start := pure ()
  memory := some ⟨sandbox.memory, sandbox.setMemory⟩
  abiVersion := .ok do
    sandbox.inGuest fun guest => sandbox.compute guest []
    return abiVersion
  alloc := .ok sandbox.tdsAlloc
  dealloc := .ok sandbox.tdsDealloc
  run := .ok (sandbox.tdsRun platform)

end Sandbox

end TdsWasm
