import TdsWasm.HostRuntime

/-! One run of an agent module (`Runtime::run` and `invoke_agent` of `runtime.rs`): the module as the host
reaches it, what can go wrong inside it, the hand-off of the input and the output through its memory, and
the report made of all this. -/

set_option autoImplicit false

namespace TdsWasm

/-! ### Failures -/

inductive Trap where
  | outOfFuel
  | interrupt
  | unreachableCodeReached
  | other (text : String)

/-- An error of the host or of the engine: a trap of the guest, or a message with its context. -/
inductive Failure where
  | trap (trap : Trap)
  | message (text : String)

/-- Context is put in front of a message. A trap is found under any context. -/
def Failure.context (text : String) : Failure → Failure
  | trap t => trap t
  | message cause => message (text ++ ": " ++ cause)

def describeTrap : Failure → String
  | .trap .outOfFuel => "The agent was stopped: it exhausted its compute budget (limits.fuel)."
  | .trap .interrupt =>
      "The agent was stopped: it exceeded its wall-clock budget (limits.wall_clock_ms)."
  | .trap .unreachableCodeReached => "The agent panicked inside the sandbox and was stopped."
  | .trap (.other text) => "The agent trapped and was stopped: " ++ text ++ "."
  | .message text => "The agent run failed: " ++ text

/-! ### Modules -/

variable {γ : Type}

/-- A run under way: what the host is left with, and the state of the guest. -/
structure Store (γ : Type) where
  host : HostRun
  guest : γ

/-- Code that runs in the store, the guest's or the host's, and may fail. -/
abbrev GuestCall (γ α : Type) : Type := ExceptT Failure (StateM (Store γ)) α

/-- The linear memory of a guest, as the host reads and writes it. -/
structure GuestMemory (γ : Type) where
  data : γ → Bytes
  setData : γ → Bytes → γ

/-- A module in the store: its start function, its memory, and its exports as they are looked up. -/
structure Instance (γ : Type) where
  start : GuestCall γ Unit
  memory : Option (GuestMemory γ)
  abiVersion : Except Failure (GuestCall γ Int32)
  alloc : Except Failure (UInt32 → GuestCall γ UInt32)
  dealloc : Except Failure (UInt32 → UInt32 → GuestCall γ Unit)
  run : Except Failure (UInt32 → UInt32 → GuestCall γ UInt64)

namespace GuestMemory

def outOfBounds : Failure := .message "out of bounds memory access"

def write (memory : GuestMemory γ) (ptr : UInt32) (bytes : Bytes) : GuestCall γ Unit := do
  let store ← getThe (Store γ)
  match writeGuest (some (memory.data store.guest)) ptr bytes with
  | some data => set { store with guest := memory.setData store.guest data }
  | none => throw (outOfBounds.context "writing agent input into guest memory")

def read (memory : GuestMemory γ) (ptr len : UInt32) : GuestCall γ Bytes := do
  let store ← getThe (Store γ)
  match readGuest (some (memory.data store.guest)) ptr len with
  | some bytes => return bytes
  | none => throw (outOfBounds.context "reading the agent result from guest memory")

end GuestMemory

namespace Instance

variable (platform : Platform) (inst : Instance γ)

/-- Instantiation runs the start function, if there is one. -/
def instantiate : GuestCall γ Unit :=
  tryCatch inst.start fun failure => throw (failure.context "instantiating the agent module")

def checkAbiVersion : GuestCall γ Unit := do
  match inst.abiVersion with
  | .error failure => throw (failure.context "agent module has no usable tds_abi_version export")
  | .ok call =>
      let version ← tryCatch call fun failure => throw (failure.context "calling tds_abi_version")
      if version ≠ TdsWasm.abiVersion then
        throw (.message ("agent module speaks ABI version " ++ toString version ++ ", host speaks " ++
          toString TdsWasm.abiVersion))

def invokeAgent (input : AgentInput) : GuestCall γ AgentOutput := do
  match inst.memory with
  | none => throw (.message "agent module does not export its memory")
  | some memory =>
      let alloc ← liftExcept inst.alloc
      let dealloc ← liftExcept inst.dealloc
      let run ← liftExcept inst.run
      let encoded := platform.codec.toVec input.encode
      let len := UInt32.ofNat encoded.length
      let ptr ← alloc len
      if ptr = 0 then
        throw (.message ("agent module could not allocate " ++ toString len.toNat ++
          " bytes for its input"))
      memory.write ptr encoded
      let packed ← run ptr len
      dealloc ptr len
      let (outPtr, outLen) := unpackPtrLen packed
      if outPtr = 0 ∨ outLen = 0 then
        throw (.message "agent returned an empty result")
      let buffer ← memory.read outPtr outLen
      dealloc outPtr outLen
      match platform.codec.fromSlice "AgentOutput" AgentOutput.decode buffer with
      | .ok output => return output
      | .error e => throw (.message ("decoding the agent result: " ++ e))
where
  liftExcept {α : Type} (lookup : Except Failure α) : GuestCall γ α := ExceptT.mk (pure lookup)

end Instance

/-! ### Reports -/

/-- What is observable about one run, without its duration and its fuel. -/
structure RunReport where
  output : AgentOutput
  model : String
  logs : List LogLine

/-- What the caller is told when the agent has been stopped. -/
def stoppedOutput (failure : Failure) : AgentOutput where
  answer := describeTrap failure
  steps := 0
  stop := .error
  toolCalls := []
  usage := .zero

/-- How a run ends. A report comes with what it is made from: the result of the invocation and the store
that the invocation has left. -/
inductive RunResult (γ : Type) where
  | panicked
  | err (failure : Failure)
  | ok (report : RunReport) (result : Except Failure AgentOutput) (store : Store γ)

/-- `Ord::clamp`, which panics when the bounds are not in order. -/
def clamp (value low high : UInt32) : Option UInt32 :=
  if low ≤ high then some (max low (min value high)) else none

structure Runtime (γ : Type) where
  policy : Policy
  llm : LlmProvider
  /-- The compiled module, and the state of its guest before it runs. -/
  agent : Instance γ
  fresh : γ

namespace Runtime

variable (platform : Platform) (runtime : Runtime γ)

/-- The store a run starts with. -/
def store (tools : ToolBox) : Store γ :=
  ⟨.start runtime.policy runtime.llm tools, runtime.fresh⟩

/-- The report of an invocation, with the store it has left. -/
def report (result : Except Failure AgentOutput) (store : Store γ) : RunReport where
  output := match result with
    | .ok output => output
    | .error failure => stoppedOutput failure
  model := runtime.llm.describe
  logs := store.host.data.logs

/-- Run the agent once, in a fresh instance. The guest may ask for fewer steps than the policy allows,
never more. -/
def run (input : AgentInput) : RunResult γ :=
  match clamp input.maxSteps 1 runtime.policy.limits.maxSteps with
  | none => .panicked
  | some maxSteps =>
      match ToolBox.new platform runtime.policy with
      | .error e => .err (.message e)
      | .ok tools =>
          match (runtime.agent.instantiate >>= fun _ => runtime.agent.checkAbiVersion)
              (runtime.store tools) with
          | (.error failure, _) => .err failure
          | (.ok (), store) =>
              let (result, store) :=
                runtime.agent.invokeAgent platform { input with maxSteps := maxSteps } store
              .ok (runtime.report result store) result store

end Runtime

end TdsWasm
