import TdsWasm.HostInvoke
import TdsWasm.LibProgram

/-! Agent modules and what `Runtime::new` makes of them (`runtime.rs`): imports and exports with their kinds
and types, the check at load time, linking and the lookups of a run, and the code behind the exports. Code of
a guest asks the host only through the three host functions, and may trap anywhere. -/

set_option autoImplicit false

namespace TdsWasm

/-! ### Shapes -/

inductive ValType where
  | i32
  | i64
  | f32
  | f64
  | v128
  | ref (heap : String)
  deriving DecidableEq

structure FuncType where
  params : List ValType
  results : List ValType
  deriving DecidableEq

/-- The kind of an import or an export, with its type as far as the host looks into it. -/
inductive ExternType where
  | func (type : FuncType)
  | global (content : ValType)
  | table (element : ValType)
  | memory
  | sharedMemory
  | tag (type : FuncType)
  deriving DecidableEq

structure ImportType where
  moduleName : String
  name : String
  type : ExternType
  deriving DecidableEq

/-- The imports of a module, in order, and its exports by their names. -/
structure ModuleShape where
  imports : List ImportType
  exports : OrderedMap String ExternType

/-- The functions that the host registers in the linker, with the types of their Rust closures. -/
def registerHostFunctions : List (String × FuncType) :=
  [("log", ⟨[.i32, .i32, .i32], []⟩), ("call", ⟨[.i32, .i32, .i32, .i32], [.i32]⟩),
    ("response_read", ⟨[.i32, .i32], [.i32]⟩)]

namespace ModuleShape

def allowed : List String := ["log", "call", "response_read"]

def requiredExports : List String := ["memory", "tds_abi_version", "tds_alloc", "tds_dealloc", "tds_run"]

/-- The linker knows a definition for this import, and it is a function of the same type. -/
def defines (entry : ImportType) : Bool :=
  entry.moduleName = hostModule &&
    (registerHostFunctions.lookup entry.name).any fun type => entry.type = .func type

/-- Instantiation looks up every import. -/
def link (shape : ModuleShape) : Except Failure Unit :=
  match shape.imports.find? fun entry => !defines entry with
  | some entry => .error (.message ("no definition of this type for the import " ++ entry.moduleName ++ "::" ++
      entry.name))
  | none => .ok ()

def getTypedFunc (shape : ModuleShape) (name : String) (type : FuncType) : Except Failure Unit :=
  if shape.exports.get name = some (.func type) then .ok ()
  else .error (.message ("failed to find a function export of this type: " ++ name))

def getMemory (shape : ModuleShape) (name : String) : Bool := shape.exports.get name = some .memory

end ModuleShape

/-- Reject a module that imports anything beyond the host ABI, or lacks one of the exports. Only names are
looked at. -/
def verifyModuleShape (platform : Platform) (shape : ModuleShape) : Except String Unit := do
  match shape.imports.find? fun entry =>
      entry.moduleName ≠ hostModule ∨ !ModuleShape.allowed.contains entry.name with
  | some entry => throw ("agent module imports " ++ entry.moduleName ++ "::" ++ entry.name ++
      ", which this host does not provide; the agent may only import " ++ hostModule ++
      "::\x7blog, call, response_read\x7d")
  | none => pure ()
  match ModuleShape.requiredExports.find? fun required => (shape.exports.get required).isNone with
  | some required => throw ("agent module does not export " ++ Text.debug platform.plain required)
  | none => return ()

/-! ### Code -/

/-- The host functions as the code of a guest calls them. -/
abbrev moveSignature : Signature where
  Op := GuestMove
  Answer _ := HostReply

/-- Code of a guest, from the state it finds the guest in: it computes, calls host functions, and ends with a
value or with a trap. -/
abbrev GuestCode (γ α : Type) : Type := γ → Program moveSignature (Except Trap α × γ)

/-- The host answers the calls of a guest, one after the other. -/
def HostRun.answer (platform : Platform) : moveSignature.Handler HostRun := fun run move =>
  let (after, reply) := run.step platform move
  (reply, after)

variable {γ : Type}

/-- Code of a guest, in the store. -/
def GuestCode.inStore {α : Type} (platform : Platform) (code : GuestCode γ α) : GuestCall γ α := fun store =>
  let ended := (code store.guest).run (HostRun.answer platform) store.host
  (ended.result.1.mapError .trap, ⟨ended.state, ended.result.2⟩)

/-- A compiled module: its shape, and the code that runs when it is instantiated and called. -/
structure AgentModule (γ : Type) where
  shape : ModuleShape
  memory : GuestMemory γ
  start : GuestCode γ Unit
  abiVersion : GuestCode γ Int32
  alloc : UInt32 → GuestCode γ UInt32
  dealloc : UInt32 → UInt32 → GuestCode γ Unit
  run : UInt32 → UInt32 → GuestCode γ UInt64

namespace AgentModule

variable (platform : Platform) (module : AgentModule γ)

/-- The module in a store. Its start function runs once its imports are linked. -/
def toInstance : Instance γ where
  start := Instance.invokeAgent.liftExcept module.shape.link >>= fun _ => module.start.inStore platform
  memory := if module.shape.getMemory "memory" then some module.memory else none
  abiVersion := (module.shape.getTypedFunc "tds_abi_version" ⟨[], [.i32]⟩).map fun _ =>
    module.abiVersion.inStore platform
  alloc := (module.shape.getTypedFunc "tds_alloc" ⟨[.i32], [.i32]⟩).map fun _ len =>
    (module.alloc len).inStore platform
  dealloc := (module.shape.getTypedFunc "tds_dealloc" ⟨[.i32, .i32], []⟩).map fun _ ptr len =>
    (module.dealloc ptr len).inStore platform
  run := (module.shape.getTypedFunc "tds_run" ⟨[.i32, .i32], [.i64]⟩).map fun _ ptr len =>
    (module.run ptr len).inStore platform

end AgentModule

/-- Load an agent module under a policy. -/
def Runtime.new (platform : Platform) (policy : Policy) (module : AgentModule γ) (fresh : γ)
    (llm : LlmProvider) : Except String (Runtime γ) := do
  policy.validate platform
  verifyModuleShape platform module.shape
  return ⟨policy, llm, module.toInstance platform, fresh⟩

end TdsWasm
