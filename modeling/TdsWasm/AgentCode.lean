import TdsWasm.AgentSandbox
import TdsWasm.LibCall
import TdsWasm.SecurityShape

/-! The agent as a module: code that reaches the host through the three host functions only, as the compiled agent
does. A runtime makes the agent of the sandbox of it. -/

set_option autoImplicit false

namespace TdsWasm

/-! ### Code in a store -/

/-- Code of a guest, as a monad. -/
abbrev GuestM (γ α : Type) : Type := ExceptT Trap (StateT γ (Program moveSignature)) α

namespace GuestM

variable (platform : Platform) {γ α β : Type}

def inStore (code : GuestM γ α) : GuestCall γ α := GuestCode.inStore platform code

end GuestM

/-! ### The agent -/

namespace Sandbox

variable (sandbox : Sandbox)

variable (codec : JsonCodec)

variable (platform : Platform)

end Sandbox

end TdsWasm
