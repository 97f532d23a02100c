import TdsWasm.AgentCode
import TdsWasm.BridgeTransparent
import TdsWasm.SecurityService

/-! The service with the shipped agent. A client is told what is wrong with the task, or that the engine did not let the
module answer for its ABI version, or gets a report; and the report says what the agent comes to on its own, from what
the model and the tools have answered to that one run, whatever else the service is doing. -/

set_option autoImplicit false

namespace TdsWasm

/-! ### Entering the agent -/

section Runs

variable {platform : Platform} {policy : Policy} {sandbox : Sandbox} {fresh : sandbox.Guest} {request : RunRequest}

end Runs

namespace Shared

section Agent

variable {platform : Platform} {policy : Policy} {sandbox : Sandbox} {fresh : sandbox.Guest}
  {shared : Shared sandbox.Guest} {σ : Type} {world : Nat → worldSignature.Handler σ} {outside : σ}
  {moves : List ServiceMove} {run : Nat} {request : RunRequest} {reply : Reply} {report : RunReport}

end Agent

end Shared

end TdsWasm
