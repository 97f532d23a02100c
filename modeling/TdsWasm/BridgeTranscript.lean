import TdsWasm.BridgeAudit

/-! The transcript of a run. Every request of the agent reaches the provider as the conversation so far, and the
conversation grows by what the model has answered and what its tools have answered, each as it was given: the record
that the host keeps is one dialogue, wherever guest code is stopped. -/

set_option autoImplicit false

namespace TdsWasm

/-! ### Transcripts -/

/-- An answer that the host has given: of the model to a request, or of a tool to a call. -/
inductive Dealing where
  | completed (request : LlmRequest) (answer : Except CapError LlmResponse)
  | invoked (request : ToolInvokeRequest) (answer : Except CapError String)

def HostEvent.dealing : HostEvent → Option Dealing
  | .completed request answer => some (.completed request answer)
  | .invoked request answer => some (.invoked request answer)
  | _ => none

def History.dealings (history : History) : List Dealing := history.filterMap HostEvent.dealing

section Transcripts

variable (platform : Platform) (policy : Policy)

end Transcripts

variable {platform : Platform} {policy : Policy}

/-! ### What a call enters -/

/-- From here on, the host has entered dealings of this kind, under the policy of the run. -/
def Enters (policy : Policy) (before : List Dealing) (kind : List Dealing → Prop) (after : HostRun) : Prop :=
  after.data.policy = policy ∧ ∃ dealt, after.history.dealings = before ++ dealt ∧ kind dealt

namespace Enters

variable {before dealt : List Dealing} {kind other : List Dealing → Prop} {after : HostRun}

/-- What is entered later comes after what has been entered. -/
theorem cons (himp : ∀ later, kind later → other (dealt ++ later)) (h : Enters policy (before ++ dealt) kind after) :
    Enters policy before other after := by
  obtain ⟨hpolicy, later, hlater, hkind⟩ := h
  exact ⟨hpolicy, dealt ++ later, hlater.trans (List.append_assoc ..), himp later hkind⟩

theorem mono (himp : ∀ later, kind later → other later) (h : Enters policy before kind after) :
    Enters policy before other after := by
  obtain ⟨hpolicy, later, hlater, hkind⟩ := h
  exact ⟨hpolicy, later, hlater, himp later hkind⟩

end Enters

section Calls

variable {sandbox : Sandbox} {store final : Store sandbox.Guest}

end Calls

/-! ### The agent -/

section Agent

variable {sandbox : Sandbox}

end Agent

/-! ### Runs -/

end TdsWasm
