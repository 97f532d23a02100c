import TdsWasm.AbiContent
import TdsWasm.LibProgram

/-! The agent (`tds-agent`): ask the model what to do, run the tools it asks for, feed the results
back, repeat until it answers. The agent is a program whose questions are its capability calls and
the lines it logs; how a call reaches the host is below it. -/

set_option autoImplicit false

namespace TdsWasm

/-! ### Questions to the host -/

inductive AgentOp where
  | emit (level : LogLevel) (message : String)
  | toolsList
  | toolInvoke (request : ToolInvokeRequest)
  | llmComplete (request : LlmRequest)

abbrev agentSignature : Signature where
  Op := AgentOp
  Answer
    | .emit _ _ => Unit
    | .toolsList => Except CapError ToolsListResponse
    | .toolInvoke _ => Except CapError ToolInvokeResponse
    | .llmComplete _ => Except CapError LlmResponse

abbrev AgentEvent : Type := agentSignature.Event

abbrev AgentProgram (α : Type) : Type := Program agentSignature α

namespace AgentProgram

def emit (level : LogLevel) (message : String) : AgentProgram Unit :=
  Program.ask (AgentOp.emit level message) Program.done

def toolsList : AgentProgram (Except CapError ToolsListResponse) :=
  Program.ask AgentOp.toolsList Program.done

def toolInvoke (request : ToolInvokeRequest) : AgentProgram (Except CapError ToolInvokeResponse) :=
  Program.ask (AgentOp.toolInvoke request) Program.done

def llmComplete (request : LlmRequest) : AgentProgram (Except CapError LlmResponse) :=
  Program.ask (AgentOp.llmComplete request) Program.done

end AgentProgram

/-! ### The agent -/

def systemPrompt : String :=
  "You are an autonomous agent running inside a sandboxed WebAssembly module. You " ++
  "have no direct access to the network, the filesystem, or the clock — the only " ++
  "way to affect or observe anything outside your own memory is the tools listed " ++
  "below, each of which the host authorizes individually.\n\n" ++
  "Work the task to completion. Call a tool when you need information you do not " ++
  "already have, and prefer one well-chosen call over several speculative ones. If " ++
  "a tool returns an error, read it: a denial means the host's policy forbids that " ++
  "action and retrying it will fail the same way, so find another route or explain " ++
  "what you would need.\n\n" ++
  "When you have the answer, state it directly. Lead with the outcome, then any " ++
  "supporting detail. Do not narrate your process or describe the tools you used " ++
  "unless the task asked for that."

/-- Cut a text to at most `max` bytes at a character boundary and say how much is gone. -/
def truncate (s : String) (max : Nat) : String :=
  if s.utf8ByteSize ≤ max then s
  else
    let kept := Text.floorCharBoundary s max
    Text.takeBytes s kept ++ "… [" ++ toString (s.utf8ByteSize - kept) ++ " bytes truncated]"

/-- The conversation before the first turn: the context, when it is not blank, and the task. -/
def initialMessages (input : AgentInput) : List Message :=
  let context := input.context.filter fun c => !(Text.trim c).isEmpty
  (context.map fun c => Message.user [.text ("Background context:\n" ++ c)]).toList ++
    [.user [.text input.task]]

/-- What a tool call comes to: the text for the model and whether it succeeded. -/
def toolOutcome : Except CapError ToolInvokeResponse → String × Bool
  | .ok response => (response.content, true)
  | .error e => (e.display, false)

open AgentProgram

/-- Run the tools of one turn in order. The results go back to the model, the records to the report. -/
def invokeTools (step : UInt32) :
    List (String × String × JsonValue) → AgentProgram (List ToolCallRecord × List Content)
  | [] => pure ([], [])
  | (id, name, args) :: rest => do
      emit .info ("step " ++ toString step.toNat ++ ": calling tool " ++ name)
      let outcome := toolOutcome (← toolInvoke ⟨name, args⟩)
      let (records, results) ← invokeTools step rest
      return (⟨step, name, args, outcome.2, truncate outcome.1 512⟩ :: records,
        .toolResult id outcome.1 (!outcome.2) :: results)

/-- The loop over the steps that remain, `step` being the next one. -/
def takeSteps (tools : List ToolSpec) (maxSteps : UInt32) : Nat → UInt32 → List Message →
    List ToolCallRecord → Usage → AgentProgram AgentOutput
  | 0, _, _, record, usage => do
      emit .warn "agent hit its step limit"
      return ⟨"Stopped after reaching the step limit without producing a final answer.", maxSteps,
        .stepLimit, record, usage⟩
  | remaining + 1, step, messages, record, usage => do
      match ← llmComplete ⟨some systemPrompt, messages, tools⟩ with
      | .error e =>
          emit .error ("model turn " ++ toString step.toNat ++ " failed: " ++ e.display)
          return ⟨"The model call failed at step " ++ toString step.toNat ++ ": " ++ e.display, step - 1,
            .error, record, usage⟩
      | .ok response =>
          let usage := usage.add response.usage
          if response.stopReason = "refusal" then
            return ⟨response.joinedText, step, .refusal, record, usage⟩
          else
            let requested := response.content.filterMap Content.asToolUse
            if requested.isEmpty then
              return ⟨response.joinedText, step, .completed, record, usage⟩
            else
              -- Every tool_result of a turn goes back in a single user message.
              let (records, results) ← invokeTools step requested
              takeSteps tools maxSteps remaining (step + 1)
                (messages ++ [.assistant response.content] ++ [.user results]) (record ++ records) usage

def runAgent (input : AgentInput) : AgentProgram AgentOutput := do
  let tools ← match ← toolsList with
    | .ok list => pure list.tools
    | .error e => do
        emit .warn ("no tools available: " ++ e.display)
        pure []
  emit .info ("agent starting with " ++ toString tools.length ++ " tool(s)")
  let maxSteps := max input.maxSteps 1
  takeSteps tools maxSteps maxSteps.toNat 1 (initialMessages input) [] .zero

end TdsWasm
