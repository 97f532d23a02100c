import TdsWasm.AgentLoop
import TdsWasm.LibWord

/-! The reference run of the agent: a list of turns, each a model call and the tool calls it asked for.
Whatever the host answers, the questions of the agent are those of a reference run, and its output
is what the reference run accounts for. -/

set_option autoImplicit false

namespace TdsWasm

/-- One tool call of a turn, with the id the model gave it and the host's answer. -/
structure ToolCall where
  id : String
  name : String
  input : JsonValue
  answer : Except CapError ToolInvokeResponse

namespace ToolCall

def event (call : ToolCall) : AgentEvent := ⟨AgentOp.toolInvoke ⟨call.name, call.input⟩, call.answer⟩

/-- The block that answers the model. -/
def result (call : ToolCall) : Content :=
  .toolResult call.id (toolOutcome call.answer).1 (!(toolOutcome call.answer).2)

/-- The entry in the report. -/
def record (step : UInt32) (call : ToolCall) : ToolCallRecord :=
  ⟨step, call.name, call.input, (toolOutcome call.answer).2, truncate (toolOutcome call.answer).1 512⟩

/-- What the model asked for. -/
def asked (call : ToolCall) : String × String × JsonValue := (call.id, call.name, call.input)

end ToolCall

/-- One step of the loop: the model call, its answer, and the tool calls made for it. -/
structure Turn where
  request : LlmRequest
  answer : Except CapError LlmResponse
  invocations : List ToolCall

namespace Turn

def events (turn : Turn) : List AgentEvent :=
  ⟨AgentOp.llmComplete turn.request, turn.answer⟩ :: turn.invocations.map ToolCall.event

/-- Why the run ends with this turn, if it does. -/
def stop (turn : Turn) : Option StopReason :=
  match turn.answer with
  | .error _ => some .error
  | .ok response =>
      if response.stopReason = "refusal" then some .refusal
      else if (response.content.filterMap Content.asToolUse).isEmpty then some .completed
      else none

/-- The tool calls that follow the model's answer: all it asks for, or none when the run ends. -/
def requested (turn : Turn) : List (String × String × JsonValue) :=
  match turn.answer with
  | .error _ => []
  | .ok response => if turn.stop = none then response.content.filterMap Content.asToolUse else []

/-- The two messages that the turn adds to the conversation, when it goes on. -/
def messages (turn : Turn) : List Message :=
  match turn.answer with
  | .error _ => []
  | .ok response => [.assistant response.content, .user (turn.invocations.map ToolCall.result)]

/-- The usage of a turn whose model call succeeded. -/
def usage (turn : Turn) : Usage :=
  match turn.answer with
  | .error _ => .zero
  | .ok response => response.usage

end Turn

/-- The turns are a reference run of at most `limit` steps from these messages that ends for this
reason. -/
def ReferenceRun (tools : List ToolSpec) : List Message → Nat → List Turn → StopReason → Prop
  | _, limit, [], stop => limit = 0 ∧ stop = .stepLimit
  | _, 0, _ :: _, _ => False
  | messages, limit + 1, turn :: rest, stop =>
      turn.request = ⟨some systemPrompt, messages, tools⟩ ∧
        turn.invocations.map ToolCall.asked = turn.requested ∧
        match turn.stop with
        | some reason => rest = [] ∧ stop = reason
        | none => ReferenceRun tools (messages ++ turn.messages) limit rest stop

/-- The tools the agent has to offer the model, from the host's answer. -/
def offeredTools : Except CapError ToolsListResponse → List ToolSpec
  | .ok list => list.tools
  | .error _ => []

/-- How many steps the agent may take. -/
def stepLimit (input : AgentInput) : Nat := (max input.maxSteps 1).toNat

/-- The records of turns that start at that step. -/
def turnRecords : Nat → List Turn → List ToolCallRecord
  | _, [] => []
  | step, turn :: rest =>
      turn.invocations.map (ToolCall.record (UInt32.ofNat step)) ++ turnRecords (step + 1) rest

def turnUsage (usage : Usage) (turns : List Turn) : Usage :=
  turns.foldl (fun usage turn => usage.add turn.usage) usage

/-- The capability calls of a trace, without the lines the agent logs. -/
def calls (trace : List AgentEvent) : List AgentEvent :=
  trace.filter fun event => match event.op with
    | .emit _ _ => false
    | _ => true

theorem calls_append (first second : List AgentEvent) :
    calls (first ++ second) = calls first ++ calls second := List.filter_append ..

theorem Usage.add_zero (usage : Usage) : usage.add .zero = usage := by
  obtain ⟨inputTokens, outputTokens⟩ := usage
  simp [add, zero]

theorem Turn.stop_ok {turn : Turn} {response : LlmResponse} (hanswer : turn.answer = .ok response) :
    turn.stop = if response.stopReason = "refusal" then some .refusal
      else if (response.content.filterMap Content.asToolUse).isEmpty then some .completed else none := by
  rw [stop, hanswer]

theorem Turn.requested_of_stop {turn : Turn} {reason : StopReason} (hstop : turn.stop = some reason) :
    turn.requested = [] := by
  unfold requested
  cases turn.answer with
  | error e => rfl
  | ok response => simp [hstop]

theorem Turn.requested_of_continue {turn : Turn} {response : LlmResponse}
    (hanswer : turn.answer = .ok response) (hstop : turn.stop = none) :
    turn.requested = response.content.filterMap Content.asToolUse := by
  simp [requested, hanswer, hstop]

theorem referenceRun_nil {tools : List ToolSpec} {messages : List Message} {limit : Nat}
    {stop : StopReason} :
    ReferenceRun tools messages limit [] stop ↔ limit = 0 ∧ stop = .stepLimit := by
  cases limit <;> rfl

/-- A turn without tool calls that ends the run is a reference run of one step. -/
theorem referenceRun_last {tools : List ToolSpec} {messages : List Message} (limit : Nat) {turn : Turn}
    {reason : StopReason} (hrequest : turn.request = ⟨some systemPrompt, messages, tools⟩)
    (hinvocations : turn.invocations = []) (hstop : turn.stop = some reason) :
    ReferenceRun tools messages (limit + 1) [turn] reason := by
  refine ⟨hrequest, ?_, ?_⟩
  · rw [hinvocations, Turn.requested_of_stop hstop]
    rfl
  · rw [hstop]
    exact ⟨rfl, rfl⟩

/-- At any turn of a reference run, the turns before it have gone on and stand in the conversation, and
the rest is a reference run of the steps that are left. -/
theorem referenceRun_split {tools : List ToolSpec} {messages : List Message} {limit : Nat}
    {before rest : List Turn} {stop : StopReason}
    (h : ReferenceRun tools messages limit (before ++ rest) stop) :
    (∀ turn ∈ before, turn.stop = none ∧ turn.invocations.map ToolCall.asked = turn.requested) ∧
        before.length ≤ limit ∧
        ReferenceRun tools (messages ++ before.flatMap Turn.messages) (limit - before.length) rest stop ∨
      rest = [] := by
  induction before generalizing messages limit with
  | nil => exact Or.inl ⟨nofun, Nat.zero_le _, by simpa using h⟩
  | cons turn before ih =>
      cases limit with
      | zero => cases h
      | succ limit =>
          obtain ⟨_, hasked, hrest⟩ := h
          cases hstop : turn.stop with
          | some reason =>
              rw [hstop] at hrest
              exact Or.inr (List.append_eq_nil_iff.mp hrest.1).2
          | none =>
              rw [hstop] at hrest
              rcases ih hrest with ⟨hall, hle, hrun⟩ | hnil
              · refine Or.inl ⟨List.forall_mem_cons.mpr ⟨⟨hstop, hasked⟩, hall⟩, Nat.succ_le_succ hle, ?_⟩
                rw [List.flatMap_cons, ← List.append_assoc, List.length_cons, Nat.succ_sub_succ]
                exact hrun
              · exact Or.inr hnil

/-! ### The agent follows a reference run -/

theorem invokeTools_cons (step : UInt32) (id name : String) (args : JsonValue)
    (rest : List (String × String × JsonValue)) :
    invokeTools step ((id, name, args) :: rest) =
      .ask (AgentOp.emit .info ("step " ++ toString step.toNat ++ ": calling tool " ++ name)) fun _ =>
        .ask (AgentOp.toolInvoke ⟨name, args⟩) fun answer =>
          invokeTools step rest >>= fun made =>
            .done (ToolCall.record step ⟨id, name, args, answer⟩ :: made.1,
              ToolCall.result ⟨id, name, args, answer⟩ :: made.2) := rfl

theorem yields_invokeTools {step : UInt32} {requested : List (String × String × JsonValue)}
    {trace : List AgentEvent} {made : List ToolCallRecord × List Content}
    (h : (invokeTools step requested).Yields trace made) :
    ∃ invocations : List ToolCall, calls trace = invocations.map ToolCall.event ∧
      invocations.map ToolCall.asked = requested ∧
      made = (invocations.map (ToolCall.record step), invocations.map ToolCall.result) := by
  induction requested generalizing trace made with
  | nil =>
      obtain ⟨rfl, rfl⟩ := h
      exact ⟨[], rfl, rfl, rfl⟩
  | cons asked rest ih =>
      obtain ⟨id, name, args⟩ := asked
      rw [invokeTools_cons] at h
      obtain ⟨_, _, rfl, answer, trace, rfl, h⟩ := h
      obtain ⟨first, ⟨records, results⟩, second, hfirst, ⟨rfl, rfl⟩, rfl⟩ := Program.yields_bind.mp h
      obtain ⟨invocations, hcalls, hasked, hmade⟩ := ih hfirst
      obtain ⟨rfl, rfl⟩ := Prod.mk.inj hmade
      refine ⟨⟨id, name, args, answer⟩ :: invocations, ?_, ?_, rfl⟩
      · rw [List.append_nil, List.map_cons, ← hcalls]
        rfl
      · rw [List.map_cons, hasked]
        rfl

/-- What a reference run that starts at a step makes of the output. -/
structure Accounts (step : Nat) (record : List ToolCallRecord) (usage : Usage) (turns : List Turn)
    (stop : StopReason) (output : AgentOutput) : Prop where
  stop_eq : output.stop = stop
  steps_eq : output.steps.toNat + (if stop = .error then 1 else 0) + 1 = step + turns.length
  toolCalls_eq : output.toolCalls = record ++ turnRecords step turns
  usage_eq : output.usage = turnUsage usage turns

/-- From any step on, the loop follows a reference run of the steps that remain. -/
theorem yields_takeSteps {tools : List ToolSpec} {maxSteps step : UInt32} {remaining : Nat}
    {messages : List Message} {record : List ToolCallRecord} {usage : Usage}
    {trace : List AgentEvent} {output : AgentOutput}
    (h : (takeSteps tools maxSteps remaining step messages record usage).Yields trace output)
    (hstep : 0 < remaining → 0 < step.toNat ∧ step.toNat + remaining = maxSteps.toNat + 1) :
    ∃ turns stop, calls trace = turns.flatMap Turn.events ∧
      ReferenceRun tools messages remaining turns stop ∧
      Accounts (maxSteps.toNat + 1 - remaining) record usage turns stop output := by
  induction remaining generalizing step messages record usage trace with
  | zero =>
      obtain ⟨_, _, rfl, rfl, rfl⟩ := h
      exact ⟨[], .stepLimit, rfl, ⟨rfl, rfl⟩, rfl, rfl, (List.append_nil _).symm, rfl⟩
  | succ remaining ih =>
      obtain ⟨hpos, hnat⟩ := hstep (Nat.succ_pos _)
      have hfirst : maxSteps.toNat + 1 - (remaining + 1) = step.toNat := by omega
      rw [hfirst]
      obtain ⟨answer, trace, rfl, h⟩ := h
      cases answer with
      | error e =>
          obtain ⟨_, _, rfl, rfl, rfl⟩ := h
          refine ⟨[⟨⟨some systemPrompt, messages, tools⟩, .error e, []⟩], .error, rfl,
            referenceRun_last remaining rfl rfl rfl, rfl, ?_, (List.append_nil _).symm,
            (Usage.add_zero usage).symm⟩
          have hone : (1 : UInt32).toNat = 1 := rfl
          have hle : (1 : UInt32) ≤ step := UInt32.le_iff_toNat_le.mpr (by omega)
          rw [if_pos rfl, List.length_singleton, UInt32.toNat_sub_of_le _ _ hle, hone]
          omega
      | ok response =>
          change Program.Yields (if response.stopReason = "refusal" then _ else
            if (response.content.filterMap Content.asToolUse).isEmpty = true then _ else _) trace output at h
          by_cases hrefusal : response.stopReason = "refusal"
          · rw [if_pos hrefusal] at h
            obtain ⟨rfl, rfl⟩ := h
            exact ⟨[⟨⟨some systemPrompt, messages, tools⟩, .ok response, []⟩], .refusal, rfl,
              referenceRun_last remaining rfl rfl (if_pos hrefusal), rfl, rfl,
              (List.append_nil _).symm, rfl⟩
          rw [if_neg hrefusal] at h
          by_cases hempty : (response.content.filterMap Content.asToolUse).isEmpty = true
          · rw [if_pos hempty] at h
            obtain ⟨rfl, rfl⟩ := h
            have hstop : (Turn.mk ⟨some systemPrompt, messages, tools⟩ (.ok response) []).stop =
                some .completed := by
              rw [Turn.stop_ok rfl, if_neg hrefusal, if_pos hempty]
            exact ⟨[⟨⟨some systemPrompt, messages, tools⟩, .ok response, []⟩], .completed, rfl,
              referenceRun_last remaining rfl rfl hstop, rfl, rfl, (List.append_nil _).symm, rfl⟩
          · rw [if_neg hempty] at h
            obtain ⟨first, ⟨records, results⟩, second, hfirstTrace, hrest, rfl⟩ :=
              Program.yields_bind.mp h
            obtain ⟨invocations, hcalls, hasked, hmade⟩ := yields_invokeTools hfirstTrace
            obtain ⟨rfl, rfl⟩ := Prod.mk.inj hmade
            have hnext : 0 < remaining →
                0 < (step + 1).toNat ∧ (step + 1).toNat + remaining = maxSteps.toNat + 1 := by
              intro hremaining
              have hlt : step < maxSteps := UInt32.lt_iff_toNat_lt.mpr (by omega)
              rw [Word.toNat_add_one hlt]
              omega
            obtain ⟨turns, stop, hturns, hreference, haccounts⟩ := ih hrest hnext
            have hstop : (Turn.mk ⟨some systemPrompt, messages, tools⟩ (.ok response) invocations).stop =
                none := by
              rw [Turn.stop_ok rfl, if_neg hrefusal, if_neg hempty]
            refine ⟨⟨⟨some systemPrompt, messages, tools⟩, .ok response, invocations⟩ :: turns, stop,
              ?_, ⟨rfl, ?_, ?_⟩, haccounts.stop_eq, ?_, ?_, haccounts.usage_eq⟩
            · rw [List.flatMap_cons, ← hturns]
              show _ :: calls (first ++ second) = _
              rw [calls_append, hcalls]
              rfl
            · rw [Turn.requested_of_continue rfl hstop]
              exact hasked
            · rw [hstop]
              rw [List.append_assoc] at hreference
              exact hreference
            · have hsteps := haccounts.steps_eq
              rw [List.length_cons]
              omega
            · have hlater : maxSteps.toNat + 1 - remaining = step.toNat + 1 := by omega
              rw [haccounts.toolCalls_eq, hlater, turnRecords, UInt32.ofNat_toNat, List.append_assoc]

theorem stepLimit_pos (input : AgentInput) : 0 < stepLimit input := by
  show 0 < (if input.maxSteps ≤ 1 then 1 else input.maxSteps).toNat
  split_ifs with hle
  · decide
  · rw [UInt32.le_iff_toNat_le] at hle
    omega

/-- Whatever the host answers, a run of the agent lists the tools and then is a reference run. -/
theorem yields_runAgent {input : AgentInput} {trace : List AgentEvent} {output : AgentOutput}
    (h : (runAgent input).Yields trace output) :
    ∃ list turns stop, calls trace = ⟨AgentOp.toolsList, list⟩ :: turns.flatMap Turn.events ∧
      ReferenceRun (offeredTools list) (initialMessages input) (stepLimit input) turns stop ∧
      Accounts 1 [] .zero turns stop output := by
  obtain ⟨list, trace, rfl, h⟩ := h
  have hsteps : ∃ rest, calls trace = calls rest ∧ (takeSteps (offeredTools list)
      (max input.maxSteps 1) (stepLimit input) 1 (initialMessages input) [] .zero).Yields rest output := by
    cases list with
    | ok list =>
        obtain ⟨_, rest, rfl, h⟩ := h
        exact ⟨rest, rfl, h⟩
    | error e =>
        obtain ⟨_, _, rfl, _, rest, rfl, h⟩ := h
        exact ⟨rest, rfl, h⟩
  obtain ⟨rest, hcalls, hyields⟩ := hsteps
  have hone : (1 : UInt32).toNat = 1 := rfl
  obtain ⟨turns, stop, hturns, hreference, haccounts⟩ := yields_takeSteps hyields
    (fun _ => ⟨Nat.one_pos, by rw [hone, stepLimit]; omega⟩)
  have hfirst : (max input.maxSteps 1).toNat + 1 - stepLimit input = 1 := by
    rw [stepLimit]
    omega
  rw [hfirst] at haccounts
  refine ⟨list, turns, stop, ?_, hreference, haccounts⟩
  show _ :: calls trace = _
  rw [hcalls, hturns]

/-! ### Reading a trace -/

section Reading

variable {α : Type} {f : AgentEvent → Option α} {trace : List AgentEvent}
  {list : Except CapError ToolsListResponse} {turns : List Turn}

/-- The lines that the agent logs say nothing of the model and the tools. -/
theorem filterMap_calls (hemit : ∀ level message answer, f ⟨AgentOp.emit level message, answer⟩ = none)
    (trace : List AgentEvent) : trace.filterMap f = (calls trace).filterMap f := by
  induction trace with
  | nil => rfl
  | cons event rest ih =>
      obtain ⟨op, answer⟩ := event
      cases op with
      | emit level message =>
          rw [List.filterMap_cons, hemit, ih]
          rfl
      | toolsList | toolInvoke request | llmComplete request =>
          rw [List.filterMap_cons, ih]
          exact (List.filterMap_cons ..).symm

/-- What is read from a run is read from its turns. -/
theorem filterMap_trace (hemit : ∀ level message answer, f ⟨AgentOp.emit level message, answer⟩ = none)
    (hlist : ∀ list, f ⟨AgentOp.toolsList, list⟩ = none)
    (hcalls : calls trace = ⟨AgentOp.toolsList, list⟩ :: turns.flatMap Turn.events) :
    trace.filterMap f = turns.flatMap fun turn => turn.events.filterMap f := by
  rw [filterMap_calls hemit, hcalls, List.filterMap_cons, hlist]
  exact List.filterMap_flatMap

/-- What is said of the model is read from the model calls of the turns. -/
theorem filterMap_model (hemit : ∀ level message answer, f ⟨AgentOp.emit level message, answer⟩ = none)
    (hlist : ∀ list, f ⟨AgentOp.toolsList, list⟩ = none) (hinvoked : ∀ call : ToolCall, f call.event = none)
    (hcalls : calls trace = ⟨AgentOp.toolsList, list⟩ :: turns.flatMap Turn.events) :
    trace.filterMap f = turns.filterMap fun turn => f ⟨AgentOp.llmComplete turn.request, turn.answer⟩ := by
  have hturn : ∀ turn : Turn,
      turn.events.filterMap f = (f ⟨AgentOp.llmComplete turn.request, turn.answer⟩).toList := by
    intro turn
    have hinvocations : (turn.invocations.map ToolCall.event).filterMap f = [] := by
      rw [List.filterMap_map]
      exact List.filterMap_eq_nil_iff.mpr fun call _ => hinvoked call
    rw [Turn.events, List.filterMap_cons, hinvocations]
    cases f ⟨AgentOp.llmComplete turn.request, turn.answer⟩ <;> rfl
  calc trace.filterMap f
      = turns.flatMap fun turn => turn.events.filterMap f := filterMap_trace hemit hlist hcalls
    _ = turns.flatMap fun turn => (f ⟨AgentOp.llmComplete turn.request, turn.answer⟩).toList := by simp only [hturn]
    _ = turns.filterMap fun turn => f ⟨AgentOp.llmComplete turn.request, turn.answer⟩ :=
        (List.filterMap_eq_flatMap_toList _ _).symm

end Reading

end TdsWasm
