import TdsWasm.AgentAccounting
import TdsWasm.BridgeHandoff
import TdsWasm.BridgeRecord

/-! The run report against the host's own record of the run. When the agent comes to an output, the report
is what the agent has seen; when it is stopped, the report says that nothing was done. -/

set_option autoImplicit false

namespace TdsWasm

/-! ### What a trace tells about its turns -/

/-- The response of a turn whose model call succeeded. -/
def Turn.response (turn : Turn) : Option LlmResponse := turn.answer.toOption

def ToolCall.request (call : ToolCall) : ToolInvokeRequest := ⟨call.name, call.input⟩

def ToolCallRecord.request (call : ToolCallRecord) : ToolInvokeRequest := ⟨call.name, call.input⟩

/-- The tokens of responses, as an integer. -/
def spent (field : Usage → UInt64) : List LlmResponse → Nat
  | [] => 0
  | response :: rest => (field response.usage).toNat + spent field rest

theorem tokens_eq (field : Usage → UInt64) (hzero : field .zero = 0) (turns : List Turn) :
    tokens field turns = spent field (turns.filterMap Turn.response) := by
  induction turns with
  | nil => rfl
  | cons turn rest ih =>
      rw [tokens, ih, List.filterMap_cons, Turn.usage, Turn.response]
      cases turn.answer with
      | error e =>
          rw [hzero]
          exact Nat.zero_add _
      | ok response => rfl

theorem spent_reread (field : Usage → UInt64) (responses : List LlmResponse) :
    spent field (responses.map LlmResponse.reread) = spent field responses := by
  induction responses with
  | nil => rfl
  | cons response rest ih =>
      rw [List.map_cons, spent, spent, ih]
      rfl

section Turns

variable {trace : List AgentEvent} {list : Except CapError ToolsListResponse} {turns : List Turn}

theorem responses_eq (hcalls : calls trace = ⟨AgentOp.toolsList, list⟩ :: turns.flatMap Turn.events) :
    trace.filterMap responseOf = turns.filterMap Turn.response := by
  rw [filterMap_model (fun _ _ _ => rfl) (fun _ => rfl) (fun _ => rfl) hcalls]
  congr 1
  funext turn
  rw [Turn.response]
  cases turn.answer <;> rfl

theorem toolRequests_eq (hcalls : calls trace = ⟨AgentOp.toolsList, list⟩ :: turns.flatMap Turn.events) :
    trace.filterMap toolRequestOf = turns.flatMap fun turn => turn.invocations.map ToolCall.request := by
  rw [filterMap_trace (fun _ _ _ => rfl) (fun _ => rfl) hcalls]
  congr 1
  funext turn
  show (turn.invocations.map ToolCall.event).filterMap toolRequestOf = _
  rw [List.filterMap_map]
  exact List.filterMap_eq_map_iff_forall_eq_some.mpr fun call _ => rfl

end Turns

theorem snd_numberedCalls (step : Nat) (turns : List Turn) :
    (numberedCalls step turns).map Prod.snd = turns.flatMap Turn.invocations := by
  induction turns generalizing step with
  | nil => rfl
  | cons turn rest ih =>
      rw [numberedCalls, List.map_append, ih, List.map_map, List.flatMap_cons]
      exact congrArg (· ++ _) (List.map_id _)

/-- The entries of the report are requests of the turns. -/
theorem Accounted.requests {input : AgentInput} {turns : List Turn} {output : AgentOutput}
    (h : Accounted input turns output) : output.toolCalls.map ToolCallRecord.request =
      turns.flatMap fun turn => turn.invocations.map ToolCall.request := by
  have hsame : (numberedCalls 1 turns).map (fun numbered => numbered.2.request) =
      output.toolCalls.map ToolCallRecord.request := by
    rw [← List.forall₂_eq_eq_eq, List.forall₂_map_left_iff, List.forall₂_map_right_iff]
    refine h.toolCalls.imp fun numbered record hentered => ?_
    rw [ToolCall.request, ToolCallRecord.request, hentered.name_eq, hentered.input_eq]
  rw [← hsame, ← List.map_flatMap, ← snd_numberedCalls 1, List.map_map]
  rfl

/-- A turn fails exactly when its model call does. -/
theorem Turn.stop_eq_error (turn : Turn) : turn.stop = some .error ↔ turn.response = none := by
  unfold stop response
  cases turn.answer with
  | error e => exact ⟨fun _ => rfl, fun _ => rfl⟩
  | ok response =>
      simp only
      split_ifs <;> simp [Except.toOption]

/-- The steps reported are the turns whose model call succeeded. -/
theorem Accounted.steps_response {input : AgentInput} {turns : List Turn} {output : AgentOutput}
    (h : Accounted input turns output) :
    output.steps.toNat = (turns.filterMap Turn.response).length := by
  obtain ⟨before, last, rfl⟩ : ∃ before last, turns = before ++ [last] := by
    cases turns using List.reverseRecOn with
    | nil => exact absurd h.length_pos (Nat.lt_irrefl 0)
    | append_singleton before last => exact ⟨before, last, rfl⟩
  have hbefore : (before.filterMap Turn.response).length = before.length := by
    rw [List.filterMap_length_eq_length]
    intro turn hmem
    obtain ⟨first, rest, rfl⟩ := List.append_of_mem hmem
    have hstop := h.goes_on first turn (rest ++ [last]) (by simp) (by simp)
    rw [Option.isSome_iff_ne_none, ne_eq, ← Turn.stop_eq_error, hstop]
    exact nofun
  have hlast : output.stop = .error ↔ last.response = none := by
    rw [← Turn.stop_eq_error]
    rcases h.ends before last rfl with hstop | ⟨hstop, _, hlimit⟩
    · rw [hstop, Option.some.injEq]
    · rw [hstop, hlimit]
      exact ⟨nofun, nofun⟩
  rw [h.steps, List.filterMap_append, List.length_append, List.length_append, hbefore,
    List.length_singleton]
  cases hresponse : last.response with
  | none =>
      rw [if_pos (hlast.mpr hresponse)]
      simp [hresponse]
  | some response =>
      have hstop : output.stop ≠ .error := fun herror => by
        rw [hlast.mp herror] at hresponse
        cases hresponse
      rw [if_neg hstop]
      simp [hresponse]

/-- The tools that a trace of turns asks for are those of the responses that are no refusal. -/
theorem mem_requests {input : AgentInput} {turns : List Turn} {output : AgentOutput}
    (h : Accounted input turns output) (request : ToolInvokeRequest) :
    (request ∈ turns.flatMap fun turn => turn.invocations.map ToolCall.request) ↔
      ∃ response ∈ turns.filterMap Turn.response, response.stopReason ≠ "refusal" ∧
        ∃ use ∈ response.content.filterMap Content.asToolUse, request = ⟨use.2.1, use.2.2⟩ := by
  have hasked : ∀ turn ∈ turns, turn.invocations.map ToolCall.request =
      turn.requested.map fun use => ⟨use.2.1, use.2.2⟩ := by
    intro turn hturn
    rw [← h.tools turn hturn, List.map_map]
    rfl
  constructor
  · intro hmem
    obtain ⟨turn, hturn, hrequest⟩ := List.mem_flatMap.mp hmem
    rw [hasked turn hturn] at hrequest
    obtain ⟨use, huse, rfl⟩ := List.mem_map.mp hrequest
    cases hanswer : turn.answer with
    | error e =>
        rw [Turn.requested, hanswer] at huse
        cases huse
    | ok response =>
        cases hstop : turn.stop with
        | some reason =>
            rw [Turn.requested_of_stop hstop] at huse
            cases huse
        | none =>
            rw [Turn.requested_of_continue hanswer hstop] at huse
            rw [Turn.stop_ok hanswer] at hstop
            split_ifs at hstop with hrefusal
            refine ⟨response, List.mem_filterMap.mpr ⟨turn, hturn, ?_⟩, hrefusal, use, huse, rfl⟩
            rw [Turn.response, hanswer]
            rfl
  · rintro ⟨response, hresponse, hrefusal, use, huse, rfl⟩
    obtain ⟨turn, hturn, hanswer⟩ := List.mem_filterMap.mp hresponse
    have hok : turn.answer = .ok response := by
      cases hcase : turn.answer with
      | error e =>
          rw [Turn.response, hcase] at hanswer
          cases hanswer
      | ok given =>
          rw [Turn.response, hcase] at hanswer
          cases hanswer
          rfl
    have hstop : turn.stop = none := by
      rw [Turn.stop_ok hok, if_neg hrefusal, if_neg]
      intro hempty
      rw [List.isEmpty_iff.mp hempty] at huse
      cases huse
    refine List.mem_flatMap.mpr ⟨turn, hturn, ?_⟩
    rw [hasked turn hturn, Turn.requested_of_continue hok hstop]
    exact List.mem_map.mpr ⟨use, huse, rfl⟩

/-! ### The report of an agent that comes to an output -/

/-- The report gives the turns, the tokens and the tool calls that the host has recorded. -/
structure Accurate (output : AgentOutput) (history : History) : Prop where
  steps : output.steps.toNat = history.okAnswers.length
  inputTokens : output.usage.inputTokens.toNat = spent Usage.inputTokens history.okAnswers
  outputTokens : output.usage.outputTokens.toNat = spent Usage.outputTokens history.okAnswers
  toolCalls : output.toolCalls.map ToolCallRecord.request = history.invocations

/-- The agent can read the response, and the host reads every tool call made for it. -/
def Delivered (platform : Platform) (policy : Policy) (response : LlmResponse) : Prop :=
  Deliverable platform response ∧ (response.stopReason ≠ "refusal" →
    ∀ use ∈ response.reread.content.filterMap Content.asToolUse, Fits platform policy ⟨use.2.1, use.2.2⟩)

/-- What the agent has been told is all that the host has recorded, and it can be counted. -/
def Delivering (platform : Platform) (policy : Policy) (history : History) : Prop :=
  (∀ response ∈ history.okAnswers, Delivered platform policy response) ∧
    spent Usage.inputTokens history.okAnswers < 2 ^ 64 ∧
    spent Usage.outputTokens history.okAnswers < 2 ^ 64

/-- What the report of a run needs to be accurate. An agent that comes to an output must have been told all
that the provider answered, with all its tool calls read by the host and its tokens countable. Before an
agent is stopped, nothing may have happened. -/
def Conveyed (platform : Platform) (policy : Policy) (history : History) : Except Failure AgentOutput → Prop
  | .error _ => history.okAnswers = [] ∧ history.invocations = []
  | .ok _ => Delivering platform policy history

instance (platform : Platform) (policy : Policy) (response : LlmResponse) :
    Decidable (Delivered platform policy response) := inferInstanceAs (Decidable (_ ∧ _))

instance (platform : Platform) (policy : Policy) (history : History) :
    Decidable (Delivering platform policy history) := inferInstanceAs (Decidable (_ ∧ _))

instance (platform : Platform) (policy : Policy) (history : History) :
    ∀ result, Decidable (Conveyed platform policy history result)
  | .error _ => inferInstanceAs (Decidable (_ ∧ _))
  | .ok _ => inferInstanceAs (Decidable (Delivering platform policy history))

section Seen

variable {platform : Platform} {before after : HostRun} {input : AgentInput} {output : AgentOutput}
  {trace : List AgentEvent} {turns : List Turn} {list : Except CapError ToolsListResponse}

/-- The responses that the turns show are those the guest could read. -/
theorem responses_of_recorded (hempty : before.history = []) (hrecorded : Recorded platform before trace after)
    (hcalls : calls trace = ⟨AgentOp.toolsList, list⟩ :: turns.flatMap Turn.events) :
    turns.filterMap Turn.response =
      (after.history.okAnswers.filter fun response => Deliverable platform response).map
        LlmResponse.reread := by
  obtain ⟨new, hnew, hread⟩ := hrecorded.answers
  rw [hempty] at hnew
  rw [← responses_eq hcalls, hread, hnew]
  rfl

/-- The tool calls that were dispatched are those of the turns that the host has read. -/
theorem invocations_of_recorded (hempty : before.history = [])
    (hrecorded : Recorded platform before trace after)
    (hcalls : calls trace = ⟨AgentOp.toolsList, list⟩ :: turns.flatMap Turn.events)
    (haccounted : Accounted input turns output) :
    (∀ call ∈ output.toolCalls, call.input.toJson.depth < blockLevels) ∧
      after.history.invocations =
        (output.toolCalls.map ToolCallRecord.request).filter (Fits platform before.data.policy) := by
  have hrequests : output.toolCalls.map ToolCallRecord.request = trace.filterMap toolRequestOf := by
    rw [haccounted.requests, toolRequests_eq hcalls]
  have hdepth : ∀ request ∈ trace.filterMap toolRequestOf, request.input.toJson.depth < blockLevels := by
    intro request hmem
    rw [toolRequests_eq hcalls, mem_requests haccounted] at hmem
    obtain ⟨response, hresponse, _, use, huse, rfl⟩ := hmem
    rw [← responses_eq hcalls] at hresponse
    exact hrecorded.depth response hresponse use huse
  constructor
  · intro call hmem
    apply hdepth call.request
    rw [← hrequests]
    exact List.mem_map_of_mem hmem
  · rw [hrequests, hrecorded.invocations hdepth, hempty]
    rfl

theorem accurate_iff (hempty : before.history = []) (hrecorded : Recorded platform before trace after)
    (hcalls : calls trace = ⟨AgentOp.toolsList, list⟩ :: turns.flatMap Turn.events)
    (haccounted : Accounted input turns output) :
    Accurate output after.history ↔ Delivering platform before.data.policy after.history := by
  have hresponses := responses_of_recorded hempty hrecorded hcalls
  obtain ⟨_, hinvocations⟩ := invocations_of_recorded hempty hrecorded hcalls haccounted
  have hrequests : output.toolCalls.map ToolCallRecord.request =
      turns.flatMap fun turn => turn.invocations.map ToolCall.request := haccounted.requests
  have hsteps := haccounted.steps_response
  have hinput := haccounted.inputTokens
  have houtput := haccounted.outputTokens
  rw [tokens_eq _ rfl, hresponses, spent_reread] at hinput houtput
  rw [hresponses, List.length_map] at hsteps
  constructor
  · intro haccurate
    have hall : ∀ response ∈ after.history.okAnswers, Deliverable platform response := by
      have hlength := hsteps.symm.trans haccurate.steps
      intro response hmem
      exact of_decide_eq_true (List.length_filter_eq_length_iff.mp hlength response hmem)
    have hsame : (after.history.okAnswers.filter fun response => Deliverable platform response) =
        after.history.okAnswers :=
      List.filter_eq_self.mpr fun response hmem => decide_eq_true (hall response hmem)
    rw [hsame] at hinput houtput hresponses
    refine ⟨fun response hmem => ⟨hall response hmem, fun hrefusal use huse => ?_⟩, ?_, ?_⟩
    · have hfits := haccurate.toolCalls
      rw [hinvocations] at hfits
      apply List.filter_eq_self.mp hfits.symm
      rw [hrequests, mem_requests haccounted, hresponses]
      exact ⟨response.reread, List.mem_map_of_mem hmem, hrefusal, use, huse, rfl⟩
    · rw [← haccurate.inputTokens]
      exact UInt64.toNat_lt _
    · rw [← haccurate.outputTokens]
      exact UInt64.toNat_lt _
  · rintro ⟨hall, hinputFits, houtputFits⟩
    have hsame : (after.history.okAnswers.filter fun response => Deliverable platform response) =
        after.history.okAnswers :=
      List.filter_eq_self.mpr fun response hmem => decide_eq_true (hall response hmem).1
    rw [hsame] at hsteps hinput houtput hresponses
    refine ⟨hsteps, hinput.trans (Nat.mod_eq_of_lt hinputFits),
      houtput.trans (Nat.mod_eq_of_lt houtputFits), ?_⟩
    rw [hinvocations]
    refine (List.filter_eq_self.mpr fun request hmem => ?_).symm
    rw [hrequests, mem_requests haccounted, hresponses] at hmem
    obtain ⟨_, hread, hrefusal, use, huse, rfl⟩ := hmem
    obtain ⟨response, hresponse, rfl⟩ := List.mem_map.mp hread
    exact (hall response hresponse).2 hrefusal use huse

end Seen

/-! ### The report of a run -/

namespace Sandbox

variable {platform : Platform} {sandbox : Sandbox} {store final : Store sandbox.Guest}

/-- An agent that comes to an output has made a reference run, or it could not read its input and has asked
the host nothing. -/
theorem agentOutput_ok {raw : Bytes} {output : AgentOutput}
    (h : sandbox.agentOutput platform raw store = (.ok output, final)) :
    (∃ input list turns trace, Recorded platform store.host trace final.host ∧
        calls trace = ⟨AgentOp.toolsList, list⟩ :: turns.flatMap Turn.events ∧
        Accounted input turns output) ∨
      final = store ∧ ∃ e, output = unparsedOutput e := by
  unfold agentOutput at h
  cases hparsed : platform.codec.fromSlice "AgentInput" AgentInput.decode raw with
  | ok input =>
      simp only [hparsed] at h
      rw [Program.exec_translate] at h
      obtain ⟨trace, hyields, hserved⟩ := Program.served_of_exec h
      obtain ⟨list, turns, stop, hcalls, hreference, haccounts⟩ := yields_runAgent hyields
      exact Or.inl ⟨input, list, turns, trace, Recorded.served hserved, hcalls,
        accounted_of_referenceRun hreference haccounts⟩
  | error e =>
      simp only [hparsed] at h
      cases h
      exact Or.inr ⟨rfl, e, rfl⟩

/-- The output that reaches the host is the agent's, and it is accurate when all was delivered. -/
theorem invokeAgent_accurate {input : AgentInput} {output : AgentOutput} (hempty : store.host.history = [])
    (h : (sandbox.agent platform).invokeAgent platform input store = (.ok output, final)) :
    Accurate output final.host.history ↔
      Delivering platform store.host.data.policy final.host.history := by
  obtain ⟨raw, written, own, ended, hhost, houtput, hended, hdecoded⟩ := invokeAgent_ok h
  rw [← hhost] at hempty
  have hown : (∀ call ∈ own.toolCalls, call.input.toJson.depth < blockLevels) ∧
      (Accurate own ended.host.history ↔
        Delivering platform written.host.data.policy ended.host.history) := by
    rcases agentOutput_ok houtput with
      ⟨input, list, turns, trace, hrecorded, hcalls, haccounted⟩ | ⟨rfl, e, rfl⟩
    · exact ⟨(invocations_of_recorded hempty hrecorded hcalls haccounted).1,
        accurate_iff hempty hrecorded hcalls haccounted⟩
    · rw [hempty]
      exact ⟨nofun, fun _ => ⟨nofun, by decide, by decide⟩, fun _ => ⟨rfl, rfl, rfl, rfl⟩⟩
  have hread : AgentOutput.decode (Decode.recursionLimit - 1) own.encode = some own :=
    AgentOutput.decode_encode fun call hmem => Nat.le_of_lt (hown.1 call hmem)
  rw [platform.codec.fromSlice_toVec (platform.numbers _) hread] at hdecoded
  cases hdecoded
  rw [hended, ← hhost]
  exact hown.2

/-- Instantiation and the check of the ABI version compute in the guest, and that is all. -/
theorem entered_ok (h : ((sandbox.agent platform).instantiate >>= fun _ =>
    (sandbox.agent platform).checkAbiVersion) store = (.ok (), final)) :
    ∃ guest, sandbox.compute store.guest [] = (.ok (), guest) ∧ final = { store with guest := guest } := by
  obtain ⟨_, started, hstart, h⟩ := Call.bind_eq_ok h
  cases Call.tryCatch_eq_ok hstart
  obtain ⟨version, checked, hversion, hsame⟩ := Call.bind_eq_ok h
  obtain ⟨_, computed, hcompute, hreturn⟩ := Call.bind_eq_ok (Call.tryCatch_eq_ok hversion)
  obtain ⟨guest, hguest, rfl⟩ := inGuest_ok hcompute
  cases hreturn
  rw [if_neg (not_not.mpr rfl)] at hsame
  cases hsame
  exact ⟨guest, hguest, rfl⟩

/-- They do nothing to the host. -/
theorem entered_host (h : ((sandbox.agent platform).instantiate >>= fun _ =>
    (sandbox.agent platform).checkAbiVersion) store = (.ok (), final)) : final.host = store.host := by
  obtain ⟨guest, _, rfl⟩ := entered_ok h
  rfl

end Sandbox

/-- Whatever the provider answers and wherever the agent is stopped, this is exactly when its report is
accurate. -/
theorem report_accurate_iff (platform : Platform) (sandbox : Sandbox) (policy : Policy) (llm : LlmProvider)
    (fresh : sandbox.Guest) (input : AgentInput) (report : RunReport) (result : Except Failure AgentOutput)
    (store : Store sandbox.Guest)
    (h : (Runtime.mk policy llm (sandbox.agent platform) fresh).run platform input =
      .ok report result store) :
    Accurate report.output store.host.history ↔ Conveyed platform policy store.host.history result := by
  obtain ⟨clamped, opened, entered, hopen, henter, hinvoke, rfl⟩ := Runtime.run_eq_ok platform h
  obtain ⟨tools, _, rfl, _⟩ := Runtime.opening_eq_some platform hopen
  have hentered := Sandbox.entered_host henter
  cases result with
  | ok output =>
      have hempty : entered.host.history = [] := by
        rw [hentered]
        rfl
      have haccurate := Sandbox.invokeAgent_accurate hempty hinvoke
      rw [hentered] at haccurate
      exact haccurate
  | error failure =>
      constructor
      · intro haccurate
        exact ⟨List.length_eq_zero_iff.mp haccurate.steps.symm, haccurate.toolCalls.symm⟩
      · rintro ⟨hanswers, hinvocations⟩
        refine ⟨?_, ?_, ?_, hinvocations.symm⟩ <;> rw [hanswers] <;> rfl

/-- An agent without tools whose model answers at once, with fuel for so many steps of the engine. -/
def answering (fuel : Nat) : Runtime Sandbox.bump.Guest where
  policy := { Policy.default with tools := { ToolsConfig.default with enabled := [] } }
  llm := .constant (.ok ⟨"end_turn", [.text "Done."], ⟨3, 4⟩⟩)
  agent := Sandbox.bump.agent stillPlatform
  fresh := (⟨[0, 0], [], fuel⟩ : BumpGuest)

def answeringRun (fuel : Nat) : RunResult Sandbox.bump.Guest :=
  (answering fuel).run stillPlatform ⟨"Work.", none, 1⟩

/-- The run ends with a report that passes this test. -/
def RunResult.reports {γ : Type} (test : RunReport → Except Failure AgentOutput → History → Bool) :
    RunResult γ → Bool
  | .ok report result store => test report result store.host.history
  | _ => false

theorem RunResult.exists_of_reports {γ : Type} {run : RunResult γ}
    {test : RunReport → Except Failure AgentOutput → History → Bool} (h : run.reports test = true) :
    ∃ report result store, run = .ok report result store ∧ test report result store.host.history = true := by
  cases run with
  | panicked => cases h
  | err failure => cases h
  | ok report result store => exact ⟨report, result, store, rfl, h⟩

/-- With enough fuel, the run comes to its output after one turn, which reaches the guest. -/
theorem exists_answeringRun : ∃ report own store, answeringRun 40 = .ok report (.ok own) store ∧
    store.host.history.okAnswers.length = 1 ∧
      Conveyed stillPlatform (answering 40).policy store.host.history (.ok own) := by
  have hrun : (answeringRun 40).reports (fun _ result history => result.toOption.isSome = true ∧
      history.okAnswers.length = 1 ∧ Conveyed stillPlatform (answering 40).policy history result) = true := by
    decide +kernel
  obtain ⟨report, result, store, hok, htest⟩ := RunResult.exists_of_reports hrun
  obtain ⟨hsome, hone, hconveyed⟩ := of_decide_eq_true htest
  cases result with
  | error failure => cases hsome
  | ok own => exact ⟨report, own, store, hok, hone, hconveyed⟩

theorem report_accurate_answering : ∃ report result store, answeringRun 40 = .ok report result store ∧
    store.host.history.okAnswers.length = 1 ∧ Accurate report.output store.host.history := by
  obtain ⟨report, own, store, hok, hone, hconveyed⟩ := exists_answeringRun
  exact ⟨report, .ok own, store, hok, hone,
    (report_accurate_iff stillPlatform .bump _ _ _ _ report (.ok own) store hok).mpr hconveyed⟩

/-- An agent that runs out of fuel after its first turn. -/
theorem report_inaccurate_stopped :
    (answering 7).policy.validate stillPlatform = .ok () ∧
      ¬ ∀ report result store, answeringRun 7 = .ok report result store →
        Accurate report.output store.host.history := by
  refine ⟨rfl, fun hall => ?_⟩
  have hrun : (answeringRun 7).reports (fun report _ history => report.output.steps.toNat = 0 ∧
      history.okAnswers.length = 1) = true := by decide +kernel
  obtain ⟨report, result, store, hok, htest⟩ := RunResult.exists_of_reports hrun
  obtain ⟨hzero, hone⟩ := of_decide_eq_true htest
  have hsteps := (hall report result store hok).steps
  omega

end TdsWasm
