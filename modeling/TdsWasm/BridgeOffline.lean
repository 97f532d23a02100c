import TdsWasm.BridgeProgress
import TdsWasm.HostMock
import TdsWasm.SecurityListing

/-! Runs with the provider that asks nobody. The first turn calls the tools that the directives of the task name,
the second one answers with their results, and there is no third. -/

set_option autoImplicit false

namespace TdsWasm

variable (platform : Platform)

/-! ### What the task text says -/

/-- The directives that name an enabled tool, those of the context before those of the task. -/
def namedDirectives (policy : Policy) (input : AgentInput) : List (String × JsonValue) :=
  (MockProvider.parseDirectives platform.codec (input.context.getD "") ++
    MockProvider.parseDirectives platform.codec input.task).filter fun directive =>
      policy.tools.enabled.contains directive.1

namespace ToolBox

/-- Tool calls one after the other, each with what it has answered. -/
def executed : ToolBox → History → List (String × JsonValue) →
    List ((String × JsonValue) × Except CapError String)
  | _, _, [] => []
  | tools, history, (name, input) :: rest =>
      let (answer, tools, events) := tools.invoke platform history name input
      ((name, input), answer) ::
        tools.executed (history ++ (events ++ [.invoked ⟨name, input⟩ answer])) rest

end ToolBox

/-- The text that a tool call returns, of a failure its kind and its message. -/
def returnedText : Except CapError String → String
  | .ok text => text
  | .error e => e.display

/-- The first request of the agent. -/
def firstRequest (tools : ToolBox) (input : AgentInput) : LlmRequest :=
  ⟨some systemPrompt, initialMessages input, tools.specs⟩

/-- The directives of a task, executed after the first turn of the model. -/
def taskCalls (tools : ToolBox) (input : AgentInput) : List ((String × JsonValue) × Except CapError String) :=
  tools.executed platform
    [.completed (firstRequest tools input) (.ok (MockProvider.complete platform (firstRequest tools input)))]
    (namedDirectives platform tools.policy input)

/-- The output is what the task text says. -/
structure FollowsTask (tools : ToolBox) (input : AgentInput) (output : AgentOutput) : Prop where
  stop : output.stop = .completed
  steps : output.steps = if namedDirectives platform tools.policy input = [] then 1 else 2
  toolCalls : output.toolCalls.map (fun call => ((call.name, call.input), call.ok)) =
    (taskCalls platform tools input).map fun call => (call.1, call.2.isOk)
  answer : Text.InOrder (Text.trimLast ((taskCalls platform tools input).map fun call => returnedText call.2))
    output.answer

variable {platform}

/-! ### The first request -/

section FirstRequest

variable {tools : ToolBox} {input : AgentInput}

theorem blocks_initialMessages (input : AgentInput) : (initialMessages input).flatMap Message.content =
    ((input.context.filter fun c => !(Text.trim c).isEmpty).map fun c =>
      Content.text ("Background context:\n" ++ c)).toList ++ [Content.text input.task] := by
  unfold initialMessages
  cases input.context.filter fun c => !(Text.trim c).isEmpty <;> rfl

/-- The directives that the mock finds in the first request. -/
theorem directives_firstRequest (input : AgentInput) :
    MockProvider.parseDirectives platform.codec ("\n".intercalate
        (((initialMessages input).flatMap Message.content).filterMap Content.asText)) =
      MockProvider.parseDirectives platform.codec (input.context.getD "") ++
        MockProvider.parseDirectives platform.codec input.task := by
  rw [blocks_initialMessages]
  cases hcontext : input.context.filter fun c => !(Text.trim c).isEmpty with
  | none =>
      have hblank : Text.trim (input.context.getD "") = "" := by
        cases hgiven : input.context with
        | none => rfl
        | some c =>
            have hempty := Option.filter_eq_none_iff.mp hcontext c hgiven
            simpa using hempty
      rw [MockProvider.parseDirectives_blank hblank]
      show MockProvider.parseDirectives platform.codec ("\n".intercalate [input.task]) = _
      rw [String.intercalate_singleton]
      rfl
  | some c =>
      have hsome : input.context = some c := (Option.filter_eq_some_iff.mp hcontext).1
      have htitle : MockProvider.parseDirectives platform.codec "Background context:" = [] := rfl
      have hshown : "Background context:\n" ++ c = "Background context:" ++ "\n" ++ c := rfl
      show MockProvider.parseDirectives platform.codec ("\n".intercalate ["Background context:\n" ++ c, input.task]) = _
      rw [String.intercalate_cons_cons, String.intercalate_singleton, MockProvider.parseDirectives_append, hsome,
        hshown, MockProvider.parseDirectives_append, htitle]
      rfl

theorem offeredDirectives_firstRequest (hknown : ∀ name ∈ tools.policy.tools.enabled, isKnownTool name = true) :
    MockProvider.offeredDirectives platform (firstRequest tools input) =
      namedDirectives platform tools.policy input := by
  show (MockProvider.parseDirectives platform.codec ("\n".intercalate
    (((initialMessages input).flatMap Message.content).filterMap Content.asText))).filter
      (fun directive => (tools.specs.map ToolSpec.name).contains directive.1) = _
  rw [directives_firstRequest, ToolBox.specs_names hknown]
  rfl

end FirstRequest

/-! ### Tool calls -/

theorem toolOutcome_map (answer : Except CapError String) :
    toolOutcome (answer.map ToolInvokeResponse.mk) = (returnedText answer, answer.isOk) := by
  cases answer <;> rfl

/-- What the calls of a turn come to when they are executed in this state. -/
structure Executes (platform : Platform) (standing : Standing) (requested : List (String × String × JsonValue))
    (invocations : List ToolCall) : Prop where
  asked : invocations.map ToolCall.asked = requested
  answers : invocations.map (fun call => ((call.name, call.input), call.answer)) =
    (standing.tools.executed platform standing.history (requested.map Prod.snd)).map fun call =>
      (call.1, call.2.map ToolInvokeResponse.mk)

/-- What is made of the outcomes of the calls is made of the tools' answers. -/
theorem Executes.map_outcomes {standing : Standing} {requested : List (String × String × JsonValue)}
    {invocations : List ToolCall} (h : Executes platform standing requested invocations) {β : Type}
    (f : String × JsonValue → String × Bool → β) :
    invocations.map (fun call => f (call.name, call.input) (toolOutcome call.answer)) =
      (standing.tools.executed platform standing.history (requested.map Prod.snd)).map fun call =>
        f call.1 (returnedText call.2, call.2.isOk) := by
  have hanswers := congrArg (List.map fun made => f made.1 (toolOutcome made.2)) h.answers
  rw [List.map_map, List.map_map] at hanswers
  calc _ = _ := hanswers
    _ = _ := List.map_congr_left fun call _ => congrArg (f call.1) (toolOutcome_map call.2)

variable (platform) in
theorem derives_invokeTools (step : UInt32) (requested : List (String × String × JsonValue)) (standing : Standing)
    (hdepth : ∀ asked ∈ requested, asked.2.2.toJson.depth ≤ Decode.recursionLimit - 2) :
    ∃ invocations tools history, Executes platform standing requested invocations ∧
      Program.Derives (Standing.answer platform) (Standing.Clear platform) (invokeTools step requested) standing
        (invocations.map (ToolCall.record step), invocations.map ToolCall.result)
        { standing with tools := tools, history := history } := by
  induction requested generalizing standing with
  | nil => exact ⟨[], standing.tools, standing.history, ⟨rfl, rfl⟩, .done _ _⟩
  | cons asked rest ih =>
      obtain ⟨id, name, args⟩ := asked
      obtain ⟨hfirst, hrest⟩ := List.forall_mem_cons.mp hdepth
      cases hinvoke : standing.tools.invoke platform standing.history name args with
      | mk answer left =>
          obtain ⟨tools, events⟩ := left
          obtain ⟨invocations, tools', history, hexecutes, hderives⟩ := ih { standing with
            tools := tools
            history := standing.history ++ (events ++ [.invoked ⟨name, args⟩ answer]) } hrest
          refine ⟨⟨id, name, args, answer.map ToolInvokeResponse.mk⟩ :: invocations, tools', history, ⟨?_, ?_⟩, ?_⟩
          · rw [List.map_cons, hexecutes.asked]
            rfl
          · rw [List.map_cons, hexecutes.answers, List.map_cons, ToolBox.executed]
            simp only [hinvoke]
            rfl
          · rw [invokeTools_cons]
            refine .ask trivial (.ask_of_eq hfirst ?_ (hderives.bind (.done _ _)))
            simp only [Standing.answer, hinvoke]

/-! ### Documents -/

/-- A block that every document can carry, and that is read back as it is. -/
def Content.Lasting (content : Content) : Prop := content.Canonical ∧ content.nesting ≤ turnLevels

theorem lasting_text (t : String) : (Content.text t).Lasting := ⟨trivial, (by decide : 1 ≤ turnLevels)⟩

theorem lasting_result (call : ToolCall) : call.result.Lasting := ⟨trivial, (by decide : 1 ≤ turnLevels)⟩

theorem lasting_toolUses {directives : List (String × JsonValue)}
    (hdepth : ∀ directive ∈ directives, directive.2.toJson.depth < turnLevels) :
    ∀ block ∈ MockProvider.toolUses directives, block.Lasting := by
  intro block hmem
  obtain ⟨⟨directive, i⟩, hcall, rfl⟩ := List.mem_map.mp hmem
  exact ⟨trivial, hdepth directive (List.fst_mem_of_mem_zipIdx hcall)⟩

/-- The schemas of the tools are shallow. -/
theorem depth_specs (tools : ToolBox) : ∀ spec ∈ tools.specs, spec.inputSchema.toJson.depth ≤ blockLevels - 1 := by
  intro spec hmem
  obtain ⟨name, _, hspec⟩ := List.mem_filterMap.mp hmem
  unfold specFor at hspec
  split at hspec
  all_goals cases hspec <;> decide

/-- The host after a turn of the mock. -/
def Standing.turned (platform : Platform) (standing : Standing) (request : LlmRequest) : Standing :=
  { standing with
    llmCalls := standing.llmCalls + 1
    history := standing.history ++ [.completed request (.ok (MockProvider.complete platform request))] }

/-- A turn of the mock, when the blocks of its request and of its response last. -/
theorem turn_complete (standing : Standing) (request : LlmRequest)
    (hllm : standing.llm = MockProvider.toProvider platform)
    (hturns : standing.llmCalls < standing.policy.limits.maxSteps)
    (hmessages : ∀ message ∈ request.messages, ∀ block ∈ message.content, block.Lasting)
    (htools : ∀ spec ∈ request.tools, spec.inputSchema.toJson.depth ≤ blockLevels - 1)
    (hresponse : ∀ block ∈ (MockProvider.complete platform request).content, block.Lasting) :
    standing.Clear platform (.llmComplete request) ∧ standing.answer platform (.llmComplete request) =
      (.ok (MockProvider.complete platform request), standing.turned platform request) := by
  have hanswer : standing.answer platform (.llmComplete request) =
      (.ok (MockProvider.complete platform request), standing.turned platform request) := by
    simp only [Standing.answer, Standing.turned, if_neg (UInt32.not_le.mpr hturns), hllm]
    rfl
  refine ⟨⟨(understood_iff request).mpr ⟨?_, ?_⟩, ?_, ?_⟩, hanswer⟩
  · exact fun message hmessage block hblock => (hmessages message hmessage block hblock).2
  · exact fun spec hspec => (htools spec hspec).trans (by decide)
  · exact fun message hmessage block hblock => (hmessages message hmessage block hblock).1
  · intro response hok
    rw [hanswer] at hok
    cases hok
    refine ⟨fun block hblock => (hresponse block hblock).1, fun block hblock => ?_⟩
    exact (hresponse block hblock).2.trans (by decide)

section Turns

variable {specs : List ToolSpec} {maxSteps step : UInt32} {remaining : Nat} {messages : List Message}
  {record : List ToolCallRecord} {usage : Usage} {standing asked : Standing} {response : LlmResponse}
  (hclear : standing.Clear platform (.llmComplete ⟨some systemPrompt, messages, specs⟩))
  (hanswer : standing.answer platform (.llmComplete ⟨some systemPrompt, messages, specs⟩) = (.ok response, asked))
  (hrefusal : response.stopReason ≠ "refusal")

include hclear hanswer hrefusal

/-- A response without tool calls is the last one. -/
theorem derives_last (hnone : response.content.filterMap Content.asToolUse = []) :
    Program.Derives (Standing.answer platform) (Standing.Clear platform)
      (takeSteps specs maxSteps (remaining + 1) step messages record usage) standing
      ⟨response.joinedText, step, .completed, record, usage.add response.usage⟩ asked := by
  refine .ask_of_eq hclear hanswer ?_
  show Program.Derives _ _ (if response.stopReason = "refusal" then _ else
    if (response.content.filterMap Content.asToolUse).isEmpty = true then _ else _) _ _ _
  rw [if_neg hrefusal, if_pos (List.isEmpty_iff.mpr hnone)]
  exact .done _ _

/-- After a response with tool calls, and after these, the agent takes the next step. -/
theorem derives_next {made : List ToolCallRecord × List Content} {invoked left : Standing} {output : AgentOutput}
    (hsome : response.content.filterMap Content.asToolUse ≠ [])
    (hinvoke : Program.Derives (Standing.answer platform) (Standing.Clear platform)
      (invokeTools step (response.content.filterMap Content.asToolUse)) asked made invoked)
    (hrest : Program.Derives (Standing.answer platform) (Standing.Clear platform)
      (takeSteps specs maxSteps remaining (step + 1) (messages ++ [.assistant response.content] ++ [.user made.2])
        (record ++ made.1) (usage.add response.usage)) invoked output left) :
    Program.Derives (Standing.answer platform) (Standing.Clear platform)
      (takeSteps specs maxSteps (remaining + 1) step messages record usage) standing output left := by
  refine .ask_of_eq hclear hanswer ?_
  show Program.Derives _ _ (if response.stopReason = "refusal" then _ else
    if (response.content.filterMap Content.asToolUse).isEmpty = true then _ else _) _ _ _
  rw [if_neg hrefusal, if_neg fun hempty => hsome (List.isEmpty_iff.mp hempty)]
  exact hinvoke.bind hrest

end Turns

/-- The agent starts its loop with the tools of the host. -/
theorem derives_start {input : AgentInput} {standing left : Standing} {output : AgentOutput}
    (h : Program.Derives (Standing.answer platform) (Standing.Clear platform)
      (takeSteps standing.tools.specs (max input.maxSteps 1) (stepLimit input) 1 (initialMessages input) [] .zero)
      standing output left) :
    Program.Derives (Standing.answer platform) (Standing.Clear platform) (runAgent input) standing output left :=
  .ask_of_eq (depth_specs standing.tools) rfl (.ask trivial h)

/-! ### The two turns -/

/-- The first request holds nothing but texts. -/
theorem text_of_initialMessages (input : AgentInput) :
    ∀ block ∈ (initialMessages input).flatMap Message.content, ∃ t, block = .text t := by
  intro block hmem
  rw [blocks_initialMessages] at hmem
  rcases List.mem_append.mp hmem with hcontext | htask
  · obtain ⟨c, _, rfl⟩ := Option.map_eq_some_iff.mp (Option.mem_toList.mp hcontext)
    exact ⟨_, rfl⟩
  · exact ⟨_, List.mem_singleton.mp htask⟩

theorem lasting_initialMessages (input : AgentInput) :
    ∀ message ∈ initialMessages input, ∀ block ∈ message.content, block.Lasting := by
  intro message hmessage block hblock
  obtain ⟨t, rfl⟩ := text_of_initialMessages input block (List.mem_flatMap.mpr ⟨message, hmessage, hblock⟩)
  exact lasting_text t

theorem results_initialMessages (input : AgentInput) :
    ((initialMessages input).flatMap Message.content).filterMap Content.asToolResult = [] := by
  apply List.filterMap_eq_nil_iff.mpr
  intro block hmem
  obtain ⟨t, rfl⟩ := text_of_initialMessages input block hmem
  rfl

/-- The second request of the agent, after calls for these directives. -/
def secondRequest (tools : ToolBox) (input : AgentInput) (directives : List (String × JsonValue))
    (invocations : List ToolCall) : LlmRequest where
  system := some systemPrompt
  messages := initialMessages input ++ [Message.assistant (MockProvider.toolUses directives)] ++
    [Message.user (invocations.map ToolCall.result)]
  tools := tools.specs

/-- The results in the second request are those of the calls. -/
theorem results_secondRequest (tools : ToolBox) (input : AgentInput) (directives : List (String × JsonValue))
    (invocations : List ToolCall) :
    (secondRequest tools input directives invocations).blocks.filterMap Content.asToolResult =
      invocations.map fun call => (toolOutcome call.answer).1 := by
  have huses : (MockProvider.toolUses directives).filterMap Content.asToolResult = [] := by
    apply List.filterMap_eq_nil_iff.mpr
    intro block hmem
    obtain ⟨call, _, rfl⟩ := List.mem_map.mp hmem
    rfl
  have hresults : (invocations.map ToolCall.result).filterMap Content.asToolResult =
      invocations.map fun call => (toolOutcome call.answer).1 := by
    rw [List.filterMap_map, List.filterMap_eq_map_iff_forall_eq_some]
    exact fun _ _ => rfl
  show ((initialMessages input ++ [Message.assistant (MockProvider.toolUses directives)] ++
    [Message.user (invocations.map ToolCall.result)]).flatMap Message.content).filterMap Content.asToolResult = _
  rw [List.flatMap_append, List.flatMap_append, List.flatMap_singleton, List.flatMap_singleton, List.filterMap_append,
    List.filterMap_append, results_initialMessages]
  exact congrArg₂ (fun uses results => [] ++ uses ++ results) huses hresults

theorem lasting_secondRequest (tools : ToolBox) (input : AgentInput) {directives : List (String × JsonValue)}
    (hdepth : ∀ directive ∈ directives, directive.2.toJson.depth < turnLevels) (invocations : List ToolCall) :
    ∀ message ∈ (secondRequest tools input directives invocations).messages, ∀ block ∈ message.content,
      block.Lasting := by
  refine List.forall_mem_append.mpr ⟨List.forall_mem_append.mpr ⟨lasting_initialMessages input, ?_⟩, ?_⟩
  · exact List.forall_mem_singleton.mpr (lasting_toolUses hdepth)
  · exact List.forall_mem_singleton.mpr (List.forall_mem_map.mpr fun call _ => lasting_result call)

/-- The answer of the mock to the second request shows the results. -/
theorem inOrder_results (texts : List String) :
    Text.InOrder (Text.trimLast texts) (LlmResponse.joinedText ⟨"end_turn",
      [.text ("[mock] Tool results: " ++ " | ".intercalate texts)], ⟨120, 30⟩⟩) := by
  show Text.InOrder _ (Text.trim ("\n".intercalate ["[mock] Tool results: " ++ " | ".intercalate texts]))
  rw [String.intercalate_singleton, Text.trim_of_head (String.toList_append ..) (by decide)]
  exact Text.inOrder_trimEnd ⟨'|', by decide, by decide⟩ texts ⟨'m', by decide, by decide⟩

variable (platform) in
/-- The first turn: the mock calls the tools of the directives, if there are any. -/
theorem complete_firstRequest {tools : ToolBox} (input : AgentInput)
    (hknown : ∀ name ∈ tools.policy.tools.enabled, isKnownTool name = true) :
    ∃ text, MockProvider.complete platform (firstRequest tools input) =
      if namedDirectives platform tools.policy input = [] then ⟨"end_turn", [.text text], ⟨120, 30⟩⟩
      else ⟨"tool_use", MockProvider.toolUses (namedDirectives platform tools.policy input), ⟨100, 20⟩⟩ := by
  have hfresh : (firstRequest tools input).blocks.filterMap Content.asToolResult = [] := results_initialMessages input
  rw [MockProvider.complete_unused hfresh, offeredDirectives_firstRequest hknown]
  exact ⟨_, rfl⟩

section Offline

variable {tools : ToolBox} {input : AgentInput}

/-- The host with which an agent starts. -/
def offlineStart (platform : Platform) (tools : ToolBox) : Standing :=
  ⟨tools.policy, MockProvider.toProvider platform, tools, 0, []⟩

/-- The calls for the directives are those of the task, on the scratchpad that the host starts with. -/
theorem derives_taskCalls
    (hdepth : ∀ directive ∈ namedDirectives platform tools.policy input, directive.2.toJson.depth < turnLevels) :
    let start := (offlineStart platform tools).turned platform (firstRequest tools input)
    let requested := (MockProvider.toolUses (namedDirectives platform tools.policy input)).filterMap Content.asToolUse
    ∃ (invocations : List ToolCall) (tools' : ToolBox) (history : History),
      invocations.map ToolCall.asked = requested ∧
      (∀ {β : Type} (f : String × JsonValue → String × Bool → β),
        invocations.map (fun call => f (call.name, call.input) (toolOutcome call.answer)) =
          (taskCalls platform tools input).map fun call => f call.1 (returnedText call.2, call.2.isOk)) ∧
      Program.Derives (Standing.answer platform) (Standing.Clear platform)
        (invokeTools 1 requested) start (invocations.map (ToolCall.record 1), invocations.map ToolCall.result)
        { start with tools := tools', history := history } := by
  have hasked := MockProvider.asked_toolUses (namedDirectives platform tools.policy input)
  obtain ⟨invocations, tools', history, hexecutes, hinvoke⟩ := derives_invokeTools platform 1
    ((MockProvider.toolUses (namedDirectives platform tools.policy input)).filterMap Content.asToolUse)
    ((offlineStart platform tools).turned platform (firstRequest tools input)) (by
      intro asked hmem
      have hdirective := hdepth asked.2 (hasked ▸ List.mem_map_of_mem hmem)
      exact hdirective.le.trans (by decide))
  refine ⟨invocations, tools', history, hexecutes.asked, fun {β} f => ?_, hinvoke⟩
  have hmade := hexecutes.map_outcomes f
  rw [hasked] at hmade
  exact hmade

/-- The turn after the calls is the last one, and it shows their texts. -/
theorem derives_results {standing : Standing} (hllm : standing.llm = MockProvider.toProvider platform)
    (hturns : standing.llmCalls < standing.policy.limits.maxSteps) {directives : List (String × JsonValue)}
    (hdepth : ∀ directive ∈ directives, directive.2.toJson.depth < turnLevels) {invocations : List ToolCall}
    (hmade : invocations ≠ []) (maxSteps step : UInt32) (remaining : Nat) (record : List ToolCallRecord)
    (usage : Usage) :
    let texts := invocations.map fun call => (toolOutcome call.answer).1
    Program.Derives (Standing.answer platform) (Standing.Clear platform)
      (takeSteps tools.specs maxSteps (remaining + 1) step (secondRequest tools input directives invocations).messages
        record usage) standing
      ⟨LlmResponse.joinedText ⟨"end_turn", [.text ("[mock] Tool results: " ++ " | ".intercalate texts)], ⟨120, 30⟩⟩,
        step, .completed, record, usage.add ⟨120, 30⟩⟩
      (standing.turned platform (secondRequest tools input directives invocations)) := by
  have hresults := results_secondRequest tools input directives invocations
  have hused : (secondRequest tools input directives invocations).blocks.filterMap Content.asToolResult ≠ [] := by
    rw [hresults]
    exact fun hnil => hmade (List.map_eq_nil_iff.mp hnil)
  have hcomplete : MockProvider.complete platform (secondRequest tools input directives invocations) = _ :=
    MockProvider.complete_used hused
  obtain ⟨hclear, hanswer⟩ := turn_complete standing (secondRequest tools input directives invocations) hllm hturns
    (lasting_secondRequest tools input hdepth invocations) (depth_specs tools) (by
      rw [hcomplete]
      exact List.forall_mem_singleton.mpr (lasting_text _))
  rw [hcomplete, hresults] at hanswer
  exact derives_last hclear hanswer (show "end_turn" ≠ "refusal" by decide) rfl

variable (hknown : ∀ name ∈ tools.policy.tools.enabled, isKnownTool name = true) {maxSteps : UInt32}
include hknown

/-- Without directives, the first turn is the last one. -/
theorem derives_undirected (hsteps : 0 < stepLimit { input with maxSteps := maxSteps })
    (hturns : 0 < tools.policy.limits.maxSteps)
    (hnone : namedDirectives platform tools.policy input = []) :
    ∃ output left, Program.Derives (Standing.answer platform) (Standing.Clear platform)
      (runAgent { input with maxSteps := maxSteps }) (offlineStart platform tools) output left ∧
        FollowsTask platform tools input output := by
  obtain ⟨remaining, hremaining⟩ := Nat.exists_eq_add_one.mpr hsteps
  obtain ⟨text, hcomplete⟩ := complete_firstRequest platform input hknown
  rw [if_pos hnone] at hcomplete
  obtain ⟨hclear, hanswer⟩ := turn_complete (offlineStart platform tools) (firstRequest tools input) rfl hturns
    (lasting_initialMessages input) (depth_specs tools) (by
      rw [hcomplete]
      exact List.forall_mem_singleton.mpr (lasting_text text))
  rw [hcomplete] at hanswer
  have hlast : Program.Derives (Standing.answer platform) (Standing.Clear platform)
      (takeSteps tools.specs (max maxSteps 1) (remaining + 1) 1 (initialMessages input) [] .zero)
      (offlineStart platform tools) ⟨_, 1, .completed, [], _⟩ _ :=
    derives_last hclear hanswer (show "end_turn" ≠ "refusal" by decide) rfl
  rw [← hremaining] at hlast
  refine ⟨_, _, derives_start hlast, rfl, (if_pos hnone).symm, ?_, ?_⟩
  · rw [taskCalls, hnone]
    rfl
  · rw [taskCalls, hnone]
    trivial

/-- With directives, the first turn calls the tools, and the second one is the last. -/
theorem derives_directed (hsteps : 1 < stepLimit { input with maxSteps := maxSteps })
    (hturns : 1 < tools.policy.limits.maxSteps)
    (hdepth : ∀ directive ∈ namedDirectives platform tools.policy input, directive.2.toJson.depth < turnLevels)
    (hsome : namedDirectives platform tools.policy input ≠ []) :
    ∃ output left, Program.Derives (Standing.answer platform) (Standing.Clear platform)
      (runAgent { input with maxSteps := maxSteps }) (offlineStart platform tools) output left ∧
        FollowsTask platform tools input output := by
  obtain ⟨remaining, hremaining⟩ := Nat.exists_eq_add_of_lt hsteps
  obtain ⟨_, hcomplete⟩ := complete_firstRequest platform input hknown
  rw [if_neg hsome] at hcomplete
  obtain ⟨invocations, tools', history, hrequested, houtcomes, hinvoke⟩ := derives_taskCalls hdepth
  have hasked := MockProvider.asked_toolUses (namedDirectives platform tools.policy input)
  -- From here on it does not matter which directives the text names.
  generalize hnamed : namedDirectives platform tools.policy input = directives at *
  obtain ⟨hclear, hanswer⟩ := turn_complete (offlineStart platform tools) (firstRequest tools input) rfl
    (show 0 < tools.policy.limits.maxSteps from UInt32.lt_trans (by decide) hturns) (lasting_initialMessages input)
    (depth_specs tools) (by
      rw [hcomplete]
      exact lasting_toolUses hdepth)
  have huses : (MockProvider.toolUses directives).filterMap Content.asToolUse ≠ [] := by
    intro hnil
    rw [hnil] at hasked
    exact hsome hasked.symm
  have hmade : invocations ≠ [] := by
    rintro rfl
    exact huses hrequested.symm
  rw [hcomplete] at hanswer
  have hrun : Program.Derives (Standing.answer platform) (Standing.Clear platform)
      (takeSteps tools.specs (max maxSteps 1) (remaining + 1 + 1) 1 (initialMessages input) [] .zero)
      (offlineStart platform tools) _ _ :=
    derives_next hclear hanswer (show "tool_use" ≠ "refusal" by decide) huses hinvoke
      (derives_results rfl hturns hdepth hmade (max maxSteps 1) (1 + 1) remaining _ _)
  rw [Nat.add_comm 1 remaining] at hremaining
  rw [← hremaining] at hrun
  refine ⟨_, _, derives_start hrun, rfl, ?_, ?_, ?_⟩
  · rw [hnamed]
    exact (if_neg hsome).symm
  · show (invocations.map (ToolCall.record 1)).map (fun call => ((call.name, call.input), call.ok)) = _
    rw [List.map_map]
    exact houtcomes fun directive outcome => (directive, outcome.2)
  · have htexts := houtcomes fun _ outcome => outcome.1
    rw [← htexts]
    exact inOrder_results _

end Offline

/-! ### Runs -/

/-- An offline run does what its task text says: with a valid policy that asks for the mock, at least two steps and
nothing too deep or too long for the channel, an agent that comes to an output has followed its task. -/
theorem offline_run (platform : Platform) (sandbox : Sandbox) (policy : Policy) (llm : LlmProvider)
    (fresh : sandbox.Guest) (input : AgentInput) (maxSteps : UInt32) (report : RunReport) (output : AgentOutput)
    (store : Store sandbox.Guest) (hvalid : policy.validate platform = .ok ()) (hmock : policy.llm.provider = .mock)
    (hllm : LlmProvider.build platform policy.llm = .ok llm) (haddress : sandbox.Addressable)
    (hfresh : (sandbox.memory fresh).length ≤ 2 ^ 32)
    (hclamp : clamp input.maxSteps 1 policy.limits.maxSteps = some maxSteps) (hsteps : 2 ≤ maxSteps)
    (hdepth : ∀ directive ∈ namedDirectives platform policy input, directive.2.toJson.depth ≤ 122)
    (hrun : (Runtime.mk policy llm (sandbox.agent platform) fresh).run platform input = .ok report (.ok output) store)
    (hcarried : ∀ visit ∈ Sandbox.questions platform sandbox policy llm fresh input,
      Sandbox.CarriedAt platform visit) :
    ∃ tools, ToolBox.new platform policy = .ok tools ∧ FollowsTask platform tools input report.output := by
  obtain ⟨houtput, clamped, begun, ended, tools, hbegun, ⟨_, hclamp', rfl⟩, htools, hhost, hexec⟩ :=
    Sandbox.output_of_run haddress hfresh hrun
  cases hclamp.symm.trans hclamp'
  have hpolicy : tools.policy = policy := ToolBox.policy_of_new htools
  have hknown : ∀ name ∈ tools.policy.tools.enabled, isKnownTool name = true := by
    rw [hpolicy]
    exact (Policy.validate_eq_ok_iff.mp hvalid).enabled
  have hmaxSteps : 1 < stepLimit { input with maxSteps := maxSteps } := by
    have htwo := UInt32.le_iff_toNat_le.mp hsteps
    rw [stepLimit, Word.toNat_max]
    exact lt_max_of_lt_left htwo
  have hturns : 1 < tools.policy.limits.maxSteps := by
    obtain ⟨_, hclamped, _, hhigh, _⟩ := clamp_of_le input.maxSteps (Policy.maxSteps_pos hvalid)
    cases hclamp.symm.trans hclamped
    rw [hpolicy]
    exact UInt32.lt_of_lt_of_le (UInt32.lt_of_lt_of_le (by decide) hsteps) hhigh
  obtain ⟨followed, left, hderives, hfollows⟩ : ∃ followed left,
      Program.Derives (Standing.answer platform) (Standing.Clear platform)
        (runAgent { input with maxSteps := maxSteps }) (offlineStart platform tools) followed left ∧
        FollowsTask platform tools input followed := by
    by_cases hnone : namedDirectives platform tools.policy input = []
    · exact derives_undirected hknown (by omega) (UInt32.lt_trans (by decide) hturns) hnone
    · refine derives_directed hknown hmaxSteps hturns ?_ hnone
      rw [hpolicy]
      exact fun directive hmem => Nat.lt_succ_of_le (hdepth directive hmem)
  have hstanding : begun.host.standing = offlineStart platform tools := by
    rw [LlmProvider.build, hmock] at hllm
    cases hllm
    rw [hhost, offlineStart, hpolicy]
    rfl
  rw [Sandbox.questions_of_begun platform hbegun] at hcarried
  have hsame := Sandbox.result_of_derives hderives hstanding hcarried hexec
  rw [houtput, hsame]
  exact ⟨tools, htools, hfollows⟩

/-- A policy for the mock, with the scratchpad. -/
def scratchPolicy : Policy :=
  { Policy.default with
    llm := { LlmConfig.default with provider := .mock }
    tools := { ToolsConfig.default with enabled := ["kv_put", "kv_get"] } }

/-- A task that stores a text with a line feed at its end, and reads it. -/
def scratchInput : AgentInput where
  task := "!tool kv_put \x7b\"key\":\"k\",\"value\":\"v\\n\"\x7d\n!tool kv_get \x7b\"key\":\"k\"\x7d"
  context := none
  maxSteps := 2

def scratchGuest : Sandbox.bump.Guest := (⟨[0, 0], [], 60⟩ : BumpGuest)

def scratchRun : RunResult Sandbox.bump.Guest :=
  (Runtime.mk scratchPolicy (MockProvider.toProvider stillPlatform) (Sandbox.bump.agent stillPlatform)
    scratchGuest).run stillPlatform scratchInput

def scratchQuestions : List (Store Sandbox.bump.Guest × AgentProgram AgentOutput) :=
  Sandbox.questions stillPlatform .bump scratchPolicy (MockProvider.toProvider stillPlatform) scratchGuest scratchInput

/-- The tools that the host starts with. -/
def scratchTools : ToolBox := ⟨scratchPolicy, .unreachable, .empty⟩

theorem depths_scratchInput : (namedDirectives stillPlatform scratchPolicy scratchInput).map
    (fun directive => directive.2.toJson.depth) = [1, 1] := by
  decide +kernel

theorem depth_scratchInput : ∀ directive ∈ namedDirectives stillPlatform scratchPolicy scratchInput,
    directive.2.toJson.depth ≤ 122 := by
  have hall : ∀ depth ∈ (namedDirectives stillPlatform scratchPolicy scratchInput).map
      (fun directive => directive.2.toJson.depth), depth ≤ 122 := by
    rw [depths_scratchInput]
    decide
  exact List.forall_mem_map.mp hall

theorem derives_scratchInput : ∃ output left, Program.Derives (Standing.answer stillPlatform)
    (Standing.Clear stillPlatform) (runAgent scratchInput) (offlineStart stillPlatform scratchTools) output left := by
  have hsome : namedDirectives stillPlatform scratchTools.policy scratchInput ≠ [] := by
    intro hnil
    have hdepths := depths_scratchInput
    rw [show namedDirectives stillPlatform scratchPolicy scratchInput = [] from hnil] at hdepths
    cases hdepths
  have hknown : ∀ name ∈ scratchTools.policy.tools.enabled, isKnownTool name = true := by decide
  obtain ⟨output, left, hderives, _⟩ := @derives_directed stillPlatform scratchTools scratchInput hknown 2
    (by decide) (by decide) (fun directive hmem => Nat.lt_succ_of_le (depth_scratchInput directive hmem)) hsome
  exact ⟨output, left, hderives⟩

/-- The questions of the agent, asked of the host without the channel, and its output. -/
def scratchVisits : List (Standing × AgentProgram AgentOutput) :=
  (runAgent scratchInput).visits (Standing.answer stillPlatform).unstopped (offlineStart stillPlatform scratchTools)

def scratchOutput : AgentOutput :=
  ((runAgent scratchInput).run (Standing.answer stillPlatform) (offlineStart stillPlatform scratchTools)).result

theorem scratchVisits_light : (∀ visit ∈ scratchVisits, Standing.CarriesAt stillPlatform visit) ∧
    (⟨[0, 0], [], 60⟩ : BumpGuest).Has (2 * scratchVisits.length + 6) (Standing.loads stillPlatform scratchVisits +
      ((stillPlatform.codec.toVec scratchInput.encode).length +
        (stillPlatform.codec.toVec scratchOutput.encode).length)) ∧
    scratchOutput.answer.toList.contains '\n' = false := by
  decide +kernel

theorem exists_scratchRun : ∃ report output store, scratchRun = .ok report (.ok output) store ∧
    report.output.answer.toList.contains '\n' = false := by
  obtain ⟨hcarries, hhas, hfeed⟩ := scratchVisits_light
  obtain ⟨output, left, hderives⟩ := derives_scratchInput
  obtain rfl : scratchOutput = output := hderives.run_result
  have hopen : (Runtime.mk scratchPolicy (MockProvider.toProvider stillPlatform) (Sandbox.bump.agent stillPlatform)
      scratchGuest).opening stillPlatform scratchInput = some (scratchInput, ⟨.start scratchPolicy
        (MockProvider.toProvider stillPlatform) scratchTools, scratchGuest⟩) := rfl
  obtain ⟨report, store, hrun, hreport⟩ := run_completes stillPlatform .bump Sandbox.supplyBump scratchPolicy
    (MockProvider.toProvider stillPlatform) scratchGuest scratchInput scratchInput scratchTools scratchOutput left
    scratchVisits hopen hderives rfl hcarries hhas
  refine ⟨report, scratchOutput, store, hrun, ?_⟩
  rw [hreport]
  exact hfeed

theorem carried_scratchQuestions : ∀ visit ∈ scratchQuestions, Sandbox.CarriedAt stillPlatform visit := by
  obtain ⟨_, _, _, hok, _⟩ := exists_scratchRun
  obtain ⟨_, _, _, _, tools, hbegun, ⟨maxSteps, hclamped, rfl⟩, htools, hhost, _⟩ :=
    Sandbox.output_of_run Sandbox.addressable_bump (by decide) hok
  have hclamp : clamp scratchInput.maxSteps 1 scratchPolicy.limits.maxSteps = some 2 := rfl
  have hnew : ToolBox.new stillPlatform scratchPolicy = .ok scratchTools := rfl
  cases hclamp.symm.trans hclamped
  cases hnew.symm.trans htools
  obtain ⟨_, _, hderives⟩ := derives_scratchInput
  rw [scratchQuestions, Sandbox.questions_of_begun stillPlatform hbegun]
  exact Sandbox.carried_of_derives hderives (congrArg HostRun.standing hhost) scratchVisits_light.1

theorem offline_run_scratch : ∃ report output store tools, scratchRun = .ok report (.ok output) store ∧
    ToolBox.new stillPlatform scratchPolicy = .ok tools ∧
    FollowsTask stillPlatform tools scratchInput report.output := by
  obtain ⟨report, output, store, hok, _⟩ := exists_scratchRun
  obtain ⟨tools, htools, hfollows⟩ := offline_run stillPlatform .bump scratchPolicy
    (MockProvider.toProvider stillPlatform) scratchGuest scratchInput 2 report output store rfl rfl rfl
    Sandbox.addressable_bump (by decide) rfl (by decide) depth_scratchInput hok carried_scratchQuestions
  exact ⟨report, output, store, tools, hok, htools, hfollows⟩

/-- The answer does not show the line feed at the end of the last text. -/
theorem offline_answer_trimmed : ∃ report output store tools, scratchPolicy.validate stillPlatform = .ok () ∧
    scratchPolicy.llm.provider = .mock ∧
    LlmProvider.build stillPlatform scratchPolicy.llm = .ok (MockProvider.toProvider stillPlatform) ∧
    clamp scratchInput.maxSteps 1 scratchPolicy.limits.maxSteps = some 2 ∧
    scratchRun = .ok report (.ok output) store ∧
    (∀ visit ∈ scratchQuestions, Sandbox.CarriedAt stillPlatform visit) ∧
    ToolBox.new stillPlatform scratchPolicy = .ok tools ∧
    ¬ Text.InOrder ((taskCalls stillPlatform tools scratchInput).map fun call => returnedText call.2)
      report.output.answer := by
  obtain ⟨report, output, store, hok, hfeed⟩ := exists_scratchRun
  have hvalid : scratchPolicy.validate stillPlatform = .ok () := rfl
  have hclamp : clamp scratchInput.maxSteps 1 scratchPolicy.limits.maxSteps = some 2 := rfl
  have hbuild : LlmProvider.build stillPlatform scratchPolicy.llm = .ok (MockProvider.toProvider stillPlatform) := rfl
  have htools : ToolBox.new stillPlatform scratchPolicy = .ok ⟨scratchPolicy, .unreachable, .empty⟩ := rfl
  have htext : ((taskCalls stillPlatform ⟨scratchPolicy, .unreachable, .empty⟩ scratchInput).any fun call =>
      (returnedText call.2).toList.contains '\n') = true := by decide +kernel
  exact ⟨report, output, store, _, hvalid, rfl, hbuild, hclamp, hok, carried_scratchQuestions, htools,
    Text.not_inOrder htext hfeed⟩

end TdsWasm
