import TdsWasm.SecuritySpend
import TdsWasm.AbiRoundTrip

/-! Which tools the model is shown. The body sent upstream carries the tool list of the guest's request
as it is, so the model sees the policy's tools exactly when the guest asks with no others. -/

set_option autoImplicit false

namespace TdsWasm

/-- The requests to the model endpoint among the effects of a completion. -/
def sentRequests (effects : List ModelEffect) : List ModelRequest :=
  effects.filterMap fun
    | .send request _ => some request
    | .sleep _ => none

theorem sentRequests_append (first second : List ModelEffect) :
    sentRequests (first ++ second) = sentRequests first ++ sentRequests second := List.filterMap_append

namespace AnthropicProvider

variable (platform : Platform) (provider : AnthropicProvider)

/-- A completion sends its one request, and sends no other. -/
theorem mem_sentRequests_completeLoop (history : History) (http : ModelRequest) (attempt : UInt32)
    (done : List ModelEffect) (request : ModelRequest) :
    request ∈ sentRequests (provider.completeLoop platform history http attempt done).2 ↔
      request ∈ sentRequests done ∨ request = http := by
  apply completeLoop_induction platform provider history http (motive := fun _ done result =>
    request ∈ sentRequests result.2 ↔ request ∈ sentRequests done ∨ request = http)
  · intro attempt done answer _
    rw [sentRequests_append, List.mem_append]
    simp [sentRequests]
  · intro attempt done wait _ hrest
    rw [hrest, sentRequests_append, sentRequests_append, List.mem_append, List.mem_append]
    simp [sentRequests]

theorem mem_sentRequests_complete (history : History) (request : LlmRequest) (http : ModelRequest) :
    http ∈ sentRequests (provider.complete platform history request).2 ↔
      http = provider.httpRequest request := by
  rw [complete, mem_sentRequests_completeLoop]
  simp [sentRequests]

/-- The members of a body before they become an ordered map. -/
def bodyMembers (request : LlmRequest) (thinking : List (String × Json)) : List (String × Json) :=
  [("model", Json.str provider.config.model),
    ("max_tokens", .num (Numeral.ofNat provider.config.maxTokens.toNat)),
    ("messages", .arr (request.messages.map Message.encode)),
    ("output_config", .obj [("effort", .str provider.config.effort.asStr)]),
    ("thinking", .obj thinking)] ++
  (request.system.map fun system => ("system", Json.str system)).toList ++
  (if request.tools.isEmpty then [] else [("tools", Json.arr (request.tools.map ToolSpec.encode))]) ++
  (if provider.config.serverSideFallback then [("fallbacks", Json.str "default")] else [])

/-- The members of the thinking object. -/
def thinkingMembers : List (String × Json) :=
  match provider.config.thinking with
  | .adaptive => [("type", Json.str "adaptive")] ++
      if provider.config.summarizeThinking then [("display", .str "summarized")] else []
  | .disabled => [("type", .str "disabled")]

theorem body_eq (request : LlmRequest) : provider.body request =
    (Json.obj (provider.bodyMembers request provider.thinkingMembers)).toValue := by
  unfold body bodyMembers thinkingMembers
  simp only
  cases provider.config.thinking <;> cases request.system <;> rfl

theorem nodup_bodyMembers (request : LlmRequest) (thinking : List (String × Json)) :
    ((provider.bodyMembers request thinking).map Prod.fst).Nodup := by
  unfold bodyMembers
  cases request.system <;> cases request.tools.isEmpty <;>
    cases provider.config.serverSideFallback <;> simp

/-- A key of a body is one of its members, with the value that it has there. -/
theorem body_get (request : LlmRequest) (key : String) : (provider.body request).get key =
    (OrderedMap.find key (provider.bodyMembers request provider.thinkingMembers)).map Json.normalize := by
  rw [body_eq, JsonValue.get_toValue_obj (nodup_bodyMembers provider request _)]

/-- The tools of a body are the tools of the guest's request, and absent when there are none. -/
theorem body_get_tools (request : LlmRequest) :
    (provider.body request).get "tools" = if request.tools.isEmpty then none
      else some (.arr (request.tools.map fun spec => spec.encode.normalize)) := by
  have hfind : OrderedMap.find "tools" (provider.bodyMembers request provider.thinkingMembers) =
      if request.tools.isEmpty then none else some (.arr (request.tools.map ToolSpec.encode)) := by
    unfold bodyMembers
    cases request.system <;> cases request.tools.isEmpty <;>
      cases provider.config.serverSideFallback <;> simp [OrderedMap.find]
  rw [body_get, hfind]
  split_ifs
  · rfl
  · rw [Option.map_some, Json.normalize, Json.normalizeItems_eq_map, List.map_map]
    rfl

end AnthropicProvider

/-- Every tool in the body is the description of an enabled tool that the tool box gives for it. -/
def ToolsShown (tools : ToolBox) (http : ModelRequest) : Prop :=
  ∀ items, http.body.get "tools" = some (.arr items) → ∀ item ∈ items, ∃ spec ∈ tools.specs,
    spec.name ∈ tools.policy.tools.enabled ∧ item = spec.encode.normalize

theorem ToolSpec.normalize_encode (spec : ToolSpec) :
    spec.encode.normalize = .obj [("description", .str spec.description),
      ("input_schema", spec.inputSchema.toJson), ("name", .str spec.name)] := by
  have hschema : spec.inputSchema.toJson.normalize = spec.inputSchema.toJson :=
    Json.normalize_of_normal spec.inputSchema.property
  have hfirst : "description" < "name" := by decide
  have hsecond : ¬ "input_schema" < "description" ∧ "input_schema" ≠ "description" ∧
      "input_schema" < "name" := by decide
  simp only [encode, Json.normalize, Json.normalizeMembers, hschema, OrderedMap.ofEntries,
    List.foldl_cons, List.foldl_nil, OrderedMap.insertEntry, hfirst, hsecond, if_true, if_false]

/-- Two tools have the same wire form only when they are the same. -/
theorem ToolSpec.normalize_encode_injective {left right : ToolSpec}
    (h : left.encode.normalize = right.encode.normalize) : left = right := by
  rw [normalize_encode, normalize_encode] at h
  simp only [Json.obj.injEq, List.cons.injEq, Prod.mk.injEq, Json.str.injEq, true_and, and_true] at h
  obtain ⟨hdescription, hschema, hname⟩ := h
  cases left
  cases right
  simp only [mk.injEq]
  exact ⟨hname, hdescription, JsonValue.ext hschema⟩

theorem specFor_name {name : String} {spec : ToolSpec} (h : specFor name = some spec) :
    spec.name = name := by
  unfold specFor at h
  obtain ⟨described, _, rfl⟩ := Option.map_eq_some_iff.mp h
  rfl

/-- The model is shown the policy's tools exactly when the guest's request lists no others. -/
theorem toolsShown_httpRequest (provider : AnthropicProvider) (tools : ToolBox) (request : LlmRequest) :
    ToolsShown tools (provider.httpRequest request) ↔ ∀ spec ∈ request.tools, spec ∈ tools.specs := by
  have hbody : (provider.httpRequest request).body.get "tools" = if request.tools.isEmpty then none
      else some (.arr (request.tools.map fun spec => spec.encode.normalize)) :=
    provider.body_get_tools request
  unfold ToolsShown
  rw [hbody]
  constructor
  · intro hshown spec hmem
    have hne : ¬ request.tools.isEmpty = true := by
      rw [List.isEmpty_iff]
      exact List.ne_nil_of_mem hmem
    rw [if_neg hne] at hshown
    obtain ⟨listed, hlisted, _, hsame⟩ := hshown _ rfl spec.encode.normalize (List.mem_map_of_mem hmem)
    rw [ToolSpec.normalize_encode_injective hsame]
    exact hlisted
  · intro hlisted items hitems item hmem
    split_ifs at hitems
    cases hitems
    obtain ⟨spec, hspec, rfl⟩ := List.mem_map.mp hmem
    refine ⟨spec, hlisted spec hspec, ?_, rfl⟩
    obtain ⟨name, hname, hfor⟩ := List.mem_filterMap.mp (hlisted spec hspec)
    rw [specFor_name hfor]
    exact hname

/-- A move asks the provider for a completion of this request. -/
def Asked (platform : Platform) (m : HostMoment) (request : LlmRequest) : Prop :=
  m.before.data.llmCalls < m.before.data.policy.limits.maxSteps ∧
    ∃ body, m.before.receive m.input = some (.request Cap.llmComplete body) ∧
      platform.codec.fromSlice "LlmRequest" LlmRequest.decode body = .ok request

variable (platform : Platform)

/-- A move sends the requests for the completion it asks for, and sends none without one. -/
theorem shown_step (provider : AnthropicProvider) {run : HostRun}
    (hllm : run.data.llm = provider.toProvider platform) (move : GuestMove) :
    let m := (HostRun.machine platform).moment run move
    m.after.data.llm = provider.toProvider platform ∧
    ∃ events, m.after.history = run.history ++ events ∧
      ∀ http, http ∈ sentRequests (History.modelEffects events) ↔
        ∃ request, Asked platform m request ∧ http = provider.httpRequest request := by
  intro m
  have hmoved := HostRun.step_moved platform run move
  have hafter : m.after = ((HostRun.machine platform).step run move).1 := rfl
  have hasked : ∀ name body, run.receive move = some (.request name body) → ∀ request,
      Asked platform m request ↔ run.data.llmCalls < run.data.policy.limits.maxSteps ∧
        name = Cap.llmComplete ∧
        platform.codec.fromSlice "LlmRequest" LlmRequest.decode body = .ok request := by
    intro name body hreceive request
    constructor
    · rintro ⟨hturns, body', hbody, hread⟩
      obtain ⟨rfl, rfl⟩ : name = Cap.llmComplete ∧ body = body' := by
        simpa using hreceive.symm.trans hbody
      exact ⟨hturns, rfl, hread⟩
    · rintro ⟨hturns, rfl, hread⟩
      exact ⟨hturns, body, hreceive, hread⟩
  rw [hafter]
  generalize ((HostRun.machine platform).step run move).1 = next at hmoved ⊢
  cases hmoved with
  | quiet pending logs hreceive =>
      refine ⟨hllm, [], (List.append_nil _).symm, fun http => ⟨fun h => (by cases h), ?_⟩⟩
      rintro ⟨request, ⟨_, body, hbody, _⟩, _⟩
      exact absurd hbody (hreceive _ _)
  | request name body hreceive state events pending hhandled =>
      cases hhandled with
      | quiet name hinvoke hcomplete =>
          refine ⟨hllm, [], rfl, fun http => ⟨fun h => (by cases h), ?_⟩⟩
          rintro ⟨request, hasks, _⟩
          obtain ⟨hturns, hname, hread⟩ := (hasked name body hreceive request).mp hasks
          exact absurd hread (hcomplete hname hturns request)
      | invoked req hread =>
          have hsilent := (invoke_silent platform run.data.tools run.history req.name req.input).1
          refine ⟨hllm, _, rfl, fun http => ?_⟩
          rw [History.modelEffects_append, hsilent]
          refine ⟨fun h => (by cases h), ?_⟩
          rintro ⟨request, hasks, _⟩
          obtain ⟨_, hname, _⟩ := (hasked _ body hreceive request).mp hasks
          exact absurd hname (by decide)
      | completed req hturns hread =>
          refine ⟨hllm, _, rfl, fun http => ?_⟩
          have hsent := provider.mem_sentRequests_complete platform run.history req http
          rw [(completion_counted _ _ _).1, hllm]
          refine hsent.trans ⟨fun h => ⟨req, (hasked _ body hreceive req).mpr ⟨hturns, rfl, hread⟩, h⟩, ?_⟩
          rintro ⟨request, hasks, rfl⟩
          obtain ⟨_, _, hsame⟩ := (hasked _ body hreceive request).mp hasks
          rw [hread] at hsame
          cases hsame
          rfl

/-- The requests a run has sent are those of the completions its guest has asked for. -/
theorem mem_sentRequests_run (provider : AnthropicProvider) (start : HostRun)
    (hllm : start.data.llm = provider.toProvider platform) (hfresh : start.history = [])
    (moves : List GuestMove) (sent : ModelRequest) :
    sent ∈ sentRequests ((HostRun.machine platform).run start moves).history.modelEffects ↔
      ∃ m ∈ (HostRun.machine platform).moments start moves, ∃ request, Asked platform m request ∧
        sent = provider.httpRequest request := by
  refine ((HostRun.machine platform).history_induction
    (motive := fun past run => run.data.llm = provider.toProvider platform ∧
      (sent ∈ sentRequests run.history.modelEffects ↔
        ∃ m ∈ past, ∃ request, Asked platform m request ∧ sent = provider.httpRequest request))
    ⟨hllm, ?_⟩ (fun past run move ⟨hkept, hsent⟩ => ?_) moves).2
  · rw [hfresh]
    simp [History.modelEffects, sentRequests]
  · obtain ⟨hnext, events, hafter, hevents⟩ := shown_step platform provider hkept move
    rw [Machine.moment_after] at hnext hafter
    refine ⟨hnext, ?_⟩
    rw [hafter, History.modelEffects_append, sentRequests_append, List.mem_append, hsent, hevents]
    simp only [List.mem_append, List.mem_singleton, or_and_right, exists_or, exists_eq_left]

/-- The model is shown tools of the policy only, and shown them as the tool box describes them, exactly
in the runs whose guest asks for completions with listed tools. -/
theorem tools_shown_iff (policy : Policy) (provider : AnthropicProvider) (http : HttpClient Url 0)
    (moves : List GuestMove) :
    let tools : ToolBox := ⟨policy, http, .empty⟩
    let start := HostRun.start policy (provider.toProvider platform) tools
    (∀ request ∈ sentRequests ((HostRun.machine platform).run start moves).history.modelEffects,
      ToolsShown tools request) ↔
    ∀ m ∈ (HostRun.machine platform).moments start moves, ∀ request, Asked platform m request →
      ∀ spec ∈ request.tools, spec ∈ tools.specs := by
  intro tools start
  have hsent := mem_sentRequests_run platform provider start rfl rfl moves
  constructor
  · intro hshown m hm request hasked
    have hmem := (hsent _).mpr ⟨m, hm, request, hasked, rfl⟩
    exact (toolsShown_httpRequest provider tools request).mp (hshown _ hmem)
  · intro hlisted sent hmem
    obtain ⟨m, hm, request, hasked, rfl⟩ := (hsent sent).mp hmem
    exact (toolsShown_httpRequest provider tools request).mpr (hlisted m hm request hasked)

/-- A policy that enables no tool. -/
def toollessPolicy : Policy := { Policy.default with tools := { ToolsConfig.default with enabled := [] } }

def toollessPlatform : Platform :=
  .scripted ⟨"https", some "example.com", "https://example.com/"⟩ .unreachable .unreachable

def toollessProvider : AnthropicProvider := ⟨toollessPolicy.llm, "key", .unreachable⟩

/-- A request that offers the model a tool of the guest's own. -/
def inventedRequest : LlmRequest :=
  ⟨none, [.user [.text "hello"]], [⟨"http_get", "Fetch any URL.", objectSchema [] []⟩]⟩

theorem tools_shown_invented :
    toollessPolicy.validate toollessPlatform = .ok () ∧
      ∃ request ∈ sentRequests ((HostRun.machine toollessPlatform).run
          (.start toollessPolicy (toollessProvider.toProvider toollessPlatform)
            ⟨toollessPolicy, .unreachable, .empty⟩)
          [.request Cap.llmComplete (JsonCodec.compact.toVec inventedRequest.encode)]).history.modelEffects,
        ¬ ToolsShown ⟨toollessPolicy, .unreachable, .empty⟩ request := by
  refine ⟨rfl, toollessProvider.httpRequest inventedRequest, ?_, ?_⟩
  · have hread : toollessPlatform.codec.fromSlice "LlmRequest" LlmRequest.decode
        (JsonCodec.compact.toVec inventedRequest.encode) = .ok inventedRequest :=
      JsonCodec.fromSlice_toVec _ (toollessPlatform.numbers _) (@LlmRequest.decode_encode inventedRequest 123
        (by
          intro message hmessage content hcontent
          rw [List.mem_singleton.mp hmessage] at hcontent
          rw [List.mem_singleton.mp hcontent]
          trivial)
        (by decide +kernel) (by decide +kernel))
    exact (mem_sentRequests_run toollessPlatform toollessProvider _ rfl rfl _ _).mpr
      ⟨_, List.mem_singleton.mpr rfl, inventedRequest, ⟨by decide, _,
        HostRun.receive_request (by decide) (by decide +kernel) (by decide +kernel), hread⟩, rfl⟩
  · rw [toolsShown_httpRequest]
    intro hlisted
    have hspec := hlisted _ (List.mem_singleton.mpr rfl)
    cases hspec

end TdsWasm
