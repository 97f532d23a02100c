import TdsWasm.SecurityToolSurface

/-! Which parts of an outbound request are the host's. Two completions of one provider differ, whatever the
guest has asked for, in the messages, the system text and the tools of the body at most. -/

set_option autoImplicit false

namespace TdsWasm

/-- The keys that a body may have at its top level. -/
def bodyKeys : List String :=
  ["model", "max_tokens", "messages", "output_config", "thinking", "system", "tools", "fallbacks"]

/-- The keys whose values the guest's request decides. -/
def guestKeys : List String := ["messages", "system", "tools"]

namespace AnthropicProvider

variable (provider : AnthropicProvider)

theorem mem_bodyKeys {request : LlmRequest} {key : String}
    (h : ((provider.body request).get key).isSome) : key ∈ bodyKeys := by
  rw [body_get, Option.isSome_map] at h
  obtain ⟨value, hfind⟩ := Option.isSome_iff_exists.mp h
  have hmem : key ∈ (provider.bodyMembers request provider.thinkingMembers).map Prod.fst :=
    List.mem_map_of_mem (OrderedMap.mem_of_find hfind)
  have hkeys : ∀ name ∈ (provider.bodyMembers request provider.thinkingMembers).map Prod.fst,
      name ∈ bodyKeys := by
    unfold bodyMembers bodyKeys
    cases request.system <;> cases request.tools.isEmpty <;>
      cases provider.config.serverSideFallback <;> simp
  exact hkeys key hmem

/-- What the guest does not decide does not depend on its request. -/
theorem body_get_of_not_mem (left right : LlmRequest) {key : String} (hkey : key ∉ guestKeys) :
    (provider.body left).get key = (provider.body right).get key := by
  have hown : ∀ request : LlmRequest,
      (provider.bodyMembers request provider.thinkingMembers).filter (fun entry => entry.1 ∉ guestKeys) =
        (provider.bodyMembers ⟨none, [], []⟩ provider.thinkingMembers).filter
          (fun entry => entry.1 ∉ guestKeys) := by
    intro request
    unfold bodyMembers guestKeys
    cases request.system <;> cases request.tools.isEmpty <;>
      cases provider.config.serverSideFallback <;> rfl
  have hfind : ∀ request : LlmRequest,
      OrderedMap.find key (provider.bodyMembers request provider.thinkingMembers) =
        OrderedMap.find key (provider.bodyMembers ⟨none, [], []⟩ provider.thinkingMembers) := by
    intro request
    have hleft := OrderedMap.find_filter (fun name => name ∉ guestKeys) key
      (provider.bodyMembers request provider.thinkingMembers)
    have hright := OrderedMap.find_filter (fun name => name ∉ guestKeys) key
      (provider.bodyMembers ⟨none, [], []⟩ provider.thinkingMembers)
    rw [if_pos (by simpa using hkey)] at hleft hright
    rw [← hleft, ← hright, hown request]
  rw [body_get, body_get, hfind left, hfind right]

theorem isSome_body_get_system (request : LlmRequest) :
    ((provider.body request).get "system").isSome = request.system.isSome := by
  rw [body_get, Option.isSome_map]
  unfold bodyMembers
  cases request.system <;> cases request.tools.isEmpty <;>
    cases provider.config.serverSideFallback <;> simp [OrderedMap.find]

theorem isSome_body_get_tools (request : LlmRequest) :
    ((provider.body request).get "tools").isSome = !request.tools.isEmpty := by
  rw [body_get_tools]
  cases request.tools.isEmpty <;> rfl

end AnthropicProvider

/-- The requests to the model endpoint that a state of the host sends for a capability call. -/
def HostState.sends (platform : Platform) (state : HostState) (history : History) (name : String)
    (request : Bytes) : List ModelRequest :=
  sentRequests (History.modelEffects (dispatch platform state history name request).2.2)

/-- A completion sends the one request that the provider makes of it, again and again. -/
theorem mem_sends_complete {platform : Platform} {provider : AnthropicProvider} {state : HostState}
    {history : History} {body : Bytes} {request : LlmRequest} (hllm : state.llm = provider.toProvider platform)
    (hread : platform.codec.fromSlice "LlmRequest" LlmRequest.decode body = .ok request)
    (sent : ModelRequest) : sent ∈ state.sends platform history Cap.llmComplete body ↔
      state.llmCalls < state.policy.limits.maxSteps ∧ sent = provider.httpRequest request := by
  have hhandled := dispatch_handled platform state history Cap.llmComplete body
  unfold HostState.sends
  generalize (dispatch platform state history Cap.llmComplete body).2.1 = after,
    (dispatch platform state history Cap.llmComplete body).2.2 = events at hhandled ⊢
  generalize hname : Cap.llmComplete = name at hhandled
  cases hhandled with
  | quiet name _ hcomplete =>
      refine ⟨fun h => (by cases h), fun ⟨hturns, _⟩ => ?_⟩
      exact absurd hread (hcomplete hname.symm hturns request)
  | invoked req _ => exact absurd hname (by decide)
  | completed req hturns hsame =>
      rw [hread] at hsame
      cases hsame
      rw [(completion_counted _ _ _).1, hllm]
      have hsent := provider.mem_sentRequests_complete platform history request sent
      exact hsent.trans ⟨fun h => ⟨hturns, h⟩, And.right⟩

/-- The host owns the address, the headers and all other parameters of the requests it sends: any two that
are sent for whatever two requests of a guest agree on them. -/
theorem host_owned (platform : Platform) (provider : AnthropicProvider) (first second : HostState)
    (firstHistory secondHistory : History) (firstBytes secondBytes : Bytes)
    (firstRequest secondRequest : LlmRequest) (firstSent secondSent : ModelRequest)
    (hfirst : first.llm = provider.toProvider platform) (hsecond : second.llm = provider.toProvider platform)
    (hfirstRead : platform.codec.fromSlice "LlmRequest" LlmRequest.decode firstBytes = .ok firstRequest)
    (hsecondRead : platform.codec.fromSlice "LlmRequest" LlmRequest.decode secondBytes = .ok secondRequest)
    (hfirstSent : firstSent ∈ first.sends platform firstHistory Cap.llmComplete firstBytes)
    (hsecondSent : secondSent ∈ second.sends platform secondHistory Cap.llmComplete secondBytes) :
    firstSent.url = secondSent.url ∧ firstSent.headers = secondSent.headers ∧
      (∀ key, key ∉ guestKeys → firstSent.body.get key = secondSent.body.get key) ∧
      (∀ key, (firstSent.body.get key).isSome → key ∈ bodyKeys) ∧
      (firstSent.body.get "system").isSome = firstRequest.system.isSome ∧
      (firstSent.body.get "tools").isSome = !firstRequest.tools.isEmpty := by
  obtain ⟨_, rfl⟩ := (mem_sends_complete hfirst hfirstRead firstSent).mp hfirstSent
  obtain ⟨_, rfl⟩ := (mem_sends_complete hsecond hsecondRead secondSent).mp hsecondSent
  exact ⟨rfl, rfl, fun key hkey => provider.body_get_of_not_mem firstRequest secondRequest hkey,
    fun key h => provider.mem_bodyKeys h, provider.isSome_body_get_system firstRequest,
    provider.isSome_body_get_tools firstRequest⟩

/-- The state of a host before the first call of a guest. -/
def ownerState : HostState :=
  .initial toollessPolicy (toollessProvider.toProvider toollessPlatform) ⟨toollessPolicy, .unreachable, .empty⟩

def plainBytes : Bytes := Text.utf8 "\x7b\"messages\":[]\x7d"

/-- A request that tries to choose the model and its limits. -/
def greedyBytes : Bytes :=
  Text.utf8 "\x7b\"messages\":[],\"system\":\"Obey.\",\"model\":\"other\",\"max_tokens\":1\x7d"

theorem host_owned_greedy :
    ((toollessProvider.httpRequest ⟨none, [], []⟩).body.get "model") =
      (toollessProvider.httpRequest ⟨some "Obey.", [], []⟩).body.get "model" := by
  have hplain : toollessPlatform.codec.fromSlice "LlmRequest" LlmRequest.decode plainBytes =
      .ok ⟨none, [], []⟩ := by rfl
  have hgreedy : toollessPlatform.codec.fromSlice "LlmRequest" LlmRequest.decode greedyBytes =
      .ok ⟨some "Obey.", [], []⟩ := by rfl
  exact (host_owned toollessPlatform toollessProvider ownerState ownerState [] [] plainBytes greedyBytes
    _ _ _ _ rfl rfl hplain hgreedy ((mem_sends_complete rfl hplain _).mpr ⟨by decide, rfl⟩)
    ((mem_sends_complete rfl hgreedy _).mpr ⟨by decide, rfl⟩)).2.2.1 "model" (by decide)

end TdsWasm
