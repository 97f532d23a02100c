import TdsWasm.AgentCompletion
import TdsWasm.SecurityListing

/-! Whether the tools that the model is shown have distinct names. The checks of a policy look at each enabled
name by itself, so a name that is enabled twice is listed twice, and sent twice with every turn. -/

set_option autoImplicit false

namespace TdsWasm

/-- The names of these tools are pairwise distinct. -/
def DistinctNames (tools : List ToolSpec) : Prop := (tools.map ToolSpec.name).Nodup

/-- The requests to the model in a trace of the agent. -/
def modelRequests (trace : List AgentEvent) : List LlmRequest :=
  trace.filterMap fun event => match event.op with
    | .llmComplete request => some request
    | _ => none

/-- The requests to the model in a run are those of its turns. -/
theorem modelRequests_eq {trace : List AgentEvent} {list : Except CapError ToolsListResponse} {turns : List Turn}
    (hcalls : calls trace = ⟨AgentOp.toolsList, list⟩ :: turns.flatMap Turn.events) :
    modelRequests trace = turns.map Turn.request := by
  rw [modelRequests, filterMap_model (fun _ _ _ => rfl) (fun _ => rfl) (fun _ => rfl) hcalls]
  exact List.filterMap_eq_map_iff_forall_eq_some.mpr fun turn _ => rfl

/-- Every turn offers the same tools. -/
theorem tools_of_referenceRun {tools : List ToolSpec} {messages : List Message} {limit : Nat}
    {turns : List Turn} {stop : StopReason} (h : ReferenceRun tools messages limit turns stop) :
    ∀ turn ∈ turns, turn.request.tools = tools := by
  induction turns generalizing messages limit with
  | nil => exact fun turn hturn => absurd hturn List.not_mem_nil
  | cons turn rest ih =>
      cases limit with
      | zero => cases h
      | succ limit =>
          obtain ⟨hrequest, _, hrest⟩ := h
          refine List.forall_mem_cons.mpr ⟨by rw [hrequest], ?_⟩
          cases hstop : turn.stop with
          | some reason =>
              rw [hstop] at hrest
              rw [hrest.1]
              exact fun turn hturn => absurd hturn List.not_mem_nil
          | none =>
              rw [hstop] at hrest
              exact ih hrest

/-- Whatever the host answers, every request to the model offers the tools that the agent was given first. -/
theorem offered_of_run {σ : Type} (handler : agentSignature.Handler σ) (state : σ) (input : AgentInput) :
    let trace := ((runAgent input).run handler state).trace
    ∃ list, (⟨AgentOp.toolsList, list⟩ : AgentEvent) ∈ trace ∧
      ∀ request ∈ modelRequests trace, request.tools = offeredTools list := by
  intro trace
  obtain ⟨list, turns, stop, hcalls, hreference, _⟩ :=
    yields_runAgent (Program.yields_run handler (runAgent input) state)
  have hlist : (⟨AgentOp.toolsList, list⟩ : AgentEvent) ∈ trace := by
    have hmem : (⟨AgentOp.toolsList, list⟩ : AgentEvent) ∈ calls trace := hcalls ▸ List.mem_cons_self
    exact List.mem_of_mem_filter hmem
  refine ⟨list, hlist, fun request hrequest => ?_⟩
  rw [modelRequests_eq hcalls] at hrequest
  obtain ⟨turn, hturn, rfl⟩ := List.mem_map.mp hrequest
  exact tools_of_referenceRun hreference turn hturn

/-- When the host lists tools with these names or fails to list any, every request to the model offers tools with
distinct names. -/
def DistinctlyOffered (specs : List ToolSpec) : Prop :=
  ∀ {σ : Type} (handler : agentSignature.Handler σ) (state : σ) (input : AgentInput),
    let trace := ((runAgent input).run handler state).trace
    (∀ list, (⟨AgentOp.toolsList, list⟩ : AgentEvent) ∈ trace → list = .ok ⟨specs⟩ ∨ ∃ e, list = .error e) →
      ∀ request ∈ modelRequests trace, DistinctNames request.tools

theorem distinctlyOffered_of_distinct {specs : List ToolSpec} (hspecs : DistinctNames specs) :
    DistinctlyOffered specs := by
  intro σ handler state input trace hanswers request hrequest
  obtain ⟨list, hlist, htools⟩ := offered_of_run handler state input
  rw [htools request hrequest]
  rcases hanswers list hlist with rfl | ⟨e, rfl⟩
  · exact hspecs
  · exact List.nodup_nil

/-- For a valid policy, this is exactly when the tool box of a run lists tools with distinct names and the agent
sends such lists only. -/
theorem tool_names_distinct_iff (platform : Platform) (policy : Policy)
    (hvalid : policy.validate platform = .ok ()) {fresh : ToolBox}
    (hnew : ToolBox.new platform policy = .ok fresh) (llm : LlmProvider) (moves : List GuestMove) :
    let tools := ((HostRun.machine platform).run (.start policy llm fresh) moves).data.tools
    (DistinctNames tools.specs ∧ DistinctlyOffered tools.specs) ↔ policy.tools.enabled.Nodup := by
  intro tools
  have hpolicy : tools.policy = policy := toolsPolicy_run platform hnew llm moves
  have hknown := (Policy.validate_eq_ok_iff.mp hvalid).enabled
  rw [← hpolicy] at hknown
  have hnames : DistinctNames tools.specs ↔ policy.tools.enabled.Nodup := by
    rw [DistinctNames, ToolBox.specs_names hknown, hpolicy]
  exact ⟨fun h => hnames.mp h.1,
    fun h => ⟨hnames.mpr h, distinctlyOffered_of_distinct (hnames.mpr h)⟩⟩

theorem tool_names_distinct_default :
    let tools := ((HostRun.machine stillPlatform).run (.start .default (.constant (.error (.upstream "down")))
      ⟨.default, .unreachable, .empty⟩) [askedMove]).data.tools
    DistinctNames tools.specs ∧ DistinctlyOffered tools.specs :=
  (tool_names_distinct_iff stillPlatform .default rfl rfl (.constant (.error (.upstream "down"))) [askedMove]).mpr
    (by decide)

/-- A policy that enables a tool twice. -/
def repeatingPolicy : Policy :=
  { Policy.default with tools := { ToolsConfig.default with enabled := ["now", "now"] } }

theorem tool_names_repeated : repeatingPolicy.validate stillPlatform = .ok () ∧
    ¬ DistinctNames (⟨repeatingPolicy, .unreachable, .empty⟩ : ToolBox).specs := by
  refine ⟨rfl, ?_⟩
  unfold DistinctNames
  decide

end TdsWasm
