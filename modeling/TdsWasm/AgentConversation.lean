import TdsWasm.AgentTurns

/-! The conversation the agent sends: an opening block and then one pair of messages for every turn that
has gone on, the model's own content and the results of the tools it asked for. -/

set_option autoImplicit false

namespace TdsWasm

/-- Whether a tool call failed. -/
def ToolCall.failed (call : ToolCall) : Bool :=
  match call.answer with
  | .ok _ => false
  | .error _ => true

/-- The context that is given to the model: one that is not blank. -/
def givenContext (input : AgentInput) : Option String :=
  input.context.filter fun c => !(Text.trim c).isEmpty

/-- The pair of messages for a turn: the content of the model's response, with a tool use in it, and
for every tool use in turn one result of the same id, marked as an error exactly when the call has
failed. -/
def IsPair (turn : Turn) (pair : List Message) : Prop :=
  ∃ response, turn.answer = .ok response ∧ response.content.filterMap Content.asToolUse ≠ [] ∧
    turn.invocations.map ToolCall.asked = response.content.filterMap Content.asToolUse ∧
    pair = [.assistant response.content, .user (turn.invocations.map fun call =>
      .toolResult call.id (toolOutcome call.answer).1 call.failed)]

/-- The requests of the turns carry a well-formed conversation. -/
structure Conversation (input : AgentInput) (turns : List Turn) : Prop where
  opening_length : (initialMessages input).length = if (givenContext input).isSome then 2 else 1
  opening_role : ∀ message ∈ initialMessages input, message.role = .user
  /-- Every request is the opening block and the pairs of the turns before it. -/
  request : ∀ before turn after, turns = before ++ turn :: after → ∃ pairs : List (List Message),
    List.Forall₂ IsPair before pairs ∧
      turn.request.messages = initialMessages input ++ pairs.flatten
  /-- A request is the one before it and one pair more. -/
  extends_by_pair : ∀ before first second after, turns = before ++ first :: second :: after →
    ∃ pair, IsPair first pair ∧ second.request.messages = first.request.messages ++ pair

theorem result_eq : ToolCall.result = fun call =>
    .toolResult call.id (toolOutcome call.answer).1 call.failed := by
  funext call
  unfold ToolCall.result ToolCall.failed
  cases call.answer <;> rfl

/-- A turn that goes on adds one pair. -/
theorem isPair_messages {turn : Turn} (hstop : turn.stop = none)
    (hasked : turn.invocations.map ToolCall.asked = turn.requested) : IsPair turn turn.messages := by
  cases hanswer : turn.answer with
  | error e =>
      rw [Turn.stop, hanswer] at hstop
      cases hstop
  | ok response =>
      have hrequested := Turn.requested_of_continue hanswer hstop
      rw [Turn.stop_ok hanswer] at hstop
      split_ifs at hstop with hrefusal hempty
      refine ⟨response, hanswer, by simpa using hempty, hasked.trans hrequested, ?_⟩
      rw [Turn.messages, hanswer]
      simp only [result_eq]

theorem forall₂_isPair {turns : List Turn} (h : ∀ turn ∈ turns, turn.stop = none ∧
    turn.invocations.map ToolCall.asked = turn.requested) :
    List.Forall₂ IsPair turns (turns.map Turn.messages) := by
  rw [List.forall₂_map_right_iff, List.forall₂_same]
  exact fun turn hmem => isPair_messages (h turn hmem).1 (h turn hmem).2

theorem request_of_referenceRun {tools : List ToolSpec} {messages : List Message} {limit : Nat}
    {turn : Turn} {rest : List Turn} {stop : StopReason}
    (h : ReferenceRun tools messages limit (turn :: rest) stop) : turn.request.messages = messages := by
  cases limit with
  | zero => cases h
  | succ limit => rw [h.1]

theorem conversation_of_referenceRun {input : AgentInput} {tools : List ToolSpec} {limit : Nat}
    {turns : List Turn} {stop : StopReason}
    (h : ReferenceRun tools (initialMessages input) limit turns stop) : Conversation input turns := by
  constructor
  · unfold initialMessages givenContext
    simp only
    cases input.context.filter fun c => !(Text.trim c).isEmpty <;> rfl
  · unfold initialMessages
    simp only
    cases input.context.filter fun c => !(Text.trim c).isEmpty <;> simp [Message.user]
  · rintro before turn after rfl
    rcases referenceRun_split h with ⟨hall, _, hrun⟩ | hnil
    · refine ⟨_, forall₂_isPair hall, ?_⟩
      rw [request_of_referenceRun hrun, List.flatMap_def]
    · cases hnil
  · rintro before first second after rfl
    rcases referenceRun_split h with ⟨_, _, hrun⟩ | hnil
    · have hfirst := request_of_referenceRun hrun
      have hone : ReferenceRun tools _ _ ([first] ++ second :: after) stop := hrun
      rcases referenceRun_split hone with ⟨hall, _, hnext⟩ | hnil
      · obtain ⟨hstop, hasked⟩ := hall first (List.mem_singleton.mpr rfl)
        refine ⟨first.messages, isPair_messages hstop hasked, ?_⟩
        rw [request_of_referenceRun hnext, hfirst, List.flatMap_singleton]
      · cases hnil
    · cases hnil

/-- Whatever the host answers, the conversation the agent sends is well formed in every request. -/
theorem conversation_wellFormed {σ : Type} (handler : agentSignature.Handler σ) (state : σ)
    (input : AgentInput) :
    ∃ list turns, calls ((runAgent input).run handler state).trace =
        ⟨AgentOp.toolsList, list⟩ :: turns.flatMap Turn.events ∧ Conversation input turns := by
  obtain ⟨list, turns, stop, hcalls, hreference, _⟩ :=
    yields_runAgent (Program.yields_run handler (runAgent input) state)
  exact ⟨list, turns, hcalls, conversation_of_referenceRun hreference⟩

end TdsWasm
