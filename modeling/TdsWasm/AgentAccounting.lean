import TdsWasm.AgentConversation
import TdsWasm.BridgeTruncate

/-! What the agent reports about its run: how it stopped, how many steps it took, what the steps have
cost, and which tools it called, each with what the model has been told of it. -/

set_option autoImplicit false

namespace TdsWasm

/-- The tokens of all turns whose model call succeeded, as an integer. -/
def tokens (field : Usage → UInt64) : List Turn → Nat
  | [] => 0
  | turn :: rest => (field turn.usage).toNat + tokens field rest

namespace ToolCall

/-- Whether the call has succeeded and what there is to say of it: the content of the answer, or the kind and the
message of the error. -/
def Comes (call : ToolCall) (ok : Bool) (text : String) : Prop :=
  match call.answer with
  | .ok response => ok = true ∧ text = response.content
  | .error e => ok = false ∧ text = e.kind ++ ": " ++ e.message

/-- The block by which the model is told what the call has come to. -/
def Returned (call : ToolCall) (block : Content) : Prop :=
  ∃ ok text, call.Comes ok text ∧ block = .known (.toolResult call.id text (!ok))

/-- The entry of a call of this step: it says whether the call has succeeded, and shortens the text that the model
is given. -/
structure Entered (step : Nat) (call : ToolCall) (record : ToolCallRecord) : Prop where
  step_eq : record.step.toNat = step
  name_eq : record.name = call.name
  input_eq : record.input = call.input
  outcome : ∃ text, call.Comes record.ok text ∧ Text.Shortened truncationMark text 512 record.result

end ToolCall

/-- All tool calls of turns in order, each with the number of its turn. -/
def numberedCalls : Nat → List Turn → List (Nat × ToolCall)
  | _, [] => []
  | step, turn :: rest => turn.invocations.map (step, ·) ++ numberedCalls (step + 1) rest

/-- The turns are those of the reference run of this input, and the output accounts for them. -/
structure Accounted (input : AgentInput) (turns : List Turn) (output : AgentOutput) : Prop where
  length_pos : 0 < turns.length
  length_le : turns.length ≤ stepLimit input
  /-- No turn before the last one ends the run. -/
  goes_on : ∀ before turn after, turns = before ++ turn :: after → after ≠ [] → turn.stop = none
  /-- The last turn ends it, or it is the last step there is. -/
  ends : ∀ before last, turns = before ++ [last] → last.stop = some output.stop ∨
    last.stop = none ∧ turns.length = stepLimit input ∧ output.stop = .stepLimit
  /-- Every turn that goes on calls the tools it was asked for, and no other turn calls any. -/
  tools : ∀ turn ∈ turns, turn.invocations.map ToolCall.asked = turn.requested
  steps : output.steps.toNat = if output.stop = .error then turns.length - 1 else turns.length
  inputTokens : output.usage.inputTokens.toNat = tokens Usage.inputTokens turns % 2 ^ 64
  outputTokens : output.usage.outputTokens.toNat = tokens Usage.outputTokens turns % 2 ^ 64
  /-- The turn after one that goes on shows the model what its calls have come to. -/
  returned : ∀ before turn next after, turns = before ++ turn :: next :: after → ∃ response blocks,
    turn.answer = .ok response ∧ List.Forall₂ ToolCall.Returned turn.invocations blocks ∧
      next.request.messages = turn.request.messages ++ [⟨.assistant, response.content⟩, ⟨.user, blocks⟩]
  /-- The report has an entry for every call, in order. -/
  toolCalls : List.Forall₂ (fun numbered record => numbered.2.Entered numbered.1 record) (numberedCalls 1 turns)
    output.toolCalls

/-- The accumulated usage is the sum of what was there and what the turns have used. -/
theorem toNat_turnUsage (usage : Usage) (turns : List Turn) :
    (turnUsage usage turns).inputTokens.toNat =
        (usage.inputTokens.toNat + tokens Usage.inputTokens turns) % 2 ^ 64 ∧
      (turnUsage usage turns).outputTokens.toNat =
        (usage.outputTokens.toNat + tokens Usage.outputTokens turns) % 2 ^ 64 := by
  induction turns generalizing usage with
  | nil =>
      have hinput := usage.inputTokens.toNat_lt
      have houtput := usage.outputTokens.toNat_lt
      exact ⟨(Nat.mod_eq_of_lt hinput).symm, (Nat.mod_eq_of_lt houtput).symm⟩
  | cons turn rest ih =>
      obtain ⟨hinput, houtput⟩ := ih (usage.add turn.usage)
      rw [tokens, tokens, turnUsage, List.foldl_cons]
      constructor
      · refine hinput.trans ?_
        rw [Usage.add, UInt64.toNat_add, Nat.mod_add_mod, Nat.add_assoc]
      · refine houtput.trans ?_
        rw [Usage.add, UInt64.toNat_add, Nat.mod_add_mod, Nat.add_assoc]

/-- How a reference run ends: the last turn gives the reason, or the steps have run out. -/
theorem referenceRun_last_stop {tools : List ToolSpec} {messages : List Message} {limit : Nat}
    {before : List Turn} {last : Turn} {stop : StopReason}
    (h : ReferenceRun tools messages limit (before ++ [last]) stop) :
    last.stop = some stop ∨
      last.stop = none ∧ (before ++ [last]).length = limit ∧ stop = .stepLimit := by
  rcases referenceRun_split h with ⟨_, hle, hrun⟩ | hnil
  · cases hleft : limit - before.length with
    | zero =>
        rw [hleft] at hrun
        cases hrun
    | succ left =>
        rw [hleft] at hrun
        obtain ⟨_, _, hend⟩ := hrun
        cases hstop : last.stop with
        | some reason =>
            rw [hstop] at hend
            rw [hend.2]
            exact Or.inl rfl
        | none =>
            rw [hstop] at hend
            obtain ⟨hlast, hlimit⟩ := referenceRun_nil.mp hend
            refine Or.inr ⟨rfl, ?_, hlimit⟩
            rw [List.length_append, List.length_singleton]
            omega
  · cases hnil

theorem length_le_of_referenceRun {tools : List ToolSpec} {messages : List Message} {limit : Nat}
    {turns : List Turn} {stop : StopReason} (h : ReferenceRun tools messages limit turns stop) :
    turns.length ≤ limit := by
  induction turns generalizing messages limit with
  | nil => exact Nat.zero_le _
  | cons turn rest ih =>
      cases limit with
      | zero => cases h
      | succ limit =>
          obtain ⟨_, _, hrest⟩ := h
          cases hstop : turn.stop with
          | some reason =>
              rw [hstop] at hrest
              rw [hrest.1]
              exact Nat.succ_le_succ (Nat.zero_le _)
          | none =>
              rw [hstop] at hrest
              exact Nat.succ_le_succ (ih hrest)

/-- Every turn of a reference run, the last one included, makes the calls it was asked for. -/
theorem asked_of_referenceRun {tools : List ToolSpec} {messages : List Message} {limit : Nat}
    {turns : List Turn} {stop : StopReason} (h : ReferenceRun tools messages limit turns stop) :
    ∀ turn ∈ turns, turn.invocations.map ToolCall.asked = turn.requested := by
  induction turns generalizing messages limit with
  | nil => exact nofun
  | cons turn rest ih =>
      cases limit with
      | zero => cases h
      | succ limit =>
          obtain ⟨_, hasked, hrest⟩ := h
          refine List.forall_mem_cons.mpr ⟨hasked, ?_⟩
          cases hstop : turn.stop with
          | some reason =>
              rw [hstop] at hrest
              rw [hrest.1]
              exact nofun
          | none =>
              rw [hstop] at hrest
              exact ih hrest

/-! ### Tool calls -/

theorem ToolCall.comes_toolOutcome (call : ToolCall) :
    call.Comes (toolOutcome call.answer).2 (toolOutcome call.answer).1 := by
  unfold Comes
  cases call.answer with
  | ok response => exact ⟨rfl, rfl⟩
  | error e => exact ⟨rfl, rfl⟩

theorem ToolCall.returned_result (call : ToolCall) :
    call.Returned (.toolResult call.id (toolOutcome call.answer).1 call.failed) := by
  refine ⟨_, _, call.comes_toolOutcome, ?_⟩
  unfold failed
  cases call.answer <;> rfl

theorem shortened_truncate (s : String) (max : Nat) : Text.Shortened truncationMark s max (truncate s max) := by
  have hshort := Text.shortened_takeBytes truncationMark s max
  unfold truncate
  simpa only [truncationMark, String.append_assoc] using hshort

theorem ToolCall.entered_record {step : Nat} (hstep : step < 2 ^ 32) (call : ToolCall) :
    call.Entered step (call.record (UInt32.ofNat step)) where
  step_eq := UInt32.toNat_ofNat_of_lt' hstep
  name_eq := rfl
  input_eq := rfl
  outcome := ⟨_, call.comes_toolOutcome, shortened_truncate _ _⟩

/-- The records of turns whose numbers fit are entries of their calls. -/
theorem entered_turnRecords {step : Nat} {turns : List Turn} (hfits : step + turns.length ≤ 2 ^ 32) :
    List.Forall₂ (fun numbered record => numbered.2.Entered numbered.1 record) (numberedCalls step turns)
      (turnRecords step turns) := by
  induction turns generalizing step with
  | nil => exact .nil
  | cons turn rest ih =>
      rw [List.length_cons] at hfits
      rw [numberedCalls, turnRecords]
      apply List.rel_append
      · rw [List.forall₂_map_left_iff, List.forall₂_map_right_iff, List.forall₂_same]
        exact fun call _ => call.entered_record (by omega)
      · exact ih (by omega)

/-- The turn after one that goes on is asked with the blocks that answer its calls. -/
theorem returned_of_referenceRun {input : AgentInput} {tools : List ToolSpec} {limit : Nat} {turn next : Turn}
    {before after : List Turn} {stop : StopReason}
    (h : ReferenceRun tools (initialMessages input) limit (before ++ turn :: next :: after) stop) :
    ∃ response blocks, turn.answer = .ok response ∧ List.Forall₂ ToolCall.Returned turn.invocations blocks ∧
      next.request.messages = turn.request.messages ++ [⟨.assistant, response.content⟩, ⟨.user, blocks⟩] := by
  obtain ⟨_, ⟨response, hanswer, _, _, rfl⟩, hnext⟩ :=
    (conversation_of_referenceRun h).extends_by_pair before turn next after rfl
  refine ⟨response, _, hanswer, ?_, hnext⟩
  rw [List.forall₂_map_right_iff, List.forall₂_same]
  exact fun call _ => call.returned_result

theorem accounted_of_referenceRun {input : AgentInput} {tools : List ToolSpec} {turns : List Turn}
    {stop : StopReason} {output : AgentOutput}
    (h : ReferenceRun tools (initialMessages input) (stepLimit input) turns stop)
    (haccounts : Accounts 1 [] .zero turns stop output) : Accounted input turns output := by
  obtain ⟨rfl, hsteps, hcalls, husage⟩ := haccounts
  have hlimit := stepLimit_pos input
  have hpos : 0 < turns.length := by
    cases turns with
    | nil => exact absurd (referenceRun_nil.mp h).1 hlimit.ne'
    | cons turn rest => exact Nat.succ_pos _
  obtain ⟨hinput, houtput⟩ := toNat_turnUsage .zero turns
  rw [← husage] at hinput houtput
  have hle := length_le_of_referenceRun h
  refine ⟨hpos, hle, ?_, ?_, asked_of_referenceRun h, ?_, ?_, ?_, ?_, ?_⟩
  · rintro before turn after rfl hafter
    have hsplit : before ++ turn :: after = (before ++ [turn]) ++ after := by simp
    rw [hsplit] at h
    rcases referenceRun_split h with ⟨hall, _, _⟩ | hnil
    · exact (hall turn (by simp)).1
    · exact absurd hnil hafter
  · rintro before last rfl
    exact referenceRun_last_stop h
  · split_ifs at hsteps ⊢ with herror <;> omega
  · rw [hinput]
    exact congrArg (· % 2 ^ 64) (Nat.zero_add _)
  · rw [houtput]
    exact congrArg (· % 2 ^ 64) (Nat.zero_add _)
  · rintro before turn next after rfl
    exact returned_of_referenceRun h
  · have hsize := (max input.maxSteps 1).toNat_lt
    rw [hcalls]
    exact entered_turnRecords (by unfold stepLimit at hle; omega)

/-- Whatever the host answers, the agent lists the tools, takes the turns of a reference run, calls
nothing else, and reports exactly these turns. -/
theorem run_accounted {σ : Type} (handler : agentSignature.Handler σ) (state : σ)
    (input : AgentInput) :
    ∃ list turns, calls ((runAgent input).run handler state).trace =
        ⟨AgentOp.toolsList, list⟩ :: turns.flatMap Turn.events ∧
      Accounted input turns ((runAgent input).run handler state).result := by
  obtain ⟨list, turns, stop, hcalls, hreference, haccounts⟩ :=
    yields_runAgent (Program.yields_run handler (runAgent input) state)
  exact ⟨list, turns, hcalls, accounted_of_referenceRun hreference haccounts⟩

end TdsWasm
