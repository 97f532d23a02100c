import TdsWasm.AgentAccounting

/-! When the agent calls a run completed. It looks at the blocks of the model's answer and, of the stop reasons,
at the refusal only, so an answer that was cut off counts as a final one. -/

set_option autoImplicit false

namespace TdsWasm

/-- The answers of the model in a trace, in order. -/
def modelAnswers (trace : List AgentEvent) : List (Except CapError LlmResponse) :=
  trace.filterMap fun
    | ⟨AgentOp.llmComplete _, answer⟩ => some answer
    | _ => none

namespace LlmResponse

/-- The response asks for no tool. -/
def Toolless (response : LlmResponse) : Prop := response.content.filterMap Content.asToolUse = []

/-- The model ended its turn on its own, and asks for no tool. -/
def Finished (response : LlmResponse) : Prop :=
  response.Toolless ∧ (response.stopReason = "end_turn" ∨ response.stopReason = "stop_sequence")

/-- The response asks for no tool, and it is neither a finished answer nor a refusal. -/
def CutOff (response : LlmResponse) : Prop :=
  response.Toolless ∧ response.stopReason ∉ ["end_turn", "stop_sequence", "refusal"]

end LlmResponse

/-- A run that is called completed ends with a finished answer of the model. -/
def CompletedWhenFinished (trace : List AgentEvent) (output : AgentOutput) : Prop :=
  output.stop = .completed →
    ∃ response, (modelAnswers trace).getLast? = some (.ok response) ∧ response.Finished

/-- The answers of the model in a run are those of its turns. -/
theorem modelAnswers_eq {trace : List AgentEvent} {list : Except CapError ToolsListResponse} {turns : List Turn}
    (hcalls : calls trace = ⟨AgentOp.toolsList, list⟩ :: turns.flatMap Turn.events) :
    modelAnswers trace = turns.map Turn.answer := by
  rw [modelAnswers, filterMap_model (fun _ _ _ => rfl) (fun _ => rfl) (fun _ => rfl) hcalls]
  exact List.filterMap_eq_map_iff_forall_eq_some.mpr fun turn _ => rfl

namespace Turn

theorem stop_of_cutOff {turn : Turn} {response : LlmResponse} (hanswer : turn.answer = .ok response)
    (hcut : response.CutOff) : turn.stop = some .completed := by
  have hrefusal : response.stopReason ≠ "refusal" := by
    intro heq
    apply hcut.2
    simp [heq]
  rw [stop_ok hanswer, if_neg hrefusal, if_pos (List.isEmpty_iff.mpr hcut.1)]

/-- A turn completes the run with a response that asks for no tool and is no refusal. -/
theorem response_of_completed {turn : Turn} (hstop : turn.stop = some .completed) :
    ∃ response, turn.answer = .ok response ∧ response.Toolless ∧ response.stopReason ≠ "refusal" := by
  cases hanswer : turn.answer with
  | error e =>
      rw [stop, hanswer] at hstop
      cases hstop
  | ok response =>
      rw [stop_ok hanswer] at hstop
      by_cases hrefusal : response.stopReason = "refusal"
      · rw [if_pos hrefusal] at hstop
        cases hstop
      rw [if_neg hrefusal] at hstop
      by_cases hempty : (response.content.filterMap Content.asToolUse).isEmpty = true
      · exact ⟨response, rfl, List.isEmpty_iff.mp hempty, hrefusal⟩
      · rw [if_neg hempty] at hstop
        cases hstop

end Turn

namespace Accounted

variable {input : AgentInput} {turns : List Turn} {output : AgentOutput}

/-- The turns of a run have a last one. -/
theorem exists_last (h : Accounted input turns output) : ∃ before last, turns = before ++ [last] :=
  ⟨turns.dropLast, turns.getLast (List.length_pos_iff.mp h.length_pos), (List.dropLast_append_getLast _).symm⟩

/-- A turn that stops the run is its last one, and gives the reason of the report. -/
theorem last_of_stop (h : Accounted input turns output) {turn : Turn} {reason : StopReason}
    (hmem : turn ∈ turns) (hstop : turn.stop = some reason) :
    (∃ before, turns = before ++ [turn]) ∧ output.stop = reason := by
  obtain ⟨before, after, hturns⟩ := List.append_of_mem hmem
  have hlast : after = [] := by
    by_contra hafter
    rw [h.goes_on before turn after hturns hafter] at hstop
    cases hstop
  rw [hlast] at hturns
  refine ⟨⟨before, hturns⟩, ?_⟩
  rcases h.ends before turn hturns with hsame | ⟨hnone, _⟩
  · exact Option.some.inj (hsame.symm.trans hstop)
  · rw [hnone] at hstop
    cases hstop

/-- A run is called completed for its finished answer alone exactly when no answer of the model was cut off. -/
theorem completed_finished_iff (h : Accounted input turns output) :
    (output.stop = .completed →
      ∃ response, (turns.map Turn.answer).getLast? = some (.ok response) ∧ response.Finished) ↔
    ∀ response, .ok response ∈ turns.map Turn.answer → ¬ response.CutOff := by
  constructor
  · intro hfinished response hmem hcut
    obtain ⟨turn, hturn, hanswer⟩ := List.mem_map.mp hmem
    obtain ⟨⟨before, hturns⟩, houtput⟩ := h.last_of_stop hturn (Turn.stop_of_cutOff hanswer hcut)
    obtain ⟨last, hlast, _, hreason⟩ := hfinished houtput
    rw [hturns, List.map_append, List.map_singleton, List.getLast?_concat, hanswer] at hlast
    cases hlast
    apply hcut.2
    rcases hreason with heq | heq <;> simp [heq]
  · intro hwhole hcompleted
    obtain ⟨before, last, hturns⟩ := h.exists_last
    have hstop : last.stop = some .completed := by
      rcases h.ends before last hturns with hstop | ⟨_, _, hlimit⟩
      · rw [hstop, hcompleted]
      · rw [hcompleted] at hlimit
        cases hlimit
    obtain ⟨response, hanswer, htoolless, hrefusal⟩ := Turn.response_of_completed hstop
    have hlast : (turns.map Turn.answer).getLast? = some (.ok response) := by
      rw [hturns, List.map_append, List.map_singleton, List.getLast?_concat, hanswer]
    refine ⟨response, hlast, htoolless, ?_⟩
    by_contra hreason
    apply hwhole response (List.mem_of_getLast? hlast)
    refine ⟨htoolless, fun hlisted => ?_⟩
    simp only [List.mem_cons, List.not_mem_nil, or_false] at hlisted
    rcases hlisted with heq | heq | heq
    · exact hreason (Or.inl heq)
    · exact hreason (Or.inr heq)
    · exact hrefusal heq

end Accounted

/-- Whatever the host answers, the agent calls a run completed for a finished answer alone exactly when no answer
of the model that it gets is cut off. -/
theorem completed_when_finished_iff {σ : Type} (handler : agentSignature.Handler σ) (state : σ)
    (input : AgentInput) :
    let outcome := (runAgent input).run handler state
    CompletedWhenFinished outcome.trace outcome.result ↔
      ∀ response, .ok response ∈ modelAnswers outcome.trace → ¬ response.CutOff := by
  intro outcome
  obtain ⟨list, turns, stop, hcalls, hreference, haccounts⟩ :=
    yields_runAgent (Program.yields_run handler (runAgent input) state)
  unfold CompletedWhenFinished
  rw [modelAnswers_eq hcalls]
  exact (accounted_of_referenceRun hreference haccounts).completed_finished_iff

/-- A host without tools, whose model runs into its token limit. -/
def cutOffHost : agentSignature.Handler Unit
  | (), .emit _ _ => ((), ())
  | (), .toolsList => (.ok ⟨[]⟩, ())
  | (), .toolInvoke _ => (.error (.denied "no tools"), ())
  | (), .llmComplete _ => (.ok ⟨"max_tokens", [.text "The answer is"], .zero⟩, ())

theorem completed_cut_off :
    let outcome := (runAgent ⟨"Work.", none, 8⟩).run cutOffHost ()
    outcome.result.stop = .completed ∧ ¬ CompletedWhenFinished outcome.trace outcome.result := by
  intro outcome
  have hstop : outcome.result.stop = .completed := rfl
  have hlast : (modelAnswers outcome.trace).getLast? =
      some (.ok ⟨"max_tokens", [.text "The answer is"], .zero⟩) := rfl
  refine ⟨hstop, fun hfinished => ?_⟩
  obtain ⟨response, hresponse, _, hreason⟩ := hfinished hstop
  rw [hlast] at hresponse
  cases hresponse
  exact absurd hreason (by decide)

end TdsWasm
