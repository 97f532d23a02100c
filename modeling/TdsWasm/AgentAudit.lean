import TdsWasm.AgentTurns
import TdsWasm.BridgeReport
import TdsWasm.LibLossy
import TdsWasm.LibPool

/-! What the agent says in its log of the tools that it calls. Every call is announced by a line of its own right
before it is made, and no other line looks like an announcement. -/

set_option autoImplicit false

namespace TdsWasm

/-! ### Lines -/

/-- The line of the log that the host keeps of what the agent logs. -/
def keptLine (level : LogLevel) (message : String) : LogLine :=
  ⟨level.asStr, Text.fromUtf8Lossy ((Text.utf8 message).take Caller.maxLogBytes.toNat)⟩

/-- The line of an event, if it is one. -/
def lineOf : AgentEvent → Option LogLine
  | ⟨.emit level message, _⟩ => some (keptLine level message)
  | _ => none

/-- What `run_agent` logs before it calls a tool. -/
def announcement (step : UInt32) (name : String) : String :=
  "step " ++ toString step.toNat ++ ": calling tool " ++ name

/-- The line that the log keeps of a call. -/
def announced (call : UInt32 × ToolInvokeRequest) : LogLine := keptLine .info (announcement call.1 call.2.name)

/-- The line begins as the lines do that announce a call. -/
def LogLine.announces (line : LogLine) : Bool := "step ".toList.isPrefixOf line.message.toList

/-- A line that begins with another letter is no announcement. -/
theorem announces_keptLine (level : LogLevel) {head : String} {b : UInt8} (hhead : (Text.utf8 head).head? = some b)
    (hascii : b < 0x80) (hother : Char.ofNat b.toNat ≠ 's') (tail : String) :
    (keptLine level (head ++ tail)).announces = false := by
  obtain ⟨bytes, hbytes⟩ := List.head?_eq_some_iff.mp hhead
  show "step ".toList.isPrefixOf (Text.fromUtf8Lossy ((Text.utf8 (head ++ tail)).take (8191 + 1))).toList = false
  rw [Text.utf8_append, hbytes, List.cons_append, List.take_succ_cons, Text.fromUtf8Lossy_cons hascii]
  show (decide ('s' = Char.ofNat b.toNat) && _) = false
  rw [decide_eq_false hother.symm, Bool.false_and]

theorem announces_announced (call : UInt32 × ToolInvokeRequest) : (announced call).announces = true := by
  have hbytes : Text.utf8 "step " = [115, 116, 101, 112, 32] := by decide +kernel
  have hsplit : announcement call.1 call.2.name =
      "step " ++ (toString call.1.toNat ++ (": calling tool " ++ call.2.name)) := by
    unfold announcement
    rw [String.append_assoc, String.append_assoc]
  unfold LogLine.announces announced keptLine
  rw [hsplit, Text.utf8_append, hbytes]
  show "step ".toList.isPrefixOf (Text.fromUtf8Lossy (115 :: 116 :: 101 :: 112 :: 32 :: _)).toList = true
  simp only [Text.fromUtf8Lossy_cons (b := 115) (by decide), Text.fromUtf8Lossy_cons (b := 116) (by decide),
    Text.fromUtf8Lossy_cons (b := 101) (by decide), Text.fromUtf8Lossy_cons (b := 112) (by decide),
    Text.fromUtf8Lossy_cons (b := 32) (by decide)]
  rfl

/-! ### Traces -/

/-- A trace in which every call of a tool follows right after its announcement, and nothing else is announced. -/
inductive Audited : List AgentEvent → List (UInt32 × ToolInvokeRequest) → Prop where
  | nil : Audited [] []
  | quiet {event : AgentEvent} {rest : List AgentEvent} {calls : List (UInt32 × ToolInvokeRequest)}
      (hline : ∀ line, lineOf event = some line → line.announces = false) (hrequest : toolRequestOf event = none)
      (hrest : Audited rest calls) : Audited (event :: rest) calls
  | call (step : UInt32) (request : ToolInvokeRequest) (answer : Except CapError ToolInvokeResponse)
      {rest : List AgentEvent} {calls : List (UInt32 × ToolInvokeRequest)} (hrest : Audited rest calls) :
      Audited (⟨AgentOp.emit .info (announcement step request.name), ()⟩ ::
        ⟨AgentOp.toolInvoke request, answer⟩ :: rest) ((step, request) :: calls)

namespace Audited

variable {first second : List AgentEvent} {calls later : List (UInt32 × ToolInvokeRequest)}

theorem append (hfirst : Audited first calls) (hsecond : Audited second later) :
    Audited (first ++ second) (calls ++ later) := by
  induction hfirst with
  | nil => exact hsecond
  | quiet hline hrequest _ ih => exact .quiet hline hrequest ih
  | call step request answer _ ih => exact .call step request answer ih

/-- The announcements in the log are those of the calls. -/
theorem lines_eq {trace : List AgentEvent} (h : Audited trace calls) :
    (trace.filterMap lineOf).filter LogLine.announces = calls.map announced := by
  induction h with
  | nil => rfl
  | @quiet event rest calls hline hrequest _ ih =>
      rw [List.filterMap_cons]
      cases hevent : lineOf event with
      | none => exact ih
      | some line => exact (List.filter_cons_of_neg (Bool.eq_false_iff.mp (hline line hevent))).trans ih
  | call step request answer _ ih =>
      show List.filter _ (announced (step, request) :: _) = _
      rw [List.filter_cons_of_pos (announces_announced _), List.map_cons]
      exact congrArg _ ih

theorem requests_eq {trace : List AgentEvent} (h : Audited trace calls) :
    trace.filterMap toolRequestOf = calls.map Prod.snd := by
  induction h with
  | nil => rfl
  | quiet hline hrequest _ ih => exact (List.filterMap_cons_none hrequest).trans ih
  | call step request answer _ ih => exact congrArg (List.cons request) ih

/-- Up to any question, the announced calls are those that have been made, or one more, at whose question it is. -/
theorem stopped {op : AgentOp} {answer : agentSignature.Answer op} {more : List AgentEvent}
    (h : Audited (first ++ ⟨op, answer⟩ :: more) calls) :
    ∃ made, made <+: calls ∧ (first.filterMap lineOf).filter LogLine.announces = made.map announced ∧
      (first.filterMap toolRequestOf = made.map Prod.snd ∧ (∀ request, op ≠ .toolInvoke request) ∨
        ∃ before step request, made = before ++ [(step, request)] ∧
          first.filterMap toolRequestOf = before.map Prod.snd ∧ op = .toolInvoke request) := by
  generalize htrace : first ++ ⟨op, answer⟩ :: more = trace at h
  induction h generalizing first with
  | nil => exact absurd htrace (List.append_ne_nil_of_right_ne_nil _ (List.cons_ne_nil _ _))
  | @quiet event rest calls hline hrequest hrest ih =>
      cases first with
      | nil =>
          obtain ⟨rfl, rfl⟩ := List.cons.inj htrace
          refine ⟨[], List.nil_prefix, rfl, Or.inl ⟨rfl, fun request heq => ?_⟩⟩
          subst heq
          cases hrequest
      | cons event' first =>
          obtain ⟨rfl, htail⟩ := List.cons.inj htrace
          obtain ⟨made, hprefix, hlines, hmade⟩ := ih htail
          refine ⟨made, hprefix, ?_, ?_⟩
          · rw [List.filterMap_cons]
            cases hevent : lineOf event' with
            | none => exact hlines
            | some line => exact (List.filter_cons_of_neg (Bool.eq_false_iff.mp (hline line hevent))).trans hlines
          · rw [List.filterMap_cons_none hrequest]
            exact hmade
  | call step request answer' hrest ih =>
      cases first with
      | nil =>
          obtain ⟨heq, -⟩ := List.cons.inj htrace
          cases heq
          exact ⟨[], List.nil_prefix, rfl, Or.inl ⟨rfl, nofun⟩⟩
      | cons event' first =>
          obtain ⟨rfl, htail⟩ := List.cons.inj htrace
          cases first with
          | nil =>
              obtain ⟨heq, -⟩ := List.cons.inj htail
              cases heq
              refine ⟨[(step, request)], List.prefix_append [_] _, ?_, Or.inr ⟨[], step, request, rfl, rfl, rfl⟩⟩
              show List.filter _ [announced (step, request)] = _
              rw [List.filter_cons_of_pos (announces_announced _), List.filter_nil, List.map_singleton]
          | cons event'' first =>
              obtain ⟨rfl, hlater⟩ := List.cons.inj htail
              obtain ⟨made, hprefix, hlines, hmade⟩ := ih hlater
              refine ⟨(step, request) :: made, (List.prefix_cons_inj _).mpr hprefix, ?_, ?_⟩
              · show List.filter _ (announced (step, request) :: _) = _
                rw [List.filter_cons_of_pos (announces_announced _), List.map_cons]
                exact congrArg _ hlines
              · rcases hmade with ⟨hrequests, hop⟩ | ⟨before, last, asked, rfl, hrequests, hop⟩
                · exact Or.inl ⟨congrArg (List.cons request) hrequests, hop⟩
                · exact Or.inr ⟨(step, request) :: before, last, asked, rfl, congrArg (List.cons request) hrequests, hop⟩

/-- A line that begins with another letter. -/
theorem line {level : LogLevel} {head : String} {b : UInt8} (tail : String)
    (hhead : (Text.utf8 head).head? = some b) (hascii : b < 0x80) (hother : Char.ofNat b.toNat ≠ 's')
    (hsecond : Audited second later) : Audited (⟨AgentOp.emit level (head ++ tail), ()⟩ :: second) later := by
  refine .quiet ?_ rfl hsecond
  rintro _ ⟨⟩
  exact announces_keptLine level hhead hascii hother tail

end Audited

/-- What a record in the report says was called. -/
def ToolCallRecord.called (record : ToolCallRecord) : UInt32 × ToolInvokeRequest := (record.step, record.request)

theorem audited_invokeTools {step : UInt32} {requested : List (String × String × JsonValue)} {trace : List AgentEvent}
    {made : List ToolCallRecord × List Content} (h : (invokeTools step requested).Yields trace made) :
    Audited trace (made.1.map ToolCallRecord.called) := by
  induction requested generalizing trace made with
  | nil =>
      obtain ⟨rfl, rfl⟩ := h
      exact .nil
  | cons asked rest ih =>
      obtain ⟨id, name, args⟩ := asked
      rw [invokeTools_cons] at h
      obtain ⟨_, _, rfl, answer, trace, rfl, h⟩ := h
      obtain ⟨first, ⟨records, results⟩, second, hfirst, ⟨rfl, rfl⟩, rfl⟩ := Program.yields_bind.mp h
      rw [List.append_nil]
      exact .call step ⟨name, args⟩ answer (ih hfirst)

theorem audited_takeSteps {tools : List ToolSpec} {maxSteps step : UInt32} {remaining : Nat} {messages : List Message}
    {record : List ToolCallRecord} {usage : Usage} {trace : List AgentEvent} {output : AgentOutput}
    (h : (takeSteps tools maxSteps remaining step messages record usage).Yields trace output) :
    ∃ made, output.toolCalls = record ++ made ∧ Audited trace (made.map ToolCallRecord.called) := by
  induction remaining generalizing step messages record usage trace with
  | zero =>
      obtain ⟨_, _, rfl, rfl, rfl⟩ := h
      refine ⟨[], (List.append_nil _).symm, ?_⟩
      have hhead : (Text.utf8 "agent hit its step limit").head? = some 97 := by decide +kernel
      exact .line "" hhead (by decide) (by decide) .nil
  | succ remaining ih =>
      obtain ⟨answer, trace, rfl, h⟩ := h
      cases answer with
      | error e =>
          obtain ⟨_, _, rfl, rfl, rfl⟩ := h
          refine ⟨[], (List.append_nil _).symm, .quiet nofun rfl ?_⟩
          rw [String.append_assoc, String.append_assoc]
          exact .line _ (b := 109) (by decide +kernel) (by decide) (by decide) .nil
      | ok response =>
          change Program.Yields (if response.stopReason = "refusal" then _ else
            if (response.content.filterMap Content.asToolUse).isEmpty = true then _ else _) trace output at h
          by_cases hrefusal : response.stopReason = "refusal"
          · rw [if_pos hrefusal] at h
            obtain ⟨rfl, rfl⟩ := h
            exact ⟨[], (List.append_nil _).symm, .quiet nofun rfl .nil⟩
          rw [if_neg hrefusal] at h
          by_cases hempty : (response.content.filterMap Content.asToolUse).isEmpty = true
          · rw [if_pos hempty] at h
            obtain ⟨rfl, rfl⟩ := h
            exact ⟨[], (List.append_nil _).symm, .quiet nofun rfl .nil⟩
          rw [if_neg hempty] at h
          obtain ⟨first, ⟨records, results⟩, second, hfirst, hrest, rfl⟩ := Program.yields_bind.mp h
          obtain ⟨made, hmade, hlater⟩ := ih hrest
          refine ⟨records ++ made, ?_, .quiet nofun rfl ?_⟩
          · rw [hmade, List.append_assoc]
          · rw [List.map_append]
            exact (audited_invokeTools hfirst).append hlater

/-- In every run of the agent, the announced calls are those that the output reports, in order. -/
theorem audited_runAgent {input : AgentInput} {trace : List AgentEvent} {output : AgentOutput}
    (h : (runAgent input).Yields trace output) : Audited trace (output.toolCalls.map ToolCallRecord.called) := by
  obtain ⟨list, trace, rfl, h⟩ := h
  have hsteps : ∀ {tools : List ToolSpec} {rest : List AgentEvent}, Program.Yields
      (AgentProgram.emit .info ("agent starting with " ++ toString tools.length ++ " tool(s)") >>= fun _ =>
        takeSteps tools (max input.maxSteps 1) (stepLimit input) 1 (initialMessages input) [] .zero) rest output →
      Audited rest (output.toolCalls.map ToolCallRecord.called) := by
    intro tools rest hyields
    obtain ⟨_, rest, rfl, hyields⟩ := hyields
    obtain ⟨made, hmade, haudited⟩ := audited_takeSteps hyields
    rw [hmade, List.nil_append, String.append_assoc]
    exact .line _ (b := 97) (by decide +kernel) (by decide) (by decide) haudited
  cases list with
  | ok list => exact .quiet nofun rfl (hsteps h)
  | error e =>
      obtain ⟨_, rest, rfl, h⟩ := h
      refine .quiet nofun rfl ?_
      exact .line _ (b := 110) (by decide +kernel) (by decide) (by decide) (hsteps h)

end TdsWasm
