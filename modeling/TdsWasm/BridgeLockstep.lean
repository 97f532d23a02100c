import TdsWasm.BridgeDelivery

/-! The two counters of a run: the steps that the agent's loop takes and the model turns that the host grants.
A question of the agent counts a turn only if it is one for a completion, and the agent goes on after such a
question only if the turn has been counted; so at every step of the loop the host has granted one turn less. -/

set_option autoImplicit false

namespace TdsWasm

variable {platform : Platform}

/-! ### The counter of the host -/

/-- The host keeps its policy and counts no turn. -/
structure Steady (before after : HostState) : Prop where
  policy : after.policy = before.policy
  llmCalls : after.llmCalls = before.llmCalls

/-- The host keeps its policy and counts one turn, which the limit still allows. -/
structure Ticked (before after : HostState) : Prop where
  policy : after.policy = before.policy
  below : before.llmCalls < before.policy.limits.maxSteps
  llmCalls : after.llmCalls = before.llmCalls + 1

namespace Steady

variable {before middle after : HostState}

theorem refl (state : HostState) : Steady state state := ⟨rfl, rfl⟩

theorem trans (hfirst : Steady before middle) (hsecond : Steady middle after) : Steady before after :=
  ⟨hsecond.policy.trans hfirst.policy, hsecond.llmCalls.trans hfirst.llmCalls⟩

end Steady

theorem Ticked.steady {before middle after : HostState} (hfirst : Ticked before middle)
    (hsecond : Steady middle after) : Ticked before after :=
  ⟨hsecond.policy.trans hfirst.policy, hfirst.below, hsecond.llmCalls.trans hfirst.llmCalls⟩

/-- Only a completion counts a turn. -/
theorem Capability.handle_turns (state : HostState) (history : History) (request : Bytes) (cap : Capability) :
    Steady state (cap.handle platform state history request).2.1 ∨
      cap = .llmComplete ∧ Ticked state (cap.handle platform state history request).2.1 := by
  cases cap with
  | toolsList => exact Or.inl (.refl state)
  | toolInvoke =>
      left
      simp only [handle]
      cases platform.codec.fromSlice "ToolInvokeRequest" ToolInvokeRequest.decode request with
      | ok req => exact ⟨rfl, rfl⟩
      | error e => exact .refl state
  | llmComplete =>
      simp only [handle]
      split_ifs with hspent
      · exact Or.inl (.refl state)
      · cases platform.codec.fromSlice "LlmRequest" LlmRequest.decode request with
        | ok req => exact Or.inr ⟨trivial, rfl, UInt32.not_le.mp hspent, rfl⟩
        | error e => exact Or.inl (.refl state)
  | other name => exact Or.inl (.refl state)

/-- A move that is no call counts no turn. -/
theorem HostRun.step_steady {run : HostRun} {move : GuestMove} (hreceive : run.receive move = none) :
    Steady run.data (run.step platform move).1.data := by
  have hmoved := step_moved platform run move
  change Moved platform run move (run.step platform move).1 at hmoved
  generalize (run.step platform move).1 = next at hmoved ⊢
  cases hmoved with
  | quiet pending logs _ => exact ⟨rfl, rfl⟩
  | request name body hrequest state events pending hhandled =>
      rw [hreceive] at hrequest
      cases hrequest

namespace Sandbox

variable {sandbox : Sandbox} {store final : Store sandbox.Guest} {α : Type}

theorem serve_steady {op : HostImport} (hop : ∀ placement : Placement,
    store.host.receive (placement.move op) = none) :
    Steady store.host.data (sandbox.serve platform store op).2.host.data := by
  unfold serve
  cases sandbox.place store.guest op with
  | mk outcome guest =>
      cases outcome with
      | ok placement => exact HostRun.step_steady (hop placement)
      | error trap => exact .refl _

variable (platform) in
/-- What a call of the guest counts. -/
theorem serve_turns {name : String} (hname : (Text.utf8 name).length ≤ 256) (store : Store sandbox.Guest)
    (body : Bytes) :
    Steady store.host.data (sandbox.serve platform store (.call (Text.utf8 name) body)).2.host.data ∨
      Capability.ofName name = .llmComplete ∧
        Ticked store.host.data (sandbox.serve platform store (.call (Text.utf8 name) body)).2.host.data := by
  cases hplace : sandbox.place store.guest (.call (Text.utf8 name) body) with
  | mk outcome guest =>
      cases outcome with
      | error trap =>
          left
          unfold serve
          rw [hplace]
          exact .refl _
      | ok placement =>
          by_cases hbody : body.length ≤ store.host.data.policy.limits.maxRequestBytes
          · rw [serve_request platform hname hbody hplace, Capability.dispatch_eq]
            rcases (Capability.ofName name).handle_turns store.host.data store.host.history body with
              hsteady | ⟨hname, hticked⟩
            · exact Or.inl ⟨hsteady.policy, hsteady.llmCalls⟩
            · exact Or.inr ⟨hname, hticked.policy, hticked.below, hticked.llmCalls⟩
          · obtain ⟨e, hserve⟩ := serve_oversized platform (Nat.not_le.mp hbody) hplace
            rw [hserve]
            exact Or.inl ⟨rfl, rfl⟩

variable (platform) in
/-- However the guest fetches a response, no turn is counted. -/
theorem receiveResponse_steady (name : String) (decode : Nat → Json → Option α) (n : Int32)
    (store : Store sandbox.Guest) : Steady store.host.data
      ((receiveResponse platform.codec name decode n).exec (sandbox.serve platform) store).2.host.data := by
  have honly : (receiveResponse platform.codec name decode n).Only
      fun op => ∃ len, op = HostImport.responseRead len := by
    unfold receiveResponse
    split_ifs
    · exact trivial
    · refine ⟨⟨n, rfl⟩, fun (read : Int32 × Bytes) => ?_⟩
      show Program.Only _ (if read.1 ≠ n then _ else _)
      split_ifs <;> exact trivial
    · exact trivial
  refine Program.Only.exec (fun before after => Steady before.host.data after.host.data) honly
    (fun store => .refl _) Steady.trans ?_ store
  rintro store _ ⟨len, rfl⟩
  exact serve_steady fun placement => rfl

variable (platform) in
theorem hostCall_turns {name : String} (hname : (Text.utf8 name).length ≤ 256) (body : Bytes)
    (decode : Nat → Json → Option α) (store : Store sandbox.Guest) :
    Steady store.host.data
        ((hostCall platform.codec name body decode).exec (sandbox.serve platform) store).2.host.data ∨
      Capability.ofName name = .llmComplete ∧ Ticked store.host.data
        ((hostCall platform.codec name body decode).exec (sandbox.serve platform) store).2.host.data := by
  have hserve := serve_turns platform hname store body
  unfold hostCall Program.exec
  cases hcall : sandbox.serve platform store (.call (Text.utf8 name) body) with
  | mk outcome called =>
      rw [hcall] at hserve
      cases outcome with
      | error failure => exact hserve
      | ok n =>
          have hreceive := receiveResponse_steady platform name decode n called
          rcases hserve with hsteady | ⟨hname, hticked⟩
          · exact Or.inl (hsteady.trans hreceive)
          · exact Or.inr ⟨hname, hticked.steady hreceive⟩

end Sandbox

/-! ### The questions of the agent -/

/-- The question is one for a completion. -/
def AgentOp.completes : AgentOp → Bool
  | .llmComplete _ => true
  | _ => false

/-- The agent is at a question for a completion. -/
def asksModel {α : Type} : AgentProgram α → Bool
  | .ask op _ => op.completes
  | .done _ => false

namespace Sandbox

variable {sandbox : Sandbox} {store final : Store sandbox.Guest}

/-- The host as the agent reaches it. -/
def agentHost (platform : Platform) (sandbox : Sandbox) :
    agentSignature.StoppingHandler Failure (Store sandbox.Guest) :=
  Program.through (sandbox.serve platform) (hostOp platform.codec)

variable (platform) in
/-- What a question counts, also when it is stopped on the way. -/
theorem agentHost_turns (store : Store sandbox.Guest) (op : AgentOp) :
    Steady store.host.data (agentHost platform sandbox store op).2.host.data ∨
      op.completes = true ∧ Ticked store.host.data (agentHost platform sandbox store op).2.host.data := by
  cases op with
  | emit level message =>
      left
      have hlog : (Steady store.host.data
          (sandbox.serve platform store (.log level.toI32 (Text.utf8 message))).2.host.data) :=
        serve_steady fun placement => rfl
      unfold agentHost Program.through hostOp Program.exec
      cases hserve : sandbox.serve platform store (.log level.toI32 (Text.utf8 message)) with
      | mk outcome logged =>
          rw [hserve] at hlog
          cases outcome <;> exact hlog
  | toolsList =>
      have hname : (Text.utf8 Cap.toolsList).length ≤ 256 := by decide
      rcases hostCall_turns platform hname (platform.codec.toVec (.obj [])) ToolsListResponse.decode store with
        hsteady | ⟨hcap, _⟩
      · exact Or.inl hsteady
      · rw [Capability.ofName_toolsList] at hcap
        cases hcap
  | toolInvoke request =>
      have hname : (Text.utf8 Cap.toolInvoke).length ≤ 256 := by decide
      rcases hostCall_turns platform hname (platform.codec.toVec request.encode) ToolInvokeResponse.decode store with
        hsteady | ⟨hcap, _⟩
      · exact Or.inl hsteady
      · rw [Capability.ofName_toolInvoke] at hcap
        cases hcap
  | llmComplete request =>
      have hname : (Text.utf8 Cap.llmComplete).length ≤ 256 := by decide
      rcases hostCall_turns platform hname (platform.codec.toVec request.encode) LlmResponse.decode store with
        hsteady | ⟨_, hticked⟩
      · exact Or.inl hsteady
      · exact Or.inr ⟨rfl, hticked⟩

/-- A response that the agent gets has been counted: whatever else the host answers is an error. -/
theorem agentHost_response {request : LlmRequest} {response : LlmResponse}
    (h : agentHost platform sandbox store (.llmComplete request) = (.ok (.ok response), final)) :
    Ticked store.host.data final.host.data := by
  rcases llmComplete_ok h with ⟨e, pending, herror, _⟩ | ⟨asked, outcome, pending, effects, hturns, hhost, _, _⟩
  · cases herror
  · rw [hhost]
    exact ⟨rfl, hturns, rfl⟩

end Sandbox

/-! ### The counter of the agent -/

/-- The agent asks the model for this step of its loop, of so many at most. -/
def AtStep (maxSteps step : UInt32) (rest : AgentProgram AgentOutput) : Prop :=
  ∃ tools remaining messages record usage,
    rest = takeSteps tools maxSteps (remaining + 1) step messages record usage

/-- The steps that the agent reports when this question for a completion fails. -/
def failedSteps : AgentProgram AgentOutput → Option UInt32
  | .ask (.llmComplete _) next =>
      match next (.error ⟨"", ""⟩) with
      | .ask (.emit _ _) last =>
          match last () with
          | .done output => some output.steps
          | _ => none
      | _ => none
  | _ => none

theorem AtStep.failedSteps_eq {maxSteps step : UInt32} {rest : AgentProgram AgentOutput}
    (h : AtStep maxSteps step rest) : failedSteps rest = some (step - 1) := by
  obtain ⟨tools, remaining, messages, record, usage, rfl⟩ := h
  rfl

/-- The agent is at one step of its loop at a time. -/
theorem AtStep.unique {maxSteps step other : UInt32} {rest : AgentProgram AgentOutput}
    (h : AtStep maxSteps step rest) (hother : AtStep maxSteps other rest) : step = other := by
  have hsame := Option.some.inj (h.failedSteps_eq.symm.trans hother.failedSteps_eq)
  exact (UInt32.sub_left_inj _).mp hsame

/-- At this question the counters agree: the host has counted one turn less than the step of the agent, and
its limit allows another one. -/
structure InStep {Guest : Type} (maxSteps step : UInt32) (visit : Store Guest × AgentProgram AgentOutput) :
    Prop where
  atStep : AtStep maxSteps step visit.2
  step_le : step ≤ maxSteps
  llmCalls : visit.1.host.data.llmCalls.toNat + 1 = step.toNat
  allowed : visit.1.host.data.llmCalls < visit.1.host.data.policy.limits.maxSteps

/-- An agent that keeps in step with the host from this store on, for so many turns at most. -/
structure Lockstep (platform : Platform) (sandbox : Sandbox) (maxSteps : UInt32) (turns : Nat)
    (program : AgentProgram AgentOutput) (store : Store sandbox.Guest) : Prop where
  inStep : ∀ visit ∈ program.visits (sandbox.agentHost platform) store, asksModel visit.2 = true →
    ∃ step, InStep maxSteps step visit
  turns_le : (program.visits (sandbox.agentHost platform) store).countP (fun visit => asksModel visit.2) ≤ turns
  policy : (program.exec (sandbox.agentHost platform) store).2.host.data.policy = store.host.data.policy
  calls_le : (program.exec (sandbox.agentHost platform) store).2.host.data.llmCalls.toNat ≤
    store.host.data.llmCalls.toNat + turns

/-- The program asks for no completion. -/
abbrev AgentProgram.Silent {α : Type} (program : AgentProgram α) : Prop :=
  program.Only fun (op : AgentOp) => op.completes = false

namespace Lockstep

variable {sandbox : Sandbox} {store : Store sandbox.Guest} {maxSteps : UInt32} {turns : Nat} {α : Type}

variable (platform) in
theorem steady_of_silent {program : AgentProgram α} (h : program.Silent) (store : Store sandbox.Guest) :
    Steady store.host.data (program.exec (sandbox.agentHost platform) store).2.host.data := by
  refine Program.Only.exec (fun before after => Steady before.host.data after.host.data) h
    (fun store => .refl _) Steady.trans ?_ store
  intro store op hop
  rcases Sandbox.agentHost_turns platform store op with hsteady | ⟨hcompletes, _⟩
  · exact hsteady
  · rw [hop] at hcompletes
    cases hcompletes

variable (platform) in
theorem asksModel_of_silent {program : AgentProgram α} (h : program.Silent) (store : Store sandbox.Guest) :
    ∀ visit ∈ program.visits (sandbox.agentHost platform) store, asksModel visit.2 = false := by
  intro visit hmem
  obtain ⟨op, next, hvisit, hop⟩ := h.visits store visit hmem
  rw [hvisit]
  exact hop

/-- What asks for no completion goes before. -/
theorem bind {program : AgentProgram α} {next : α → AgentProgram AgentOutput} (h : program.Silent)
    (hnext : ∀ a after, Steady store.host.data after.host.data →
      Lockstep platform sandbox maxSteps turns (next a) after) :
    Lockstep platform sandbox maxSteps turns (program >>= next) store := by
  have hsteady := steady_of_silent platform h store
  have hbefore : ∀ visit ∈ (program.visits (sandbox.agentHost platform) store).map
      (fun visit => (visit.1, visit.2 >>= next)), asksModel visit.2 = false := by
    intro visit hmem
    obtain ⟨first, hfirst, rfl⟩ := List.mem_map.mp hmem
    obtain ⟨op, rest, hvisit, hop⟩ := h.visits store first hfirst
    rw [hvisit]
    exact hop
  have hcount : ((program.visits (sandbox.agentHost platform) store).map
      (fun visit => (visit.1, visit.2 >>= next))).countP (fun visit => asksModel visit.2) = 0 :=
    List.countP_eq_zero.mpr fun visit hmem => by simp [hbefore visit hmem]
  cases hexec : program.exec (sandbox.agentHost platform) store with
  | mk outcome after =>
      rw [hexec] at hsteady
      cases outcome with
      | error failure =>
          refine ⟨?_, ?_, ?_, ?_⟩ <;> simp only [Program.visits_bind, Program.exec_bind, hexec]
          · intro visit hmem hasks
            rw [List.append_nil] at hmem
            rw [hbefore visit hmem] at hasks
            cases hasks
          · rw [List.append_nil, hcount]
            exact Nat.zero_le _
          · exact hsteady.policy
          · rw [hsteady.llmCalls]
            exact Nat.le_add_right _ _
      | ok a =>
          have hrest := hnext a after hsteady
          refine ⟨?_, ?_, ?_, ?_⟩ <;> simp only [Program.visits_bind, Program.exec_bind, hexec]
          · intro visit hmem hasks
            rcases List.mem_append.mp hmem with hfirst | hsecond
            · rw [hbefore visit hfirst] at hasks
              cases hasks
            · exact hrest.inStep visit hsecond hasks
          · rw [List.countP_append, hcount, Nat.zero_add]
            exact hrest.turns_le
          · exact hrest.policy.trans hsteady.policy
          · rw [← hsteady.llmCalls]
            exact hrest.calls_le

/-- A program that asks for no completion at all. -/
theorem of_silent {program : AgentProgram AgentOutput} (h : program.Silent) :
    Lockstep platform sandbox maxSteps turns program store where
  inStep visit hmem hasks := by
    rw [asksModel_of_silent platform h store visit hmem] at hasks
    cases hasks
  turns_le := by
    rw [List.countP_eq_zero.mpr fun visit hmem => by simp [asksModel_of_silent platform h store visit hmem]]
    exact Nat.zero_le _
  policy := (steady_of_silent platform h store).policy
  calls_le := by
    rw [(steady_of_silent platform h store).llmCalls]
    exact Nat.le_add_right _ _

/-- At a question for a completion the counters agree, and the agent keeps in step after whatever answer it
gets. -/
theorem ask {request : LlmRequest} {next : Except CapError LlmResponse → AgentProgram AgentOutput}
    {step : UInt32}
    (hstep : InStep maxSteps step (store, (Program.ask (AgentOp.llmComplete request) next : AgentProgram AgentOutput)))
    (hnext : ∀ answer after,
      sandbox.agentHost platform store (AgentOp.llmComplete request) = (.ok answer, after) →
        Lockstep platform sandbox maxSteps turns (next answer) after) :
    Lockstep platform sandbox maxSteps (turns + 1) (Program.ask (AgentOp.llmComplete request) next) store := by
  have hturns := Sandbox.agentHost_turns platform store (AgentOp.llmComplete request)
  have hcalls : ∀ after : HostState, Steady store.host.data after ∨
      AgentOp.completes (.llmComplete request) = true ∧ Ticked store.host.data after →
      after.policy = store.host.data.policy ∧
        after.llmCalls.toNat ≤ store.host.data.llmCalls.toNat + 1 := by
    rintro after (hsteady | ⟨_, hticked⟩)
    · exact ⟨hsteady.policy, by rw [hsteady.llmCalls]; exact Nat.le_succ _⟩
    · exact ⟨hticked.policy, by rw [hticked.llmCalls, Word.toNat_add_one hticked.below]⟩
  cases hanswer : sandbox.agentHost platform store (AgentOp.llmComplete request) with
  | mk outcome after =>
      rw [hanswer] at hturns
      obtain ⟨hpolicy, hcount⟩ := hcalls _ hturns
      cases outcome with
      | error failure =>
          refine ⟨?_, ?_, ?_, ?_⟩ <;> simp only [Program.visits, Program.exec, hanswer]
          · intro visit hmem _
            cases List.mem_singleton.mp hmem
            exact ⟨step, hstep⟩
          · exact List.countP_le_length.trans (Nat.le_add_left _ _)
          · exact hpolicy
          · simp only at hcount
            omega
      | ok answer =>
          have hrest := hnext answer after hanswer
          refine ⟨?_, ?_, ?_, ?_⟩ <;> simp only [Program.visits, Program.exec, hanswer]
          · intro visit hmem hasks
            rcases List.mem_cons.mp hmem with rfl | hmem
            · exact ⟨step, hstep⟩
            · exact hrest.inStep visit hmem hasks
          · rw [List.countP_cons]
            have hle := hrest.turns_le
            split_ifs <;> omega
          · exact hrest.policy.trans hpolicy
          · have hle := hrest.calls_le
            simp only at hcount
            omega

end Lockstep

theorem silent_invokeTools (step : UInt32) (requested : List (String × String × JsonValue)) :
    (invokeTools step requested).Silent := by
  induction requested with
  | nil => exact trivial
  | cons asked rest ih =>
      obtain ⟨id, name, args⟩ := asked
      rw [invokeTools_cons]
      exact ⟨rfl, fun _ => ⟨rfl, fun answer => Program.Only.bind ih fun made => trivial⟩⟩

/-- The loop keeps in step from any step on, if the host has counted the steps before it. -/
theorem lockstep_takeSteps {sandbox : Sandbox} {tools : List ToolSpec} {maxSteps step : UInt32} {remaining : Nat}
    {messages : List Message} {record : List ToolCallRecord} {usage : Usage} {store : Store sandbox.Guest}
    (hlimit : maxSteps ≤ store.host.data.policy.limits.maxSteps)
    (hstep : 0 < remaining → store.host.data.llmCalls.toNat + 1 = step.toNat ∧
      step.toNat + remaining = maxSteps.toNat + 1) :
    Lockstep platform sandbox maxSteps remaining (takeSteps tools maxSteps remaining step messages record usage)
      store := by
  induction remaining generalizing step messages record usage store with
  | zero => exact .of_silent ⟨rfl, fun _ => trivial⟩
  | succ remaining ih =>
      obtain ⟨hcalls, hsum⟩ := hstep (Nat.succ_pos _)
      rw [UInt32.le_iff_toNat_le] at hlimit
      have hle : step ≤ maxSteps := UInt32.le_iff_toNat_le.mpr (by omega)
      have hallowed : store.host.data.llmCalls < store.host.data.policy.limits.maxSteps :=
        UInt32.lt_iff_toNat_lt.mpr (by omega)
      refine .ask ⟨⟨tools, remaining, messages, record, usage, rfl⟩, hle, hcalls, hallowed⟩ ?_
      intro answer after hanswer
      cases answer with
      | error e => exact .of_silent ⟨rfl, fun _ => trivial⟩
      | ok response =>
          have hticked := Sandbox.agentHost_response hanswer
          show Lockstep platform sandbox maxSteps remaining (if response.stopReason = "refusal" then _ else
            if (response.content.filterMap Content.asToolUse).isEmpty = true then _ else _) after
          split_ifs
          · exact .of_silent trivial
          · exact .of_silent trivial
          · apply Lockstep.bind (silent_invokeTools step _)
            intro made later hsteady
            apply ih
            · rw [hsteady.policy, hticked.policy, UInt32.le_iff_toNat_le]
              exact hlimit
            · intro hremaining
              have hlt : step < maxSteps := UInt32.lt_iff_toNat_lt.mpr (by omega)
              rw [hsteady.llmCalls, hticked.llmCalls, Word.toNat_add_one hticked.below, Word.toNat_add_one hlt]
              omega

/-- So does the agent, when the host has not counted a turn yet and allows as many as the agent may take. -/
theorem lockstep_runAgent {sandbox : Sandbox} {input : AgentInput} {store : Store sandbox.Guest}
    (hlimit : max input.maxSteps 1 ≤ store.host.data.policy.limits.maxSteps)
    (hzero : store.host.data.llmCalls = 0) :
    Lockstep platform sandbox (max input.maxSteps 1) (stepLimit input) (runAgent input) store := by
  have hone : (1 : UInt32).toNat = 1 := rfl
  have hstart : ∀ (tools : List ToolSpec) (offered : Store sandbox.Guest),
      Steady store.host.data offered.host.data →
      Lockstep platform sandbox (max input.maxSteps 1) (stepLimit input)
        (AgentProgram.emit .info ("agent starting with " ++ toString tools.length ++ " tool(s)") >>= fun _ =>
          takeSteps tools (max input.maxSteps 1) (stepLimit input) 1 (initialMessages input) [] .zero)
        offered := by
    intro tools offered hoffered
    refine .bind ⟨rfl, fun _ => trivial⟩ fun _ started hstarted => ?_
    have hsteady := hoffered.trans hstarted
    apply lockstep_takeSteps
    · rw [hsteady.policy]
      exact hlimit
    · intro _
      rw [hsteady.llmCalls, hzero, hone, stepLimit]
      exact ⟨rfl, Nat.add_comm _ _⟩
  unfold runAgent
  refine .bind ⟨rfl, fun _ => trivial⟩ fun list asked hasked => ?_
  cases list with
  | ok list => exact hstart list.tools asked hasked
  | error e =>
      exact .bind ⟨rfl, fun _ => trivial⟩ fun _ warned hwarned => hstart [] warned (hasked.trans hwarned)

/-! ### Runs -/

/-- A validated policy allows at least one step. -/
theorem Policy.maxSteps_pos {policy : Policy} (h : policy.validate platform = .ok ()) :
    1 ≤ policy.limits.maxSteps :=
  UInt32.le_iff_toNat_le.mpr (Word.one_le_toNat32.mpr (validate_eq_ok_iff.mp h).maxSteps)

/-- Bounds in order do not panic, and a value between them is what is handed on. -/
theorem clamp_of_le (value : UInt32) {low high : UInt32} (h : low ≤ high) :
    ∃ clamped, clamp value low high = some clamped ∧ low ≤ clamped ∧ clamped ≤ high ∧
      clamped.toNat = min (max value.toNat low.toNat) high.toNat := by
  have hnat := UInt32.le_iff_toNat_le.mp h
  refine ⟨max low (min value high), if_pos h, ?_⟩
  rw [UInt32.le_iff_toNat_le, UInt32.le_iff_toNat_le, Word.toNat_max, Word.toNat_min]
  omega

/-- A run has come to where the agent has read its input and starts. -/
def Begun (platform : Platform) (sandbox : Sandbox) (policy : Policy) (llm : LlmProvider) (fresh : sandbox.Guest)
    (input received : AgentInput) (begun : Store sandbox.Guest) : Prop :=
  ∃ clamped opened entered delivered,
    (Runtime.mk policy llm (sandbox.agent platform) fresh).opening platform input = some (clamped, opened) ∧
    (sandbox.agent platform).enter opened = (.ok (), entered) ∧
    sandbox.deliver platform clamped entered = (.ok delivered, begun) ∧
    platform.codec.fromSlice "AgentInput" AgentInput.decode delivered.2 = .ok received

section Runs

variable {sandbox : Sandbox} {policy : Policy} {llm : LlmProvider} {fresh : sandbox.Guest}
  {input received : AgentInput} {begun : Store sandbox.Guest}

/-- The agent starts with the clamped input and with a fresh host. -/
theorem Begun.start (hword : sandbox.Wasm32) (h : Begun platform sandbox policy llm fresh input received begun) :
    (∃ maxSteps, clamp input.maxSteps 1 policy.limits.maxSteps = some maxSteps ∧
      received = { input with maxSteps := maxSteps }) ∧
    ∃ tools, begun.host = .start policy llm tools := by
  obtain ⟨clamped, opened, entered, delivered, hopen, henter, hdeliver, hread⟩ := h
  obtain ⟨tools, _, rfl, maxSteps, hclamp, rfl⟩ := Runtime.opening_eq_some platform hopen
  have hhost := sandbox.quiet_deliver platform { input with maxSteps := maxSteps } entered
  rw [hdeliver] at hhost
  exact ⟨⟨maxSteps, hclamp, Sandbox.input_of_deliver hword hdeliver hread⟩, tools,
    hhost.trans (Sandbox.entered_host henter)⟩

/-- The host that a run leaves is a fresh one, or the one with which the agent has ended. -/
theorem host_of_run {report : RunReport} {result : Except Failure AgentOutput} {store : Store sandbox.Guest}
    (h : (Runtime.mk policy llm (sandbox.agent platform) fresh).run platform input = .ok report result store) :
    (∃ tools, store.host = .start policy llm tools) ∨
      ∃ received begun, Begun platform sandbox policy llm fresh input received begun ∧
        store.host = ((runAgent received).exec (sandbox.agentHost platform) begun).2.host := by
  obtain ⟨clamped, opened, entered, hopen, henter, hinvoke, _⟩ := Runtime.run_eq_ok platform h
  obtain ⟨tools, _, rfl, _⟩ := Runtime.opening_eq_some platform hopen
  have hentered : entered.host = .start policy llm tools := Sandbox.entered_host henter
  have hhost := sandbox.invokeAgent_host platform clamped entered
  have hquiet := sandbox.quiet_deliver platform clamped entered
  rw [hinvoke] at hhost
  cases hdeliver : sandbox.deliver platform clamped entered with
  | mk outcome begun =>
      rw [hdeliver] at hhost hquiet
      cases outcome with
      | error failure => exact Or.inl ⟨tools, hhost.trans hentered⟩
      | ok delivered =>
          cases hread : platform.codec.fromSlice "AgentInput" AgentInput.decode delivered.2 with
          | error e =>
              simp only [Sandbox.agentOutput, hread] at hhost
              refine Or.inl ⟨tools, ?_⟩
              calc store.host = begun.host := hhost
                _ = entered.host := hquiet
                _ = .start policy llm tools := hentered
          | ok received =>
              simp only [Sandbox.agentOutput, hread, Program.exec_translate] at hhost
              exact Or.inr ⟨received, begun, ⟨clamped, _, entered, delivered, hopen, henter, hdeliver, hread⟩, hhost⟩

end Runs

/-- The two counters keep in step in every run of the agent, whatever the model and the tools answer and
wherever the run is stopped: the agent gets the clamped number of steps, at each question for a completion the
host has counted exactly the steps before it and allows another turn, and there are no more such questions, and
no more turns counted, than that number. -/
theorem counters_lockstep (platform : Platform) (sandbox : Sandbox) (policy : Policy) (llm : LlmProvider)
    (fresh : sandbox.Guest) (input : AgentInput) (hvalid : policy.validate platform = .ok ())
    (hword : sandbox.Wasm32) :
    (Runtime.mk policy llm (sandbox.agent platform) fresh).run platform input ≠ .panicked ∧
    ∃ maxSteps, clamp input.maxSteps 1 policy.limits.maxSteps = some maxSteps ∧
      1 ≤ maxSteps ∧ maxSteps ≤ policy.limits.maxSteps ∧
      maxSteps.toNat = min (max input.maxSteps.toNat 1) policy.limits.maxSteps.toNat ∧
      (∀ received begun, Begun platform sandbox policy llm fresh input received begun →
        received = { input with maxSteps := maxSteps } ∧
        (∀ visit ∈ (runAgent received).visits (sandbox.agentHost platform) begun, asksModel visit.2 = true →
          (∃ step, AtStep maxSteps step visit.2) ∧
            ∀ step, AtStep maxSteps step visit.2 → InStep maxSteps step visit) ∧
        ((runAgent received).visits (sandbox.agentHost platform) begun).countP (fun visit => asksModel visit.2) ≤
          maxSteps.toNat) ∧
      ∀ report result store,
        (Runtime.mk policy llm (sandbox.agent platform) fresh).run platform input = .ok report result store →
          store.host.data.llmCalls.toNat ≤ maxSteps.toNat := by
  obtain ⟨maxSteps, hclamp, hlow, hhigh, hnat⟩ := clamp_of_le input.maxSteps (Policy.maxSteps_pos hvalid)
  have hlockstep : ∀ received begun, Begun platform sandbox policy llm fresh input received begun →
      received = { input with maxSteps := maxSteps } ∧ begun.host.data.llmCalls = 0 ∧
        Lockstep platform sandbox maxSteps maxSteps.toNat (runAgent received) begun := by
    intro received begun hbegun
    obtain ⟨⟨clamped, hclamped, hreceived⟩, tools, hhost⟩ := hbegun.start hword
    cases hclamp.symm.trans hclamped
    have hmax : max received.maxSteps 1 = maxSteps := by
      rw [hreceived, ← UInt32.toNat_inj, Word.toNat_max]
      exact Nat.max_eq_left (UInt32.le_iff_toNat_le.mp hlow)
    have hzero : begun.host.data.llmCalls = 0 := by
      rw [hhost]
      rfl
    have hlimit : max received.maxSteps 1 ≤ begun.host.data.policy.limits.maxSteps := by
      rw [hmax, hhost]
      exact hhigh
    have hrun : Lockstep platform sandbox (max received.maxSteps 1) (stepLimit received) (runAgent received) begun :=
      lockstep_runAgent hlimit hzero
    rw [stepLimit, hmax] at hrun
    exact ⟨hreceived, hzero, hrun⟩
  refine ⟨?_, maxSteps, hclamp, hlow, hhigh, hnat, ?_, ?_⟩
  · exact Runtime.run_ne_panicked platform hclamp
  · intro received begun hbegun
    obtain ⟨hreceived, _, hrun⟩ := hlockstep received begun hbegun
    refine ⟨hreceived, fun visit hmem hasks => ?_, hrun.turns_le⟩
    obtain ⟨step, hstep⟩ := hrun.inStep visit hmem hasks
    refine ⟨⟨step, hstep.atStep⟩, fun other hother => ?_⟩
    rw [hother.unique hstep.atStep]
    exact hstep
  · intro report result store hrun
    rcases host_of_run hrun with ⟨tools, hhost⟩ | ⟨received, begun, hbegun, hhost⟩
    · rw [hhost]
      exact Nat.zero_le _
    · obtain ⟨_, hzero, hlock⟩ := hlockstep received begun hbegun
      have hle := hlock.calls_le
      rw [hhost]
      rw [hzero] at hle
      exact hle.trans (Nat.zero_add _).le

theorem counters_lockstep_answering : ∃ report result store, answeringRun 40 = .ok report result store ∧
    store.host.history.okAnswers.length = 1 ∧ store.host.data.llmCalls.toNat ≤ 1 := by
  obtain ⟨report, own, store, hok, hone, _⟩ := exists_answeringRun
  obtain ⟨_, maxSteps, hclamp, _, _, _, _, hcalls⟩ := counters_lockstep stillPlatform .bump (answering 40).policy
    (answering 40).llm (answering 40).fresh ⟨"Work.", none, 1⟩ rfl Sandbox.wasm32_bump
  cases hclamp
  exact ⟨report, .ok own, store, hok, hone, hcalls report (.ok own) store hok⟩

end TdsWasm
