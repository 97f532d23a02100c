import TdsWasm.BridgeOffline

/-! The sandbox beside the agent on its own. The agent can be run on the host without a module around it: its
questions go to the provider and to the tools, and neither documents nor memory nor pointers come in between. A run
in the sandbox does what this run does, as far as it gets, and comes to its output when nothing stops it. -/

set_option autoImplicit false

namespace TdsWasm

variable {platform : Platform}

/-! ### The agent on its own -/

/-- The questions of the agent on its own, each with the host as it is then. -/
def directVisits (platform : Platform) (policy : Policy) (llm : LlmProvider) (tools : ToolBox) (input : AgentInput) :
    List (Standing × AgentProgram AgentOutput) :=
  (runAgent input).visits (Standing.answer platform).unstopped (HostRun.start policy llm tools).standing

/-- The run of the agent on the host without the channel. Its documents are such that the channel could carry them:
they fit the levels and the lengths. -/
structure DirectRun (platform : Platform) (policy : Policy) (llm : LlmProvider) (tools : ToolBox) (input : AgentInput)
    (output : AgentOutput) (left : Standing) : Prop where
  derives : Program.Derives (Standing.answer platform) (Standing.Clear platform) (runAgent input)
    (HostRun.start policy llm tools).standing output left
  carries : ∀ visit ∈ directVisits platform policy llm tools input, Standing.CarriesAt platform visit

/-- The record that a host keeps for its capabilities only grows. -/
def Standing.Grows (before after : Standing) : Prop := before.history <+: after.history

namespace Standing.Grows

theorem refl (standing : Standing) : Grows standing standing := List.prefix_rfl

theorem trans {before middle after : Standing} (hfirst : Grows before middle) (hsecond : Grows middle after) :
    Grows before after := List.IsPrefix.trans hfirst hsecond

theorem answer (standing : Standing) (op : AgentOp) : Grows standing (standing.answer platform op).2 := by
  cases op with
  | emit level message => exact refl standing
  | toolsList => exact refl standing
  | toolInvoke request => exact List.prefix_append _ _
  | llmComplete request =>
      unfold Standing.answer
      simp only
      split_ifs
      · exact refl standing
      · exact List.prefix_append _ _

end Standing.Grows

/-! ### Questions that are stopped -/

namespace Sandbox

variable {sandbox : Sandbox} {store final : Store sandbox.Guest} {α : Type}

/-- A host function that is no call leaves all that the capabilities depend on. -/
theorem standing_serve {op : HostImport} (hop : ∀ placement : Placement,
    store.host.receive (placement.move op) = none) :
    (sandbox.serve platform store op).2.host.standing = store.host.standing := by
  unfold serve
  cases sandbox.place store.guest op with
  | mk outcome guest =>
      cases outcome with
      | error trap => rfl
      | ok placement =>
          show (store.host.step platform (placement.move op)).1.standing = _
          have hmoved := HostRun.step_moved platform store.host (placement.move op)
          change HostRun.Moved platform store.host _ (store.host.step platform (placement.move op)).1 at hmoved
          generalize (store.host.step platform (placement.move op)).1 = next at hmoved ⊢
          cases hmoved with
          | quiet pending logs _ => rfl
          | request name body hreceive state events pending hhandled =>
              rw [hop placement] at hreceive
              cases hreceive

variable (platform) in
theorem only_receiveResponse (name : String) (decode : Nat → Json → Option α) (n : Int32) :
    (receiveResponse platform.codec name decode n).Only fun op => ∃ len, op = HostImport.responseRead len := by
  unfold receiveResponse
  split_ifs
  · exact trivial
  · refine ⟨⟨n, rfl⟩, fun (read : Int32 × Bytes) => ?_⟩
    show Program.Only _ (if read.1 ≠ n then _ else _)
    split_ifs <;> exact trivial
  · exact trivial

/-- However a response is fetched, also if that is stopped. -/
theorem standing_receiveResponse (name : String) (decode : Nat → Json → Option α) (n : Int32)
    (store : Store sandbox.Guest) :
    ((receiveResponse platform.codec name decode n).exec (sandbox.serve platform) store).2.host.standing =
      store.host.standing := by
  have honly := only_receiveResponse platform name decode n
  apply Program.Only.exec (fun before after : Store sandbox.Guest => after.host.standing = before.host.standing) honly
  · exact fun _ => rfl
  · exact fun hfirst hsecond => hsecond.trans hfirst
  · rintro store _ ⟨len, rfl⟩
    exact standing_serve fun placement => rfl

end Sandbox

theorem opening_scratch : (Runtime.mk scratchPolicy (MockProvider.toProvider stillPlatform)
    (Sandbox.bump.agent stillPlatform) scratchGuest).opening stillPlatform scratchInput = some (scratchInput,
      ⟨.start scratchPolicy (MockProvider.toProvider stillPlatform) scratchTools, scratchGuest⟩) := rfl

theorem direct_scratch : ∃ left, DirectRun stillPlatform scratchPolicy (MockProvider.toProvider stillPlatform)
    scratchTools scratchInput scratchOutput left := by
  obtain ⟨output, left, hderives⟩ := derives_scratchInput
  obtain rfl : scratchOutput = output := hderives.run_result
  exact ⟨left, hderives, scratchVisits_light.1⟩

/-! ### Runs -/

section Runs

variable {sandbox : Sandbox} {policy : Policy} {llm : LlmProvider} {fresh : sandbox.Guest} {input clamped : AgentInput}
  {tools : ToolBox} {report : RunReport} {result : Except Failure AgentOutput} {store : Store sandbox.Guest}

/-- The agent starts with the clamped input on the host that the run has opened. -/
theorem Begun.host_eq {received : AgentInput} {begun : Store sandbox.Guest} (hword : sandbox.Wasm32)
    (hopen : (Runtime.mk policy llm (sandbox.agent platform) fresh).opening platform input =
      some (clamped, ⟨.start policy llm tools, fresh⟩))
    (h : Begun platform sandbox policy llm fresh input received begun) :
    received = clamped ∧ begun.host = .start policy llm tools := by
  obtain ⟨clamped', opened, entered, delivered, hopened, henter, hdeliver, hread⟩ := h
  cases hopen.symm.trans hopened
  have hhost := sandbox.quiet_deliver platform clamped entered
  rw [hdeliver] at hhost
  exact ⟨Sandbox.input_of_deliver hword hdeliver hread, hhost.trans (Sandbox.entered_host henter)⟩

/-- The host that a run leaves is the one with which the agent has ended, once it has begun. -/
theorem host_of_begun {received : AgentInput} {begun : Store sandbox.Guest}
    (hrun : (Runtime.mk policy llm (sandbox.agent platform) fresh).run platform input = .ok report result store)
    (h : Begun platform sandbox policy llm fresh input received begun) :
    store.host = ((runAgent received).exec (sandbox.agentHost platform) begun).2.host := by
  obtain ⟨clamped, opened, entered, delivered, hopen, henter, hdeliver, hread⟩ := h
  obtain ⟨clamped', opened', entered', hopen', henter', hinvoke, _⟩ := Runtime.run_eq_ok platform hrun
  cases hopen.symm.trans hopen'
  cases henter.symm.trans henter'
  have hhost := sandbox.invokeAgent_host platform clamped entered
  rw [hinvoke, hdeliver] at hhost
  simp only [Sandbox.agentOutput, hread, Program.exec_translate] at hhost
  exact hhost

variable {output : AgentOutput} {left : Standing}

/-- The channel carries what the agent asks in the sandbox. -/
theorem DirectRun.carried (hdirect : DirectRun platform policy llm tools clamped output left)
    {begun : Store sandbox.Guest} (hhost : begun.host = .start policy llm tools) :
    ∀ visit ∈ (runAgent clamped).visits (sandbox.agentHost platform) begun,
      ∀ op next, visit.2 = Program.ask op next → Carried platform visit.1.host op := by
  intro visit hmem op next hop
  have hat := Sandbox.carried_of_derives hdirect.derives (congrArg HostRun.standing hhost) hdirect.carries visit hmem
  rw [Sandbox.CarriedAt, hop] at hat
  exact hat

/-- A run that comes to an output ends as the agent on its own does. -/
theorem DirectRun.ended {own : AgentOutput} (haddress : sandbox.Addressable) (hword : sandbox.Wasm32)
    (hfresh : (sandbox.memory fresh).length ≤ 2 ^ 32)
    (hopen : (Runtime.mk policy llm (sandbox.agent platform) fresh).opening platform input =
      some (clamped, ⟨.start policy llm tools, fresh⟩))
    (hdirect : DirectRun platform policy llm tools clamped output left)
    (hrun : (Runtime.mk policy llm (sandbox.agent platform) fresh).run platform input = .ok report (.ok own) store) :
    report.output = output ∧ store.host.standing = left := by
  obtain ⟨houtput, received, begun, ended, tools', hbegun, _, _, _, hexec⟩ := Sandbox.output_of_run haddress hfresh hrun
  obtain ⟨rfl, hstart⟩ := hbegun.host_eq hword hopen
  obtain ⟨hsame, hleft⟩ := hdirect.derives.of_exec (fun store : Store sandbox.Guest => store.host.standing)
    (fun store op => Carried platform store.host op) (fun _ _ _ _ => Sandbox.answer_of_agentHost)
    (congrArg HostRun.standing hstart) (hdirect.carried hstart) hexec
  have hhost := host_of_begun hrun hbegun
  rw [hexec] at hhost
  exact ⟨houtput.trans hsame, (congrArg HostRun.standing hhost).trans hleft⟩

end Runs

end TdsWasm
