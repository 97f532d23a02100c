import TdsWasm.BridgeEcho
import TdsWasm.BridgeLockstep

/-! The host without the channel: it answers the questions of the agent from what its capabilities depend on. A
question that the channel carries, and that the documents around it leave as it is, gets the same answer through
the sandbox. -/

set_option autoImplicit false

namespace TdsWasm

/-! ### The host as the agent sees it -/

/-- What the capabilities of a host depend on, and what they change. -/
structure Standing where
  policy : Policy
  llm : LlmProvider
  tools : ToolBox
  llmCalls : UInt32
  history : History

def HostRun.standing (run : HostRun) : Standing :=
  ⟨run.data.policy, run.data.llm, run.data.tools, run.data.llmCalls, run.history⟩

variable (platform : Platform)

namespace Standing

def spent (standing : Standing) : CapError :=
  .denied ("this run has already used its " ++ toString standing.policy.limits.maxSteps.toNat ++ " model turns")

/-- The answer to a question, and what comes of the host. -/
def answer : agentSignature.Handler Standing
  | standing, .emit _ _ => ((), standing)
  | standing, .toolsList => (.ok ⟨standing.tools.specs⟩, standing)
  | standing, .toolInvoke request =>
      let (answer, tools, events) :=
        standing.tools.invoke platform standing.history request.name request.input
      (answer.map ToolInvokeResponse.mk,
        { standing with tools := tools, history := standing.history ++ (events ++ [.invoked request answer]) })
  | standing, .llmComplete request =>
      if standing.policy.limits.maxSteps ≤ standing.llmCalls then (.error standing.spent, standing)
      else
        let (answer, effects) := standing.llm.complete standing.history request
        (answer, { standing with
          llmCalls := standing.llmCalls + 1
          history := standing.history ++ (effects.map .model ++ [.completed request answer]) })

/-- The documents that carry the question and its answer are read back as they were: they fit the levels, and the
blocks in them are canonical. -/
def Clear (standing : Standing) : AgentOp → Prop
  | .emit _ _ => True
  | .toolsList => ∀ spec ∈ standing.tools.specs, spec.inputSchema.toJson.depth ≤ blockLevels - 1
  | .toolInvoke request => request.input.toJson.depth ≤ Decode.recursionLimit - 2
  | .llmComplete request => Understood platform request ∧ request.Canonical ∧
      ∀ response, (standing.answer platform (.llmComplete request)).1 = .ok response → response.Canonical ∧
        ∀ content ∈ response.content, content.nesting ≤ blockLevels

end Standing

/-! ### What the channel carries -/

/-- The request does not exceed the limit, and the response has a length that fits a signed word. -/
def Fitting (run : HostRun) (name : String) (body : Bytes) : Prop :=
  body.length ≤ run.data.policy.limits.maxRequestBytes ∧
    (dispatch platform run.data run.history name body).1.length < 2 ^ 31

instance (run : HostRun) (name : String) (body : Bytes) : Decidable (Fitting platform run name body) :=
  inferInstanceAs (Decidable (_ ∧ _))

def Carried (run : HostRun) : AgentOp → Prop
  | .emit _ _ => True
  | .toolsList => Fitting platform run Cap.toolsList (platform.codec.toVec (.obj []))
  | .toolInvoke request => Fitting platform run Cap.toolInvoke (platform.codec.toVec request.encode)
  | .llmComplete request => Fitting platform run Cap.llmComplete (platform.codec.toVec request.encode)

instance (run : HostRun) : ∀ op, Decidable (Carried platform run op)
  | .emit _ _ => inferInstanceAs (Decidable True)
  | .toolsList => inferInstanceAs (Decidable (Fitting ..))
  | .toolInvoke _ => inferInstanceAs (Decidable (Fitting ..))
  | .llmComplete _ => inferInstanceAs (Decidable (Fitting ..))

namespace Standing

/-- The call that a question is: the capability, the request and the response. -/
def call (standing : Standing) : AgentOp → Option (String × Bytes × Bytes)
  | .emit _ _ => none
  | .toolsList => some (Cap.toolsList, platform.codec.toVec (.obj []),
      respond platform ToolsListResponse.encode (standing.answer platform .toolsList).1)
  | .toolInvoke request => some (Cap.toolInvoke, platform.codec.toVec request.encode,
      respond platform ToolInvokeResponse.encode (standing.answer platform (.toolInvoke request)).1)
  | .llmComplete request => some (Cap.llmComplete, platform.codec.toVec request.encode,
      respond platform LlmResponse.encode (standing.answer platform (.llmComplete request)).1)

/-- The documents of the call are short enough for the channel. -/
def Carries (standing : Standing) (op : AgentOp) : Prop :=
  ∀ call ∈ standing.call platform op,
    call.2.1.length ≤ standing.policy.limits.maxRequestBytes ∧ call.2.2.length < 2 ^ 31

instance (standing : Standing) (op : AgentOp) : Decidable (standing.Carries platform op) :=
  inferInstanceAs (Decidable (∀ _ ∈ _, _))

/-- The channel carries the question at which the agent is. -/
def CarriesAt (visit : Standing × AgentProgram AgentOutput) : Prop :=
  match visit.2 with
  | .done _ => True
  | .ask op _ => visit.1.Carries platform op

instance : ∀ visit, Decidable (CarriesAt platform visit)
  | (_, .done _) => inferInstanceAs (Decidable True)
  | (standing, .ask op _) => inferInstanceAs (Decidable (standing.Carries platform op))

end Standing

/-! ### What the router comes to -/

/-- The router answers with this result in an envelope, and leaves a host of this standing. -/
def Routes {α : Type} (run : HostRun) (name : String) (body : Bytes) (encode : α → Json)
    (answer : Except CapError α × Standing) : Prop :=
  let (response, state, events) := dispatch platform run.data run.history name body
  response = respond platform encode answer.1 ∧ (HostRun.mk state (run.history ++ events)).standing = answer.2

section Routes

variable {platform} {run : HostRun}

theorem routes_toolsList : Routes platform run Cap.toolsList (platform.codec.toVec (.obj [])) ToolsListResponse.encode
    (run.standing.answer platform .toolsList) := by
  rw [Routes, Capability.dispatch_eq, Capability.ofName_toolsList]
  refine ⟨rfl, ?_⟩
  show (HostRun.mk run.data (run.history ++ [])).standing = run.standing
  rw [List.append_nil]

theorem routes_toolInvoke {request : ToolInvokeRequest}
    (hclear : run.standing.Clear platform (.toolInvoke request)) :
    Routes platform run Cap.toolInvoke (platform.codec.toVec request.encode) ToolInvokeResponse.encode
      (run.standing.answer platform (.toolInvoke request)) := by
  have hrequest : platform.codec.fromSlice "ToolInvokeRequest" ToolInvokeRequest.decode
      (platform.codec.toVec request.encode) = .ok request :=
    platform.codec.fromSlice_toVec (platform.numbers _) (ToolInvokeRequest.decode_encode hclear)
  rw [Routes, Capability.dispatch_eq, Capability.ofName_toolInvoke]
  simp only [Capability.handle, hrequest]
  exact ⟨rfl, rfl⟩

theorem routes_llmComplete {request : LlmRequest}
    (hclear : run.standing.Clear platform (.llmComplete request)) :
    Routes platform run Cap.llmComplete (platform.codec.toVec request.encode) LlmResponse.encode
      (run.standing.answer platform (.llmComplete request)) := by
  obtain ⟨hunderstood, hcanonical, _⟩ := hclear
  obtain ⟨hmessages, htools⟩ := (understood_iff request).mp hunderstood
  simp only [← Content.depth_encode] at hmessages
  have hrequest : platform.codec.fromSlice "LlmRequest" LlmRequest.decode (platform.codec.toVec request.encode) =
      .ok request := platform.codec.fromSlice_toVec (platform.numbers _) (LlmRequest.decode_encode hcanonical hmessages htools)
  rw [Routes, Capability.dispatch_eq, Capability.ofName_llmComplete]
  simp only [Capability.handle, hrequest, Standing.answer]
  by_cases hspent : run.data.policy.limits.maxSteps ≤ run.data.llmCalls
  · rw [if_pos hspent, if_pos (show run.standing.policy.limits.maxSteps ≤ run.standing.llmCalls from hspent)]
    refine ⟨rfl, ?_⟩
    show (HostRun.mk run.data (run.history ++ [])).standing = run.standing
    rw [List.append_nil]
  · rw [if_neg hspent, if_neg (show ¬ run.standing.policy.limits.maxSteps ≤ run.standing.llmCalls from hspent)]
    exact ⟨rfl, rfl⟩

/-- The response is the answer in an envelope. -/
theorem Routes.response {α : Type} {name : String} {body : Bytes} {encode : α → Json}
    {answer : Except CapError α × Standing} (h : Routes platform run name body encode answer) :
    (dispatch platform run.data run.history name body).1 = respond platform encode answer.1 := h.1

/-- A clear question is carried when its documents are short enough. -/
theorem carried_of_carries {op : AgentOp} (hclear : run.standing.Clear platform op)
    (hcarries : run.standing.Carries platform op) : Carried platform run op := by
  cases op with
  | emit level message => trivial
  | toolsList =>
      obtain ⟨hrequest, hresponse⟩ := hcarries _ rfl
      exact ⟨hrequest, routes_toolsList.response ▸ hresponse⟩
  | toolInvoke request =>
      obtain ⟨hrequest, hresponse⟩ := hcarries _ rfl
      exact ⟨hrequest, (routes_toolInvoke hclear).response ▸ hresponse⟩
  | llmComplete request =>
      obtain ⟨hrequest, hresponse⟩ := hcarries _ rfl
      exact ⟨hrequest, (routes_llmComplete hclear).response ▸ hresponse⟩

end Routes

namespace Sandbox

variable {platform} {sandbox : Sandbox} {store final : Store sandbox.Guest}

/-- A line that the agent logs changes nothing that its capabilities depend on. -/
theorem standing_of_emit {level : LogLevel} {message : String} {answer : Unit}
    (h : sandbox.agentHost platform store (.emit level message) = (.ok answer, final)) :
    final.host.standing = store.host.standing := by
  obtain ⟨_, served, hserve, hdone⟩ := Program.exec_ask_eq_ok h
  obtain ⟨placement, guest, hplace⟩ := place_of_serve hserve
  obtain ⟨logs, hlog⟩ := serve_log platform hplace
  rw [hlog] at hserve
  cases hserve
  cases hdone
  rfl

/-- What a call that fits comes to: the response is opened, and the host is as the handler leaves it. -/
theorem hostCall_fitting {α : Type} {name : String} {body : Bytes} {decode : Nat → Json → Option α}
    {answer : Except CapError α} (hname : (Text.utf8 name).length ≤ 256)
    (hfits : Fitting platform store.host name body)
    (h : (hostCall platform.codec name body decode).exec (sandbox.serve platform) store = (.ok answer, final)) :
    let (response, state, events) := dispatch platform store.host.data store.host.history name body
    answer = openResponse platform.codec name decode response ∧
      final.host.standing = (HostRun.mk state (store.host.history ++ events)).standing := by
  rcases hostCall_ok hname h with ⟨_, ⟨pending, hfinal⟩, hsmall, _⟩ | ⟨hover, _⟩
  · exact ⟨hsmall hfits.2, by rw [hfinal]; rfl⟩
  · exact absurd hfits.1 (Nat.not_le.mpr hover)

/-- The guest gets what the router has put in the envelope, when it is read from it. -/
theorem answer_of_routes {α : Type} {name : String} {body : Bytes} {decode : Nat → Json → Option α}
    {encode : α → Json} {answer : Except CapError α} {routed : Except CapError α × Standing} (hname : (Text.utf8 name).length ≤ 256)
    (hfits : Fitting platform store.host name body) (hroutes : Routes platform store.host name body encode routed)
    (hread : ∀ value, routed.1 = .ok value → decode (Decode.recursionLimit - 2) (encode value) = some value)
    (h : (hostCall platform.codec name body decode).exec (sandbox.serve platform) store = (.ok answer, final)) :
    routed = (answer, final.host.standing) := by
  obtain ⟨hopened, hstanding⟩ := hostCall_fitting hname hfits h
  obtain ⟨hresponse, hleft⟩ := hroutes
  rw [hresponse, openResponse_result platform hread] at hopened
  exact Prod.ext hopened.symm (hleft.symm.trans hstanding.symm)

/-- A question that is carried and clear gets the answer of the host without the channel. -/
theorem answer_of_agentHost {op : AgentOp} {answer : agentSignature.Answer op}
    (hcarried : Carried platform store.host op) (hclear : store.host.standing.Clear platform op)
    (h : sandbox.agentHost platform store op = (.ok answer, final)) :
    store.host.standing.answer platform op = (answer, final.host.standing) := by
  cases op with
  | emit level message => exact Prod.ext rfl (standing_of_emit h).symm
  | toolsList =>
      refine answer_of_routes (by decide) hcarried routes_toolsList ?_ h
      rintro _ ⟨⟩
      exact ToolsListResponse.decode_encode hclear
  | toolInvoke request =>
      refine answer_of_routes (by decide) hcarried (routes_toolInvoke hclear) ?_ h
      intro value _
      exact ToolInvokeResponse.decode_encode value _
  | llmComplete request =>
      refine answer_of_routes (by decide) hcarried (routes_llmComplete hclear) ?_ h
      intro response hresponse
      obtain ⟨hcanonical, hfits⟩ := hclear.2.2 response hresponse
      simp only [← Content.depth_encode] at hfits
      exact LlmResponse.decode_encode hcanonical hfits

section Visits

variable (platform)

/-- The channel carries the question at which the agent is. -/
def CarriedAt {Guest : Type} (visit : Store Guest × AgentProgram AgentOutput) : Prop :=
  match visit.2 with
  | .done _ => True
  | .ask op _ => Carried platform visit.1.host op

instance {Guest : Type} : ∀ visit : Store Guest × AgentProgram AgentOutput, Decidable (CarriedAt platform visit)
  | (_, .done _) => inferInstanceAs (Decidable True)
  | (store, .ask op _) => inferInstanceAs (Decidable (Carried platform store.host op))

/-- The questions of the agent in a run, each in the store in which it is asked. -/
def questions (sandbox : Sandbox) (policy : Policy) (llm : LlmProvider) (fresh : sandbox.Guest) (input : AgentInput) :
    List (Store sandbox.Guest × AgentProgram AgentOutput) :=
  match (Runtime.mk policy llm (sandbox.agent platform) fresh).opening platform input with
  | none => []
  | some (clamped, opened) =>
      match (sandbox.agent platform).enter opened with
      | (.error _, _) => []
      | (.ok (), entered) =>
          match sandbox.deliver platform clamped entered with
          | (.error _, _) => []
          | (.ok delivered, begun) =>
              match platform.codec.fromSlice "AgentInput" AgentInput.decode delivered.2 with
              | .error _ => []
              | .ok received => (runAgent received).visits (sandbox.agentHost platform) begun

theorem questions_of_begun {policy : Policy} {llm : LlmProvider} {fresh : sandbox.Guest} {input received : AgentInput}
    {begun : Store sandbox.Guest} (h : Begun platform sandbox policy llm fresh input received begun) :
    questions platform sandbox policy llm fresh input =
      (runAgent received).visits (sandbox.agentHost platform) begun := by
  obtain ⟨clamped, opened, entered, delivered, hopen, henter, hdeliver, hread⟩ := h
  unfold questions
  simp only [hopen, henter, hdeliver, hread]

end Visits

/-- Everything that the agent asks in the sandbox is carried, when everything that it asks of the host without the
channel is. -/
theorem carried_of_derives {input : AgentInput} {standing left : Standing} {output : AgentOutput}
    (h : Program.Derives (Standing.answer platform) (Standing.Clear platform) (runAgent input) standing output left)
    (hstanding : store.host.standing = standing)
    (hcarries : ∀ visit ∈ (runAgent input).visits (Standing.answer platform).unstopped standing,
      Standing.CarriesAt platform visit) :
    ∀ visit ∈ (runAgent input).visits (sandbox.agentHost platform) store, CarriedAt platform visit := by
  have hallowed := h.allows_of_fits (fun store : Store sandbox.Guest => store.host.standing)
    (fun store op => Carried platform store.host op) (fun standing op => standing.Carries platform op)
    (fun _ _ => carried_of_carries) (fun _ _ _ _ => answer_of_agentHost) hstanding ?_
  · rintro ⟨visited, program⟩ hmem
    cases program with
    | done result => trivial
    | ask op next => exact hallowed _ hmem op next rfl
  · intro visit hmem op next hop
    have hat := hcarries visit hmem
    rw [Standing.CarriesAt, hop] at hat
    exact hat

/-- What the agent comes to in the sandbox, when everything it asks is carried, is what it comes to without the
channel. -/
theorem result_of_derives {input : AgentInput} {standing left : Standing} {output given : AgentOutput}
    (h : Program.Derives (Standing.answer platform) (Standing.Clear platform) (runAgent input) standing output left)
    (hstanding : store.host.standing = standing)
    (hcarried : ∀ visit ∈ (runAgent input).visits (sandbox.agentHost platform) store, CarriedAt platform visit)
    (hexec : (runAgent input).exec (sandbox.agentHost platform) store = (.ok given, final)) : given = output := by
  refine (h.of_exec (fun store : Store sandbox.Guest => store.host.standing)
    (fun store op => Carried platform store.host op) (fun _ _ _ _ => answer_of_agentHost) hstanding ?_ hexec).1
  intro visit hmem op next hop
  have hat := hcarried visit hmem
  rw [CarriedAt, hop] at hat
  exact hat

/-! ### Runs -/

/-- The memory of a 32-bit module has no more bytes than addresses, and neither its code nor its allocator makes it
larger than that. -/
structure Addressable (sandbox : Sandbox) : Prop where
  compute : ∀ guest bytes, (sandbox.memory guest).length ≤ 2 ^ 32 →
    (sandbox.memory (sandbox.compute guest bytes).2).length ≤ 2 ^ 32
  allocate : ∀ guest len, (sandbox.memory guest).length ≤ 2 ^ 32 →
    (sandbox.memory (sandbox.allocate guest len).2).length ≤ 2 ^ 32

theorem addressable_bump : bump.Addressable where
  compute guest bytes hmemory := by
    show (BumpGuest.compute guest bytes).2.memory.length ≤ 2 ^ 32
    unfold BumpGuest.compute BumpGuest.burn
    cases guest.fuel with
    | zero => exact hmemory
    | succ fuel =>
        simp only
        split_ifs <;> exact hmemory
  allocate guest len hmemory := by
    show (BumpGuest.allocate guest len).2.memory.length ≤ 2 ^ 32
    unfold BumpGuest.allocate BumpGuest.burn
    cases guest.fuel with
    | zero => exact hmemory
    | succ fuel =>
        simp only
        split_ifs with hroom
        · rw [List.length_append, List.length_replicate]
          exact hroom.2.1.le
        · exact hmemory

/-- What the host has written into a memory of 32-bit addresses has a length that fits a word. -/
theorem size_of_deliver (haddress : sandbox.Addressable) (hmemory : (sandbox.memory store.guest).length ≤ 2 ^ 32)
    {input : AgentInput} {delivered : Block × Bytes}
    (h : sandbox.deliver platform input store = (.ok delivered, final)) :
    (platform.codec.toVec input.encode).length < 2 ^ 32 := by
  unfold deliver at h
  obtain ⟨ptr, allocated, halloc, h⟩ := Call.bind_eq_ok h
  by_cases hptr : ptr = 0
  · rw [if_pos hptr] at h
    cases h
  rw [if_neg hptr] at h
  obtain ⟨_, written, hwrite, _⟩ := Call.bind_eq_ok h
  obtain ⟨data, hdata, _⟩ := GuestMemory.write_ok hwrite
  have hallocated : (sandbox.memory allocated.guest).length ≤ 2 ^ 32 := by
    unfold tdsAlloc at halloc
    split_ifs at halloc
    · cases halloc
      exact hmemory
    · cases halloc
      exact absurd rfl hptr
    · obtain ⟨guest, hallocate, rfl⟩ := inGuest_ok halloc
      have hgrown := haddress.allocate store.guest (UInt32.ofNat (platform.codec.toVec input.encode).length) hmemory
      rwa [hallocate] at hgrown
  have hpos : 0 < ptr.toNat := Nat.pos_of_ne_zero fun hzero => hptr (UInt32.toNat_inj.mp hzero)
  rw [writeGuest, Option.bind_some] at hdata
  split_ifs at hdata with hinside
  have hfits : ptr.toNat + (platform.codec.toVec input.encode).length ≤ (sandbox.memory allocated.guest).length :=
    hinside
  omega

theorem readInput_of_some {ptr len : UInt32} {raw : Bytes}
    (h : readGuest (some (sandbox.memory store.guest)) ptr len = some raw) :
    sandbox.readInput ptr len store = (.ok raw, store) := by
  unfold readInput inGuest
  simp only [h]
  rfl

/-- Input that has been handed over was delivered. -/
theorem InputPassed.delivered {input : AgentInput} {entered freed allocated written returned : Store sandbox.Guest}
    {packed : UInt64} {block : Block}
    (h : InputPassed platform sandbox input entered freed packed block allocated written returned) :
    sandbox.deliver platform input entered = (.ok (block, platform.codec.toVec input.encode), written) := by
  have hptr : block.ptr ≠ 0 := (ptr_ne_of_above h.allotted.above).1
  unfold deliver
  simp only [← h.len_eq]
  rw [Call.bind_of_ok h.alloc, if_neg hptr, Call.bind_of_ok h.write, Call.bind_of_ok (readInput_of_some h.read)]
  rfl

/-- A run whose agent comes to an output is one of the agent on the clamped input, from a fresh host. -/
theorem output_of_run {policy : Policy} {llm : LlmProvider} {fresh : sandbox.Guest} {input : AgentInput}
    {report : RunReport} {output : AgentOutput} (haddress : sandbox.Addressable)
    (hfresh : (sandbox.memory fresh).length ≤ 2 ^ 32)
    (hrun : (Runtime.mk policy llm (sandbox.agent platform) fresh).run platform input = .ok report (.ok output) store) :
    report.output = output ∧ ∃ clamped begun ended tools,
      Begun platform sandbox policy llm fresh input clamped begun ∧
      (∃ maxSteps, clamp input.maxSteps 1 policy.limits.maxSteps = some maxSteps ∧
        clamped = { input with maxSteps := maxSteps }) ∧
      ToolBox.new platform policy = .ok tools ∧ begun.host = .start policy llm tools ∧
      (runAgent clamped).exec (sandbox.agentHost platform) begun = (.ok output, ended) := by
  obtain ⟨clamped, opened, entered, hopen, henter, hinvoke, rfl⟩ := Runtime.run_eq_ok platform hrun
  obtain ⟨tools, htools, rfl, maxSteps, hclamp, rfl⟩ := Runtime.opening_eq_some platform hopen
  obtain ⟨guest, hcompute, rfl⟩ := entered_ok henter
  have hmemory : (sandbox.memory guest).length ≤ 2 ^ 32 := by
    have hcomputed := haddress.compute fresh [] hfresh
    have hguest : sandbox.compute fresh [] = (.ok (), guest) := hcompute
    rwa [hguest] at hcomputed
  have hdelivers := hinvoke
  rw [invokeAgent_delivered] at hdelivers
  obtain ⟨delivered, begun, hdeliver, _⟩ := Call.bind_eq_ok hdelivers
  have hsize := size_of_deliver haddress hmemory hdeliver
  cases invokeAgent_invoked rfl hsize hinvoke with
  | handedOver own stages h =>
      have hproduced := h.produced
      rw [Program.exec_translate] at hproduced
      have hgiven : sandbox.deliver platform { input with maxSteps := maxSteps } ⟨.start policy llm tools, guest⟩ =
          (.ok (stages.input, platform.codec.toVec (AgentInput.encode { input with maxSteps := maxSteps })),
            stages.written) := h.passed.delivered
      have hhost := sandbox.quiet_deliver platform { input with maxSteps := maxSteps } ⟨.start policy llm tools, guest⟩
      rw [hgiven] at hhost
      exact ⟨rfl, _, stages.written, stages.ended, tools, ⟨_, _, _, _, hopen, henter, hgiven, h.decoded⟩,
        ⟨maxSteps, hclamp, rfl⟩, htools, hhost, hproduced⟩

end Sandbox

end TdsWasm
