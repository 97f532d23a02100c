import TdsWasm.BridgeChannel

/-! The record the host keeps of a run beside what the agent has seen of it. Every capability call of the
agent that is not stopped adds to the record what it adds to the trace: a model answer that can be
delivered is read by the agent, and a tool call that fits the limits is dispatched. -/

set_option autoImplicit false

namespace TdsWasm

variable (platform : Platform)

/-! ### What is recorded and what is seen -/

namespace History

/-- The answers of the provider that are responses, in order. -/
def okAnswers (history : History) : List LlmResponse :=
  history.filterMap fun
    | .completed _ (.ok response) => some response
    | _ => none

/-- The tool calls that were dispatched, in order. -/
def invocations (history : History) : List ToolInvokeRequest :=
  history.filterMap fun
    | .invoked request _ => some request
    | _ => none

theorem okAnswers_append (first second : History) :
    okAnswers (first ++ second) = okAnswers first ++ okAnswers second := List.filterMap_append

theorem invocations_append (first second : History) :
    invocations (first ++ second) = invocations first ++ invocations second := List.filterMap_append

end History

/-- The model response in an event of the agent. -/
def responseOf (event : AgentEvent) : Option LlmResponse :=
  match event with
  | ⟨AgentOp.llmComplete _, .ok response⟩ => some response
  | _ => none

/-- The tool request in an event of the agent. -/
def toolRequestOf (event : AgentEvent) : Option ToolInvokeRequest :=
  match event with
  | ⟨AgentOp.toolInvoke request, _⟩ => some request
  | _ => none

/-- The levels that the envelope of a response leaves for a content block. -/
def blockLevels : Nat := Decode.recursionLimit - 4

/-- A model response that the channel can carry: its length fits a signed word, and the guest can read its
blocks inside the envelope. -/
def Deliverable (response : LlmResponse) : Prop :=
  (respond platform LlmResponse.encode (.ok response)).length < 2 ^ 31 ∧
    ∀ content ∈ response.content, content.encode.depth ≤ blockLevels

instance (response : LlmResponse) : Decidable (Deliverable platform response) :=
  inferInstanceAs (Decidable (_ ∧ _))

/-- A tool request that the host looks at. -/
def Fits (policy : Policy) (request : ToolInvokeRequest) : Bool :=
  (platform.codec.toVec request.encode).length ≤ policy.limits.maxRequestBytes

/-- The trace between two states of the host tells what was recorded in between. -/
structure Recorded (before : HostRun) (trace : List AgentEvent) (after : HostRun) : Prop where
  policy_eq : after.data.policy = before.data.policy
  answers : ∃ new, after.history.okAnswers = before.history.okAnswers ++ new ∧
    trace.filterMap responseOf =
      (new.filter fun response => Deliverable platform response).map LlmResponse.reread
  depth : ∀ response ∈ trace.filterMap responseOf,
    ∀ use ∈ response.content.filterMap Content.asToolUse, use.2.2.toJson.depth < blockLevels
  invocations : (∀ request ∈ trace.filterMap toolRequestOf, request.input.toJson.depth < blockLevels) →
    after.history.invocations = before.history.invocations ++
      (trace.filterMap toolRequestOf).filter (Fits platform before.data.policy)

namespace Recorded

variable {platform} {before middle after : HostRun}

/-- Nothing but the logs, the counters, the scratchpad and the waiting response changes. -/
theorem quiet {event : AgentEvent} (hpolicy : after.data.policy = before.data.policy)
    (hanswers : after.history.okAnswers = before.history.okAnswers)
    (hinvocations : after.history.invocations = before.history.invocations)
    (hresponse : responseOf event = none)
    (hrequest : ∀ request, toolRequestOf event = some request →
      Fits platform before.data.policy request = false) :
    Recorded platform before [event] after := by
  have hnone : [event].filterMap responseOf = [] := by simp [hresponse]
  refine ⟨hpolicy, ⟨[], by simp [hanswers], hnone⟩, by simp [hnone], fun _ => ?_⟩
  rw [hinvocations]
  cases htool : toolRequestOf event with
  | none => simp [htool]
  | some request => simp [htool, hrequest request htool]

theorem nil (run : HostRun) : Recorded platform run [] run :=
  ⟨rfl, ⟨[], by simp, rfl⟩, nofun, fun _ => by simp⟩

theorem trans {first second : List AgentEvent} (hfirst : Recorded platform before first middle)
    (hsecond : Recorded platform middle second after) :
    Recorded platform before (first ++ second) after := by
  obtain ⟨new, hnew, hread⟩ := hfirst.answers
  obtain ⟨later, hlater, hreadLater⟩ := hsecond.answers
  refine ⟨hsecond.policy_eq.trans hfirst.policy_eq, ⟨new ++ later, ?_, ?_⟩, ?_, ?_⟩
  · rw [hlater, hnew, List.append_assoc]
  · rw [List.filterMap_append, List.filter_append, List.map_append, hread, hreadLater]
  · intro response hmem
    rw [List.filterMap_append, List.mem_append] at hmem
    rcases hmem with hmem | hmem
    · exact hfirst.depth response hmem
    · exact hsecond.depth response hmem
  · intro hdepth
    rw [List.filterMap_append] at hdepth
    have hleft := hfirst.invocations fun request hmem => hdepth request (List.mem_append_left _ hmem)
    have hright := hsecond.invocations fun request hmem => hdepth request (List.mem_append_right _ hmem)
    rw [hfirst.policy_eq] at hright
    rw [hright, hleft, List.filterMap_append, List.filter_append, List.append_assoc]

end Recorded

/-- A tool call enters nothing itself. -/
theorem invoke_unrecorded (tools : ToolBox) (history : History) (name : String) (input : JsonValue) :
    History.okAnswers (tools.invoke platform history name input).2.2 = [] ∧
      History.invocations (tools.invoke platform history name input).2.2 = [] := by
  constructor
  · exact ToolBox.filterMap_invoke platform (fun _ _ => rfl) tools history name input
  · exact ToolBox.filterMap_invoke platform (fun _ _ => rfl) tools history name input

/-- A completion enters its answer and no tool call. -/
theorem completion_recorded (effects : List ModelEffect) (request : LlmRequest)
    (answer : Except CapError LlmResponse) :
    History.okAnswers (effects.map .model ++ [.completed request answer]) = answer.toOption.toList ∧
      History.invocations (effects.map .model ++ [.completed request answer]) = [] := by
  constructor
  · rw [History.okAnswers_append, History.okAnswers, List.filterMap_map]
    cases answer <;> simp [History.okAnswers, Except.toOption]
  · rw [History.invocations_append, History.invocations, List.filterMap_map]
    simp [History.invocations]

/-! ### One call -/

namespace Sandbox

variable {platform} {sandbox : Sandbox} {store final : Store sandbox.Guest} {α : Type}

/-- The sandbox serves nothing that it has not laid out. -/
theorem place_of_serve {op : HostImport} {answer : importSignature.Answer op}
    (h : sandbox.serve platform store op = (.ok answer, final)) :
    ∃ placement guest, sandbox.place store.guest op = (.ok placement, guest) := by
  unfold serve at h
  cases hplace : sandbox.place store.guest op with
  | mk outcome guest =>
      cases outcome with
      | ok placement => exact ⟨placement, guest, rfl⟩
      | error trap =>
          rw [hplace] at h
          cases h

/-- However the guest fetches a response, the host is left as it was but for what waits. A response of a
length that fits a signed word is the one the guest opens; of another one it gets an error. -/
theorem receiveResponse_ok {name : String} {decode : Nat → Json → Option α} {answer : Except CapError α}
    {response : Bytes} (hne : response ≠ [])
    (h : (receiveResponse platform.codec name decode (Int32.ofNat response.length)).exec
      (sandbox.serve platform) store = (.ok answer, final))
    (hpending : store.host.data.pending = response) :
    (∃ pending, final.host = ⟨{ store.host.data with pending := pending }, store.host.history⟩) ∧
      (response.length < 2 ^ 31 → answer = openResponse platform.codec name decode response) ∧
      (2 ^ 31 ≤ response.length → ∃ e, answer = .error e) := by
  subst hpending
  unfold receiveResponse at h
  by_cases hneg : Int32.ofNat store.host.data.pending.length < 0
  · rw [if_pos hneg] at h
    cases h
    exact ⟨⟨_, rfl⟩, fun hsize => absurd hneg (Word.not_ofNat_neg hsize), fun _ => ⟨_, rfl⟩⟩
  rw [if_neg hneg] at h
  by_cases hpos : 0 < Int32.ofNat store.host.data.pending.length
  · rw [if_pos hpos] at h
    obtain ⟨read, fetched, hread, h⟩ := Program.exec_ask_eq_ok h
    obtain ⟨placement, guest, hplace⟩ := place_of_serve hread
    by_cases hsize : store.host.data.pending.length < 2 ^ 31
    · obtain ⟨memory, hdelivers⟩ := serve_delivers platform hsize hplace
      rw [hdelivers] at hread
      cases hread
      rw [if_neg (not_not.mpr rfl)] at h
      cases h
      exact ⟨⟨_, rfl⟩, fun _ => rfl, fun hlarge => absurd hsize (Nat.not_lt.mpr hlarge)⟩
    · have hlarge : 2 ^ 31 ≤ store.host.data.pending.length := Nat.not_lt.mp hsize
      obtain ⟨buffer, hrefuses⟩ :=
        serve_refuses platform (Word.toNat_ne_of_wraps hlarge hpos) hplace
      rw [hrefuses] at hread
      cases hread
      have hne : ErrorCode.badRequest ≠ Int32.ofNat store.host.data.pending.length := by
        intro heq
        rw [← heq] at hpos
        exact absurd hpos (by decide)
      rw [if_pos hne] at h
      cases h
      exact ⟨⟨_, rfl⟩, fun hsmall => absurd hsmall hsize, fun _ => ⟨_, rfl⟩⟩
  · rw [if_neg hpos] at h
    cases h
    refine ⟨⟨_, rfl⟩, fun hsize => absurd (Word.ofNat_pos (List.length_pos_iff.mpr hne) hsize) hpos,
      fun _ => openResponse_nil platform⟩

/-- What a capability call of the guest comes to when it is not stopped. -/
theorem hostCall_ok {name : String} {body : Bytes} {decode : Nat → Json → Option α}
    {answer : Except CapError α} (hname : (Text.utf8 name).length ≤ 256)
    (h : (hostCall platform.codec name body decode).exec (sandbox.serve platform) store =
      (.ok answer, final)) :
    let (response, state, events) := dispatch platform store.host.data store.host.history name body
    (body.length ≤ store.host.data.policy.limits.maxRequestBytes ∧
      (∃ pending, final.host = ⟨{ state with pending := pending }, store.host.history ++ events⟩) ∧
      (response.length < 2 ^ 31 → answer = openResponse platform.codec name decode response) ∧
      (2 ^ 31 ≤ response.length → ∃ e, answer = .error e)) ∨
    (store.host.data.policy.limits.maxRequestBytes < body.length ∧
      (∃ pending, final.host = ⟨{ store.host.data with pending := pending }, store.host.history⟩) ∧
      ∃ e, answer = .error e) := by
  obtain ⟨n, called, hcall, hreceive⟩ := Program.exec_ask_eq_ok h
  obtain ⟨placement, guest, hplace⟩ := place_of_serve hcall
  by_cases hbody : body.length ≤ store.host.data.policy.limits.maxRequestBytes
  · left
    rw [serve_request platform hname hbody hplace] at hcall
    cases hcall
    have hne : (dispatch platform store.host.data store.host.history name body).1 ≠ [] := by
      rw [Capability.dispatch_eq]
      exact respond_ne_nil platform _ _
    obtain ⟨⟨pending, hfinal⟩, hsmall, hlarge⟩ := receiveResponse_ok hne hreceive rfl
    exact ⟨hbody, ⟨pending, hfinal⟩, hsmall, hlarge⟩
  · right
    obtain ⟨e, hoversized⟩ := serve_oversized platform (Nat.not_le.mp hbody) hplace
    rw [hoversized] at hcall
    cases hcall
    have hne : respond platform encodeUnit (.error e) ≠ [] := respond_ne_nil platform _ _
    obtain ⟨⟨pending, hfinal⟩, hsmall, hlarge⟩ := receiveResponse_ok hne hreceive rfl
    refine ⟨Nat.not_le.mp hbody, ⟨pending, hfinal⟩, ?_⟩
    by_cases hsize : (respond platform encodeUnit (.error e)).length < 2 ^ 31
    · exact ⟨e, (hsmall hsize).trans (openResponse_error platform encodeUnit e)⟩
    · exact hlarge (Nat.not_lt.mp hsize)

/-- A completion that is not stopped: it fails before the provider is asked, or it is counted, and the guest gets
what it can read of the provider's answer. -/
theorem llmComplete_ok {request : LlmRequest} {answer : Except CapError LlmResponse}
    (h : (hostOp platform.codec (.llmComplete request)).exec (sandbox.serve platform) store = (.ok answer, final)) :
    (∃ e pending, answer = .error e ∧
      final.host = ⟨{ store.host.data with pending := pending }, store.host.history⟩) ∨
    ∃ asked outcome pending, ∃ effects : List ModelEffect,
      store.host.data.llmCalls < store.host.data.policy.limits.maxSteps ∧
      final.host = ⟨{ store.host.data with llmCalls := store.host.data.llmCalls + 1, pending := pending },
        store.host.history ++ (effects.map .model ++ [.completed asked outcome])⟩ ∧
      ((respond platform LlmResponse.encode outcome).length < 2 ^ 31 →
        answer = openResponse platform.codec Cap.llmComplete LlmResponse.decode
          (respond platform LlmResponse.encode outcome)) ∧
      (2 ^ 31 ≤ (respond platform LlmResponse.encode outcome).length → ∃ e, answer = .error e) := by
  have hname : (Text.utf8 Cap.llmComplete).length ≤ 256 := by decide
  have hcall := hostCall_ok hname h
  rw [Capability.dispatch_eq, Capability.ofName_llmComplete] at hcall
  -- an error of the host reaches the agent as an error
  have hfailed : ∀ e, ((respond platform LlmResponse.encode (.error e)).length < 2 ^ 31 →
        answer = openResponse platform.codec Cap.llmComplete LlmResponse.decode
          (respond platform LlmResponse.encode (.error e))) →
      (2 ^ 31 ≤ (respond platform LlmResponse.encode (.error e)).length → ∃ e, answer = .error e) →
      ∃ e, answer = .error e := by
    intro e hsmall hlarge
    by_cases hsize : (respond platform LlmResponse.encode (.error e)).length < 2 ^ 31
    · exact ⟨e, (hsmall hsize).trans (openResponse_error platform LlmResponse.encode e)⟩
    · exact hlarge (Nat.not_lt.mp hsize)
  rcases hcall with ⟨_, ⟨pending, hhost⟩, hsmall, hlarge⟩ | ⟨_, ⟨pending, hhost⟩, e, herror⟩
  · simp only [Capability.handle] at hhost hsmall hlarge
    split_ifs at hhost hsmall hlarge with hspent
    · obtain ⟨e, herror⟩ := hfailed _ hsmall hlarge
      rw [List.append_nil] at hhost
      exact Or.inl ⟨e, pending, herror, hhost⟩
    · cases hparsed : platform.codec.fromSlice "LlmRequest" LlmRequest.decode
          (platform.codec.toVec request.encode) with
      | error e =>
          simp only [hparsed] at hhost hsmall hlarge
          obtain ⟨e, herror⟩ := hfailed _ hsmall hlarge
          rw [List.append_nil] at hhost
          exact Or.inl ⟨e, pending, herror, hhost⟩
      | ok asked =>
          simp only [hparsed] at hhost hsmall hlarge
          exact Or.inr ⟨asked, _, pending, _, UInt32.not_le.mp hspent, hhost, hsmall, hlarge⟩
  · exact Or.inl ⟨e, pending, herror, hhost⟩

end Sandbox

/-! ### The calls of the agent -/

/-- The guest reads a response whose blocks fit the levels of the envelope, and no other. -/
theorem openResponse_response (name : String) (response : LlmResponse) :
    openResponse platform.codec name LlmResponse.decode (respond platform LlmResponse.encode (.ok response)) =
        .ok response.reread ∧ (∀ content ∈ response.content, content.encode.depth ≤ blockLevels) ∨
      (∃ e, openResponse platform.codec name LlmResponse.decode
        (respond platform LlmResponse.encode (.ok response)) = .error e) ∧
          ¬ ∀ content ∈ response.content, content.encode.depth ≤ blockLevels := by
  have henvelope : CapResponse.decode LlmResponse.decode (Decode.recursionLimit - 1)
      (CapResponse.encode LlmResponse.encode (.ok response)) =
        (LlmResponse.decode (blockLevels + 2) response.encode).map .ok := CapResponse.decode_ok ..
  have hresponse : respond platform LlmResponse.encode (.ok response) =
      platform.codec.toVec (CapResponse.encode LlmResponse.encode (.ok response)) := rfl
  by_cases hdepth : ∀ content ∈ response.content, content.encode.depth ≤ blockLevels
  · left
    rw [LlmResponse.decode_reread hdepth, Option.map_some] at henvelope
    rw [hresponse, openResponse, platform.codec.fromSlice_toVec (platform.numbers _) henvelope]
    exact ⟨rfl, hdepth⟩
  · right
    have hnone : LlmResponse.decode (blockLevels + 2) response.encode = none := by
      rw [← Option.not_isSome_iff_eq_none, LlmResponse.isSome_decode_encode]
      exact hdepth
    rw [hnone, Option.map_none] at henvelope
    rw [hresponse, openResponse, platform.codec.fromSlice_toVec_none (platform.numbers _) henvelope]
    exact ⟨⟨_, rfl⟩, hdepth⟩

/-- The input of a tool use that the guest has read lies inside its block. -/
theorem depth_reread {response : LlmResponse}
    (hdepth : ∀ content ∈ response.content, content.encode.depth ≤ blockLevels) :
    ∀ use ∈ response.reread.content.filterMap Content.asToolUse, use.2.2.toJson.depth < blockLevels := by
  rintro ⟨id, name, input⟩ hmem
  obtain ⟨content, hcontent, hasked⟩ := List.mem_filterMap.mp hmem
  obtain ⟨source, hsource, rfl⟩ := List.mem_map.mp hcontent
  rw [Content.reread, Content.ofBuffered] at hasked
  cases hread : KnownContent.ofBuffered source.encode with
  | none =>
      rw [hread] at hasked
      cases hasked
  | some block =>
      rw [hread] at hasked
      cases block with
      | toolUse id name input =>
          cases hasked
          exact (KnownContent.depth_input hread).trans (hdepth source hsource)
      | _ => cases hasked

namespace Recorded

variable {platform} {sandbox : Sandbox} {store final : Store sandbox.Guest}

theorem emit {level : LogLevel} {message : String} {answer : Unit}
    (h : (hostOp platform.codec (.emit level message)).exec (sandbox.serve platform) store =
      (.ok answer, final)) :
    Recorded platform store.host [⟨AgentOp.emit level message, answer⟩] final.host := by
  obtain ⟨_, _, hserve, hdone⟩ := Program.exec_ask_eq_ok h
  cases hdone
  obtain ⟨placement, guest, hplace⟩ := Sandbox.place_of_serve hserve
  obtain ⟨logs, hlog⟩ := Sandbox.serve_log platform hplace
  rw [hlog] at hserve
  cases hserve
  exact quiet rfl rfl rfl rfl nofun

theorem toolsList {answer : Except CapError ToolsListResponse}
    (h : (hostOp platform.codec .toolsList).exec (sandbox.serve platform) store = (.ok answer, final)) :
    Recorded platform store.host [⟨AgentOp.toolsList, answer⟩] final.host := by
  have hname : (Text.utf8 Cap.toolsList).length ≤ 256 := by decide
  have hcall := Sandbox.hostCall_ok hname h
  have hhost : ∃ pending, final.host = ⟨{ store.host.data with pending := pending },
      store.host.history⟩ := by
    rcases hcall with ⟨_, ⟨pending, hhost⟩, _⟩ | ⟨_, hhost, _⟩
    · rw [List.append_nil] at hhost
      exact ⟨pending, hhost⟩
    · exact hhost
  obtain ⟨pending, hhost⟩ := hhost
  rw [hhost]
  exact quiet rfl rfl rfl rfl nofun

theorem toolInvoke {request : ToolInvokeRequest} {answer : Except CapError ToolInvokeResponse}
    (h : (hostOp platform.codec (.toolInvoke request)).exec (sandbox.serve platform) store =
      (.ok answer, final)) :
    Recorded platform store.host [⟨AgentOp.toolInvoke request, answer⟩] final.host := by
  have hname : (Text.utf8 Cap.toolInvoke).length ≤ 256 := by decide
  have hcall := Sandbox.hostCall_ok hname h
  rw [Capability.dispatch_eq] at hcall
  rcases hcall with ⟨hfits, ⟨pending, hhost⟩, _⟩ | ⟨hlarge, ⟨pending, hhost⟩, _⟩
  · have hread : request.input.toJson.depth < blockLevels →
        platform.codec.fromSlice "ToolInvokeRequest" ToolInvokeRequest.decode
          (platform.codec.toVec request.encode) = .ok request := by
      intro hdepth
      apply platform.codec.fromSlice_toVec (platform.numbers _)
      show ToolInvokeRequest.decode (126 + 1) request.encode = some request
      exact ToolInvokeRequest.decode_encode (hdepth.le.trans (by decide))
    rw [Capability.ofName_toolInvoke, Capability.handle] at hhost
    cases hparsed : platform.codec.fromSlice "ToolInvokeRequest" ToolInvokeRequest.decode
        (platform.codec.toVec request.encode) with
    | error e =>
        rw [hparsed] at hhost hread
        rw [hhost]
        refine ⟨rfl, ⟨[], by simp, rfl⟩, nofun, fun hdepth => ?_⟩
        cases hread (hdepth request (List.mem_singleton.mpr rfl))
    | ok parsed =>
        rw [hparsed] at hhost hread
        rw [hhost]
        obtain ⟨hanswers, hinvocations⟩ := invoke_unrecorded platform store.host.data.tools
          store.host.history parsed.name parsed.input
        refine ⟨rfl, ⟨[], ?_, rfl⟩, nofun, fun hdepth => ?_⟩
        · rw [History.okAnswers_append, History.okAnswers_append, hanswers]
          rfl
        · cases hread (hdepth request (List.mem_singleton.mpr rfl))
          have hfit : Fits platform store.host.data.policy request = true := decide_eq_true hfits
          rw [History.invocations_append, History.invocations_append, hinvocations]
          simp [toolRequestOf, hfit, History.invocations]
  · rw [hhost]
    refine quiet rfl rfl rfl rfl ?_
    intro asked hasked
    cases hasked
    exact decide_eq_false (Nat.not_le.mpr hlarge)

/-- A completion that the provider has answered, as the agent sees it. -/
theorem completed {request asked : LlmRequest} {answer outcome : Except CapError LlmResponse}
    {effects : List ModelEffect} {before after : HostRun} (hpolicy : after.data.policy = before.data.policy)
    (hhistory : after.history =
      before.history ++ (effects.map .model ++ [.completed asked outcome]))
    (hsmall : (respond platform LlmResponse.encode outcome).length < 2 ^ 31 →
      answer = openResponse platform.codec Cap.llmComplete LlmResponse.decode
        (respond platform LlmResponse.encode outcome))
    (hlarge : 2 ^ 31 ≤ (respond platform LlmResponse.encode outcome).length →
      ∃ e, answer = .error e) :
    Recorded platform before [⟨AgentOp.llmComplete request, answer⟩] after := by
  obtain ⟨hanswers, hinvocations⟩ := completion_recorded effects asked outcome
  have hnew : after.history.okAnswers = before.history.okAnswers ++ outcome.toOption.toList := by
    rw [hhistory, History.okAnswers_append, hanswers]
  have hsame : after.history.invocations = before.history.invocations := by
    rw [hhistory, History.invocations_append, hinvocations, List.append_nil]
  have hseen : (∃ e, answer = .error e) ∧ (∀ response, outcome = .ok response →
        ¬ Deliverable platform response) ∨
      ∃ response, outcome = .ok response ∧ answer = .ok response.reread ∧
        Deliverable platform response := by
    by_cases hsize : (respond platform LlmResponse.encode outcome).length < 2 ^ 31
    · rw [hsmall hsize]
      cases outcome with
      | error e => exact Or.inl ⟨⟨e, openResponse_error platform LlmResponse.encode e⟩, nofun⟩
      | ok response =>
          rcases openResponse_response platform Cap.llmComplete response with
            ⟨hopen, hdepth⟩ | ⟨hopen, hdepth⟩
          · exact Or.inr ⟨response, rfl, hopen, hsize, hdepth⟩
          · refine Or.inl ⟨hopen, fun _ hok hdeliverable => ?_⟩
            cases hok
            exact hdepth hdeliverable.2
    · refine Or.inl ⟨hlarge (Nat.not_lt.mp hsize), fun response hok hdeliverable => ?_⟩
      rw [hok] at hsize
      exact hsize hdeliverable.1
  rcases hseen with ⟨⟨e, rfl⟩, hlost⟩ | ⟨response, rfl, rfl, hdeliverable⟩
  · refine ⟨hpolicy, ⟨_, hnew, ?_⟩, nofun, fun _ => by rw [hsame]; simp [toolRequestOf]⟩
    cases outcome with
    | error e => rfl
    | ok response =>
        rw [Except.toOption, Option.toList_some, List.filter_singleton,
          decide_eq_false (hlost response rfl)]
        rfl
  · refine ⟨hpolicy, ⟨_, hnew, ?_⟩, ?_, fun _ => by rw [hsame]; simp [toolRequestOf]⟩
    · rw [Except.toOption, Option.toList_some, List.filter_singleton, decide_eq_true hdeliverable]
      rfl
    · intro read hread
      cases List.mem_singleton.mp hread
      exact depth_reread hdeliverable.2

theorem llmComplete {request : LlmRequest} {answer : Except CapError LlmResponse}
    (h : (hostOp platform.codec (.llmComplete request)).exec (sandbox.serve platform) store =
      (.ok answer, final)) :
    Recorded platform store.host [⟨AgentOp.llmComplete request, answer⟩] final.host := by
  rcases Sandbox.llmComplete_ok h with ⟨e, pending, rfl, hhost⟩ |
    ⟨asked, outcome, pending, effects, _, hhost, hsmall, hlarge⟩
  · rw [hhost]
    exact quiet rfl rfl rfl rfl nofun
  · rw [hhost]
    exact completed rfl rfl hsmall hlarge

/-- Every question of the agent that is not stopped is recorded as the agent sees it. -/
theorem op {op : AgentOp} {answer : agentSignature.Answer op}
    (h : (hostOp platform.codec op).exec (sandbox.serve platform) store = (.ok answer, final)) :
    Recorded platform store.host [⟨op, answer⟩] final.host := by
  cases op with
  | emit level message => exact emit h
  | toolsList => exact toolsList h
  | toolInvoke request => exact toolInvoke h
  | llmComplete request => exact llmComplete h

/-- So is every run of questions. -/
theorem served {trace : List AgentEvent}
    (h : Program.Served (Program.through (sandbox.serve platform) (hostOp platform.codec)) store trace
      final) : Recorded platform store.host trace final.host := by
  induction h with
  | nil state => exact nil state.host
  | cons hop _ ih => exact trans (op hop) ih

end Recorded

end TdsWasm
