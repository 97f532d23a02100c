import TdsWasm.AgentAudit
import TdsWasm.BridgeTransparent
import TdsWasm.SecurityLogs

/-! The log of a run as its audit trail. The host keeps what the agent logs whether or not the agent comes to an
output, and the agent logs each tool that it is about to call: what the lines announce is what has been dispatched,
but for requests that were too large and for the call at which guest code was stopped. -/

set_option autoImplicit false

namespace TdsWasm

variable {platform : Platform}

/-! ### Lines -/

/-- Lines beyond a bound do not matter to the lines within it. -/
theorem take_take_append {α : Type} (n : Nat) (first second : List α) :
    (first.take n ++ second).take n = (first ++ second).take n := by
  rcases Nat.le_total first.length n with hle | hge
  · rw [List.take_of_length_le hle]
  · rw [List.take_append_of_le_length (by rw [List.length_take, Nat.min_eq_left hge]), List.take_take, Nat.min_self,
      List.take_append_of_le_length hge]

/-- A line is kept while there is room. -/
theorem take_append_toList {α : Type} {n : Nat} {lines : List α} (hle : lines.length ≤ n) (line : Option α) :
    (if lines.length < n then lines ++ line.toList else lines) = (lines ++ line.toList).take n := by
  split_ifs with hroom
  · have hone : line.toList.length ≤ 1 := by cases line <;> simp
    rw [List.take_of_length_le]
    rw [List.length_append]
    omega
  · rw [List.take_append_of_le_length (Nat.not_lt.mp hroom), List.take_of_length_le hle]

theorem LogLevel.fromI32_toI32 (level : LogLevel) : LogLevel.fromI32 level.toI32 = level := by
  cases level <;> rfl

/-- A shorter range holds the first of the bytes. -/
theorem readGuest_min {memory : Bytes} {ptr bound : UInt32} {bytes : Bytes} (hsize : bytes.length < 2 ^ 32)
    (h : readGuest (some memory) ptr (UInt32.ofNat bytes.length) = some bytes) :
    readGuest (some memory) ptr (min (UInt32.ofNat bytes.length) bound) = some (bytes.take bound.toNat) := by
  have hlen : (UInt32.ofNat bytes.length).toNat = bytes.length := UInt32.toNat_ofNat_of_lt' hsize
  unfold readGuest at h ⊢
  rw [Option.bind_some, hlen] at h
  rw [Option.bind_some, Word.toNat_min, hlen]
  split_ifs at h with hinside
  rw [if_pos (by omega)]
  conv_rhs => rw [← Option.some.inj h]
  rw [List.take_take, Nat.min_comm]

namespace Sandbox

variable {sandbox : Sandbox} {store final : Store sandbox.Guest} {α : Type}

/-- Guest code that is stopped before it reaches a host function leaves the host as it is. -/
theorem host_of_stopped {op : HostImport} {failure : Failure}
    (h : sandbox.serve platform store op = (.error failure, final)) : final.host = store.host := by
  unfold serve at h
  cases hplace : sandbox.place store.guest op with
  | mk outcome guest =>
      rw [hplace] at h
      cases outcome with
      | ok placement => cases h
      | error trap =>
          cases h
          rfl

/-- A line of the guest is kept while there is room. -/
theorem logs_log {level : Int32} {message : Bytes}
    (h : sandbox.serve platform store (.log level message) = (.ok (), final)) :
    final.host.data.logs = if store.host.data.logs.length < Caller.maxLogLines then store.host.data.logs ++
      [⟨(LogLevel.fromI32 level).asStr, Text.fromUtf8Lossy (message.take Caller.maxLogBytes.toNat)⟩]
      else store.host.data.logs := by
  obtain ⟨placement, guest, hplace⟩ := place_of_serve h
  obtain ⟨hsize, hread⟩ := sandbox.place_holds _ _ _ _ hplace
  have hline : (placement.move (.log level message)).line =
      some ⟨(LogLevel.fromI32 level).asStr, Text.fromUtf8Lossy (message.take Caller.maxLogBytes.toNat)⟩ :=
    congrArg (Option.map _) (readGuest_min hsize hread)
  have hstep := HostRun.logs_step platform store.host (placement.move (.log level message))
  rw [hline] at hstep
  unfold serve at h
  rw [hplace] at h
  cases h
  exact hstep

/-- No other host function adds a line. -/
theorem logs_serve {op : HostImport} (hop : ∀ level message, op ≠ .log level message) :
    (sandbox.serve platform store op).2.host.data.logs = store.host.data.logs := by
  unfold serve
  cases sandbox.place store.guest op with
  | mk outcome guest =>
      cases outcome with
      | error trap => rfl
      | ok placement =>
          apply HostRun.logs_quiet platform store.host
          cases op with
          | log level message => exact absurd rfl (hop level message)
          | call name request => exact nofun
          | responseRead len => exact nofun

variable (platform) in
/-- A call of a capability logs nothing, also when it is stopped. -/
theorem logs_hostCall (name : String) (body : Bytes) (decode : Nat → Json → Option α) (store : Store sandbox.Guest) :
    ((hostCall platform.codec name body decode).exec (sandbox.serve platform) store).2.host.data.logs =
      store.host.data.logs := by
  have honly : (hostCall platform.codec name body decode).Only
      fun op => ∀ level message, op ≠ HostImport.log level message := by
    refine ⟨nofun, fun n => ?_⟩
    apply (only_receiveResponse platform name decode n).mono
    rintro _ ⟨len, rfl⟩
    exact nofun
  apply Program.Only.exec (fun before after : Store sandbox.Guest => after.host.data.logs = before.host.data.logs) honly
  · exact fun _ => rfl
  · exact fun hfirst hsecond => hsecond.trans hfirst
  · exact fun store op hop => logs_serve hop

/-- A question that is stopped adds no line. -/
theorem logs_stopped {op : AgentOp} {failure : Failure}
    (h : sandbox.agentHost platform store op = (.error failure, final)) :
    final.host.data.logs = store.host.data.logs := by
  have hcall : ∀ {α : Type} (name : String) (body : Bytes) (decode : Nat → Json → Option α),
      (hostCall platform.codec name body decode).exec (sandbox.serve platform) store = (.error failure, final) →
        final.host.data.logs = store.host.data.logs := by
    intro α name body decode hexec
    have hlogs := logs_hostCall platform name body decode store
    rw [hexec] at hlogs
    exact hlogs
  cases op with
  | emit level message =>
      unfold agentHost Program.through hostOp Program.exec at h
      cases hlog : sandbox.serve platform store (.log level.toI32 (Text.utf8 message)) with
      | mk outcome logged =>
          rw [hlog] at h
          cases outcome with
          | ok answer => cases h
          | error stop =>
              cases h
              rw [host_of_stopped hlog]
  | toolsList => exact hcall _ _ _ h
  | toolInvoke request => exact hcall _ _ _ h
  | llmComplete request => exact hcall _ _ _ h

/-- A question that is answered adds its line, if it is one. -/
theorem logs_answered {op : AgentOp} {answer : agentSignature.Answer op}
    (hle : store.host.data.logs.length ≤ Caller.maxLogLines)
    (h : sandbox.agentHost platform store op = (.ok answer, final)) :
    final.host.data.logs = (store.host.data.logs ++ (lineOf ⟨op, answer⟩).toList).take Caller.maxLogLines := by
  have hcall : ∀ {α : Type} (name : String) (body : Bytes) (decode : Nat → Json → Option α) {value : Except CapError α},
      (hostCall platform.codec name body decode).exec (sandbox.serve platform) store = (.ok value, final) →
        final.host.data.logs = (store.host.data.logs ++ (none : Option LogLine).toList).take Caller.maxLogLines := by
    intro α name body decode value hexec
    have hlogs := logs_hostCall platform name body decode store
    rw [hexec] at hlogs
    rw [Option.toList_none, List.append_nil, List.take_of_length_le hle]
    exact hlogs
  cases op with
  | emit level message =>
      obtain ⟨_, _, hserve, hdone⟩ := Program.exec_ask_eq_ok h
      cases hdone
      have hlog := logs_log hserve
      rw [LogLevel.fromI32_toI32] at hlog
      exact hlog.trans (take_append_toList hle (some (keptLine level message)))
  | toolsList => exact hcall _ _ _ h
  | toolInvoke request => exact hcall _ _ _ h
  | llmComplete request => exact hcall _ _ _ h

/-- The lines of a run of questions, as far as there is room for them. -/
theorem logs_served {trace : List AgentEvent} (hle : store.host.data.logs.length ≤ Caller.maxLogLines)
    (h : Program.Served (sandbox.agentHost platform) store trace final) :
    final.host.data.logs = (store.host.data.logs ++ trace.filterMap lineOf).take Caller.maxLogLines := by
  induction h with
  | nil store => rw [List.filterMap_nil, List.append_nil, List.take_of_length_le hle]
  | @cons store middle final op answer trace hop _ ih =>
      have hone := logs_answered hle hop
      have hsplit : (⟨op, answer⟩ :: trace : List AgentEvent).filterMap lineOf =
          (lineOf ⟨op, answer⟩).toList ++ trace.filterMap lineOf := by
        rw [List.filterMap_cons]
        cases lineOf ⟨op, answer⟩ <;> rfl
      have hfits : middle.host.data.logs.length ≤ Caller.maxLogLines := by
        rw [hone]
        exact List.length_take_le _ _
      rw [ih hfits, hone, take_take_append, List.append_assoc, hsplit]

/-! ### Tool calls at which guest code is stopped -/

/-- A call that is stopped has not been dispatched, or has been dispatched and entered what it has come to. -/
theorem history_of_stopped {name : String} {body : Bytes} {decode : Nat → Json → Option α} {failure : Failure}
    (hname : (Text.utf8 name).length ≤ 256)
    (h : (hostCall platform.codec name body decode).exec (sandbox.serve platform) store = (.error failure, final)) :
    final.host.history = store.host.history ∨
      body.length ≤ store.host.data.policy.limits.maxRequestBytes ∧
        final.host.history = store.host.history ++
          (dispatch platform store.host.data store.host.history name body).2.2 := by
  have hreceive : ∀ (n : Int32) (called : Store sandbox.Guest),
      (receiveResponse platform.codec name decode n).exec (sandbox.serve platform) called = (.error failure, final) →
        final.host.history = called.host.history := by
    intro n called hexec
    have hstanding : ((receiveResponse platform.codec name decode n).exec (sandbox.serve platform) called).2.host.standing =
        called.host.standing := standing_receiveResponse name decode n called
    rw [hexec] at hstanding
    exact congrArg Standing.history hstanding
  unfold hostCall Program.exec at h
  cases hserve : sandbox.serve platform store (.call (Text.utf8 name) body) with
  | mk outcome called =>
      rw [hserve] at h
      cases outcome with
      | error stop =>
          cases h
          rw [host_of_stopped hserve]
          exact Or.inl rfl
      | ok n =>
          have hsame := hreceive n called h
          obtain ⟨placement, guest, hplace⟩ := place_of_serve hserve
          by_cases hbody : body.length ≤ store.host.data.policy.limits.maxRequestBytes
          · rw [serve_request platform hname hbody hplace] at hserve
            cases hserve
            exact Or.inr ⟨hbody, hsame⟩
          · obtain ⟨e, hoversized⟩ := serve_oversized platform (Nat.not_le.mp hbody) hplace
            rw [hoversized] at hserve
            cases hserve
            exact Or.inl hsame

end Sandbox

/-- A tool call that the host can read is dispatched, and nothing else is. -/
theorem invocations_toolInvoke {state : HostState} {history : History} {request : ToolInvokeRequest}
    (hdepth : request.input.toJson.depth < blockLevels) :
    History.invocations (dispatch platform state history Cap.toolInvoke
      (platform.codec.toVec request.encode)).2.2 = [request] := by
  have hread : platform.codec.fromSlice "ToolInvokeRequest" ToolInvokeRequest.decode
      (platform.codec.toVec request.encode) = .ok request := by
    apply platform.codec.fromSlice_toVec (platform.numbers _)
    show ToolInvokeRequest.decode (126 + 1) request.encode = some request
    exact ToolInvokeRequest.decode_encode (hdepth.le.trans (by decide))
  rw [Capability.dispatch_eq, Capability.ofName_toolInvoke, Capability.handle, hread]
  show History.invocations (_ ++ _) = _
  rw [History.invocations_append, (invoke_unrecorded platform state.tools history request.name request.input).2]
  rfl

theorem invocations_toolsList (state : HostState) (history : History) (body : Bytes) :
    History.invocations (dispatch platform state history Cap.toolsList body).2.2 = [] := by
  rw [Capability.dispatch_eq]
  rfl

theorem invocations_llmComplete (state : HostState) (history : History) (body : Bytes) :
    History.invocations (dispatch platform state history Cap.llmComplete body).2.2 = [] := by
  rw [Capability.dispatch_eq, Capability.ofName_llmComplete, Capability.handle]
  split_ifs
  · rfl
  · cases platform.codec.fromSlice "LlmRequest" LlmRequest.decode body with
    | error e => rfl
    | ok asked => exact (completion_recorded _ asked _).2

/-- A question that is stopped enters the tool call that it asks for, or none. -/
theorem invocations_stopped {sandbox : Sandbox} {store final : Store sandbox.Guest} {op : AgentOp} {failure : Failure}
    (h : sandbox.agentHost platform store op = (.error failure, final)) :
    final.host.history.invocations = store.host.history.invocations ∨
      ∃ request, op = .toolInvoke request ∧ Fits platform store.host.data.policy request = true ∧
        (request.input.toJson.depth < blockLevels →
          final.host.history.invocations = store.host.history.invocations ++ [request]) := by
  cases op with
  | emit level message =>
      left
      unfold Sandbox.agentHost Program.through hostOp Program.exec at h
      cases hlog : sandbox.serve platform store (.log level.toI32 (Text.utf8 message)) with
      | mk outcome logged =>
          rw [hlog] at h
          cases outcome with
          | ok answer => cases h
          | error stop =>
              cases h
              rw [Sandbox.host_of_stopped hlog]
  | toolsList =>
      left
      rcases Sandbox.history_of_stopped (by decide) h with hsame | ⟨_, hentered⟩
      · rw [hsame]
      · rw [hentered, History.invocations_append, invocations_toolsList, List.append_nil]
  | llmComplete request =>
      left
      rcases Sandbox.history_of_stopped (by decide) h with hsame | ⟨_, hentered⟩
      · rw [hsame]
      · rw [hentered, History.invocations_append, invocations_llmComplete, List.append_nil]
  | toolInvoke request =>
      rcases Sandbox.history_of_stopped (by decide) h with hsame | ⟨hfits, hentered⟩
      · rw [hsame]
        exact Or.inl rfl
      · refine Or.inr ⟨request, rfl, decide_eq_true hfits, fun hdepth => ?_⟩
        rw [hentered, History.invocations_append, invocations_toolInvoke hdepth]

/-! ### The trail of a run -/

/-- What the log tells about the tool calls of the agent. The lines that announce calls are those of the calls that it
has made, all of them while the log has room; dispatched were those of them that the host accepts, but perhaps for
the last. -/
structure AuditTrail (platform : Platform) (policy : Policy) (made : List (UInt32 × ToolInvokeRequest))
    (logs : List LogLine) (history : History) : Prop where
  announces : logs.filter LogLine.announces <+: made.map announced
  announces_all : logs.length < Caller.maxLogLines → logs.filter LogLine.announces = made.map announced
  dispatches : history.invocations = (made.map Prod.snd).filter (Fits platform policy) ∨
    history.invocations = (made.dropLast.map Prod.snd).filter (Fits platform policy)

namespace AuditTrail

variable {policy : Policy} {made : List (UInt32 × ToolInvokeRequest)} {lines logs : List LogLine} {history : History}

/-- The lines of a trace, as far as the host has kept them. -/
theorem of_lines (hlogs : logs = lines.take Caller.maxLogLines)
    (hlines : lines.filter LogLine.announces = made.map announced)
    (hdispatches : history.invocations = (made.map Prod.snd).filter (Fits platform policy) ∨
      history.invocations = (made.dropLast.map Prod.snd).filter (Fits platform policy)) :
    AuditTrail platform policy made logs history := by
  refine ⟨?_, fun hroom => ?_, hdispatches⟩
  · rw [hlogs, ← hlines]
    exact (List.take_prefix _ _).filter _
  · rw [hlogs, List.length_take] at hroom
    rw [hlogs, List.take_of_length_le (by omega), hlines]

theorem nil (hlogs : logs = []) (hhistory : history = []) : AuditTrail platform policy [] logs history := by
  rw [hlogs, hhistory]
  exact ⟨List.nil_prefix, fun _ => rfl, Or.inl rfl⟩

end AuditTrail

/-- Every question of the agent fails. -/
def failing : (op : AgentOp) → agentSignature.Answer op
  | .emit _ _ => ()
  | .toolsList => .error (.upstream "")
  | .toolInvoke _ => .error (.upstream "")
  | .llmComplete _ => .error (.upstream "")

section Trails

variable {sandbox : Sandbox} {store final : Store sandbox.Guest} {policy : Policy} {llm : LlmProvider} {tools : ToolBox}
  {received : AgentInput}

/-- When the agent starts, the host is as the run has opened it. -/
theorem Begun.fresh {fresh : sandbox.Guest} {input : AgentInput} {begun : Store sandbox.Guest}
    (h : Begun platform sandbox policy llm fresh input received begun) :
    ∃ tools, begun.host = .start policy llm tools := by
  obtain ⟨clamped, opened, entered, delivered, hopen, henter, hdeliver, _⟩ := h
  obtain ⟨tools, _, rfl, _⟩ := Runtime.opening_eq_some platform hopen
  have hhost := sandbox.quiet_deliver platform clamped entered
  rw [hdeliver] at hhost
  exact ⟨tools, hhost.trans (Sandbox.entered_host henter)⟩

/-- The inputs of the tools that a run of the agent asks for are parts of what the model has answered in it. -/
theorem depth_of_yields {trace rest : List AgentEvent} {output : AgentOutput} {before after : HostRun}
    (hyields : (runAgent received).Yields (trace ++ rest) output) (hrecorded : Recorded platform before trace after)
    (hrest : rest.filterMap responseOf = []) :
    ∀ request ∈ (trace ++ rest).filterMap toolRequestOf, request.input.toJson.depth < blockLevels := by
  obtain ⟨list, turns, stop, hcalls, hreference, haccounts⟩ := yields_runAgent hyields
  intro request hmem
  rw [toolRequests_eq hcalls, mem_requests (accounted_of_referenceRun hreference haccounts)] at hmem
  obtain ⟨response, hresponse, _, use, huse, rfl⟩ := hmem
  rw [← responses_eq hcalls, List.filterMap_append, hrest, List.append_nil] at hresponse
  exact hrecorded.depth response hresponse use huse

theorem depth_of_yields_all {trace : List AgentEvent} {output : AgentOutput} {before after : HostRun}
    (hyields : (runAgent received).Yields trace output) (hrecorded : Recorded platform before trace after) :
    ∀ request ∈ trace.filterMap toolRequestOf, request.input.toJson.depth < blockLevels := by
  rw [← List.append_nil trace] at hyields ⊢
  exact depth_of_yields hyields hrecorded rfl

/-- An agent that comes to its output leaves the trail of the calls that it reports. -/
theorem trail_of_yields {trace : List AgentEvent} {output : AgentOutput}
    (hstart : store.host = .start policy llm tools) (hyields : (runAgent received).Yields trace output)
    (hserved : Program.Served (sandbox.agentHost platform) store trace final) :
    AuditTrail platform policy (output.toolCalls.map ToolCallRecord.called) final.host.data.logs final.host.history ∧
      final.host.history.invocations =
        (output.toolCalls.map ToolCallRecord.request).filter (Fits platform policy) := by
  have haudited := audited_runAgent hyields
  have hrecorded := Recorded.served hserved
  have hlogs := Sandbox.logs_served (by rw [hstart]; exact Nat.zero_le _) hserved
  have hdepth := depth_of_yields_all hyields hrecorded
  have hinvocations := hrecorded.invocations hdepth
  rw [hstart] at hlogs hinvocations
  rw [haudited.requests_eq] at hinvocations
  refine ⟨.of_lines hlogs haudited.lines_eq (Or.inl hinvocations), ?_⟩
  rw [List.map_map] at hinvocations
  exact hinvocations

/-- An agent that is stopped leaves the trail of the calls that it has made until then. -/
theorem trail_of_stopped {failure : Failure} (hstart : store.host = .start policy llm tools)
    (h : (runAgent received).exec (sandbox.agentHost platform) store = (.error failure, final)) :
    ∃ made, AuditTrail platform policy made final.host.data.logs final.host.history := by
  obtain ⟨trace, op, next, middle, hleaves, hserved, hstop⟩ := Program.stopped_of_exec h
  have hyields := hleaves.yields failing
  have hrecorded := Recorded.served hserved
  have hlogs := Sandbox.logs_served (by rw [hstart]; exact Nat.zero_le _) hserved
  have hsilent : ((Program.ask op next).asked failing).filterMap responseOf = [] := by
    rw [List.filterMap_eq_nil_iff]
    rintro ⟨op, answer⟩ hmem
    have hanswer : answer = failing op := Program.answer_of_mem_asked hmem
    rw [hanswer]
    cases op <;> rfl
  have hdepth := depth_of_yields hyields hrecorded hsilent
  obtain ⟨made, -, hlines, hmade⟩ := Audited.stopped (audited_runAgent hyields)
  have hinvocations := hrecorded.invocations fun request hmem => hdepth request (by
    rw [List.filterMap_append]
    exact List.mem_append_left _ hmem)
  have hpolicy : middle.host.data.policy = policy := hrecorded.policy_eq.trans (by rw [hstart]; rfl)
  rw [hstart] at hlogs hinvocations
  refine ⟨made, .of_lines ((Sandbox.logs_stopped hstop).trans hlogs) hlines ?_⟩
  have hended := invocations_stopped hstop
  rw [hpolicy] at hended
  rcases hmade with ⟨hrequests, hother⟩ | ⟨before, step, request, rfl, hrequests, rfl⟩
  · left
    rw [hrequests] at hinvocations
    rcases hended with hsame | ⟨request, hop, _⟩
    · exact hsame.trans hinvocations
    · exact absurd hop (hother request)
  · rw [hrequests] at hinvocations
    rcases hended with hsame | ⟨_, ⟨⟩, hfits, hdispatched⟩
    · right
      rw [List.dropLast_concat]
      exact hsame.trans hinvocations
    · left
      have hasked : request.input.toJson.depth < blockLevels := by
        apply hdepth
        rw [List.filterMap_append]
        exact List.mem_append_right _ (List.mem_cons_self ..)
      rw [hdispatched hasked, hinvocations, List.map_append, List.filter_append, List.map_singleton,
        List.filter_cons_of_pos hfits]
      rfl

/-- The output of an agent that has come to it, and its trail. -/
theorem trail_of_output {raw : Bytes} {own : AgentOutput} (hstart : store.host = .start policy llm tools)
    (h : sandbox.agentOutput platform raw store = (.ok own, final)) :
    AuditTrail platform policy (own.toolCalls.map ToolCallRecord.called) final.host.data.logs final.host.history ∧
      final.host.history.invocations = (own.toolCalls.map ToolCallRecord.request).filter (Fits platform policy) ∧
      ∀ call ∈ own.toolCalls, call.input.toJson.depth < blockLevels := by
  unfold Sandbox.agentOutput at h
  cases hparsed : platform.codec.fromSlice "AgentInput" AgentInput.decode raw with
  | error e =>
      simp only [hparsed] at h
      cases h
      rw [hstart]
      exact ⟨.nil rfl rfl, rfl, nofun⟩
  | ok received =>
      simp only [hparsed] at h
      rw [Program.exec_translate] at h
      obtain ⟨trace, hyields, hserved⟩ := Program.served_of_exec h
      obtain ⟨htrail, hinvocations⟩ := trail_of_yields hstart hyields hserved
      refine ⟨htrail, hinvocations, fun call hmem => ?_⟩
      apply depth_of_yields_all hyields (Recorded.served hserved) call.request
      rw [(audited_runAgent hyields).requests_eq, List.map_map]
      exact List.mem_map_of_mem hmem

end Trails

/-- **The log of a run is its audit trail.** Wherever guest code is stopped and whatever the model has answered, the
lines of the report that announce tool calls are those of the calls that the agent has made, in order, all of them
while there are fewer lines than the log can hold; and what the host has dispatched are the calls so announced that
it accepts, but perhaps for the last. When the agent comes to an output, they are the calls that it reports. -/
theorem log_is_audit_trail (platform : Platform) (sandbox : Sandbox) (policy : Policy) (llm : LlmProvider)
    (fresh : sandbox.Guest) (input : AgentInput) (report : RunReport) (result : Except Failure AgentOutput)
    (store : Store sandbox.Guest)
    (hrun : (Runtime.mk policy llm (sandbox.agent platform) fresh).run platform input = .ok report result store) :
    ∃ made, AuditTrail platform policy made report.logs store.host.history ∧
      ∀ own, result = .ok own → made = report.output.toolCalls.map ToolCallRecord.called ∧
        store.host.history.invocations =
          (report.output.toolCalls.map ToolCallRecord.request).filter (Fits platform policy) := by
  obtain ⟨clamped, opened, entered, hopen, henter, hinvoke, rfl⟩ := Runtime.run_eq_ok platform hrun
  obtain ⟨tools, _, rfl, _⟩ := Runtime.opening_eq_some platform hopen
  have hentered : entered.host = .start policy llm tools := Sandbox.entered_host henter
  cases result with
  | ok output =>
      obtain ⟨raw, written, own, ended, hhost, houtput, hended, hdecoded⟩ := Sandbox.invokeAgent_ok hinvoke
      obtain ⟨htrail, hinvocations, hdepth⟩ := trail_of_output (hhost.trans hentered) houtput
      have hread : AgentOutput.decode (Decode.recursionLimit - 1) own.encode = some own :=
        AgentOutput.decode_encode fun call hmem => Nat.le_of_lt (hdepth call hmem)
      rw [platform.codec.fromSlice_toVec (platform.numbers _) hread] at hdecoded
      cases hdecoded
      rw [← hended] at htrail hinvocations
      exact ⟨_, htrail, fun _ _ => ⟨rfl, hinvocations⟩⟩
  | error failure =>
      suffices htrail : ∃ made, AuditTrail platform policy made store.host.data.logs store.host.history by
        obtain ⟨made, htrail⟩ := htrail
        exact ⟨made, htrail, nofun⟩
      rcases host_of_run hrun with ⟨tools, hhost⟩ | ⟨received, begun, hbegun, hhost⟩
      · rw [hhost]
        exact ⟨[], .nil rfl rfl⟩
      · obtain ⟨tools, hstart⟩ := hbegun.fresh
        rw [hhost]
        cases hexec : (runAgent received).exec (sandbox.agentHost platform) begun with
        | mk outcome final =>
            cases outcome with
            | error stop => exact trail_of_stopped hstart hexec
            | ok own =>
                obtain ⟨trace, hyields, hserved⟩ := Program.served_of_exec hexec
                exact ⟨_, (trail_of_yields hstart hyields hserved).1⟩

theorem called_scratchOutput : (scratchOutput.toolCalls.map ToolCallRecord.called).map
    (fun call => (call.1.toNat, call.2.name)) = [(1, "kv_put"), (1, "kv_get")] := by decide +kernel

theorem log_is_audit_trail_scratch : ∃ report result store made, scratchRun = .ok report result store ∧
    AuditTrail stillPlatform scratchPolicy made report.logs store.host.history ∧
    made.map (fun call => (call.1.toNat, call.2.name)) = [(1, "kv_put"), (1, "kv_get")] := by
  obtain ⟨left, hdirect⟩ := direct_scratch
  obtain ⟨report, output, store, hok, _⟩ := exists_scratchRun
  obtain ⟨made, htrail, hreports⟩ := log_is_audit_trail stillPlatform .bump scratchPolicy
    (MockProvider.toProvider stillPlatform) scratchGuest scratchInput report (.ok output) store hok
  obtain ⟨rfl, _⟩ := hreports output rfl
  obtain ⟨hsame, _⟩ := hdirect.ended Sandbox.addressable_bump Sandbox.wasm32_bump (by decide) opening_scratch hok
  rw [hsame] at htrail
  exact ⟨report, .ok output, store, _, hok, htrail, called_scratchOutput⟩

end TdsWasm
