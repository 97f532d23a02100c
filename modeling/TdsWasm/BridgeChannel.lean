import TdsWasm.AbiRoundTrip
import TdsWasm.AgentSandbox
import TdsWasm.SecurityPending

/-! The capability channel from end to end: what the agent's `host_call` gets for a request is what the
handler of the host has computed for it, and the response is gone once it has been read. -/

set_option autoImplicit false

namespace TdsWasm

variable (platform : Platform)

/-! ### Envelopes -/

/-- A response is never empty. -/
theorem respond_ne_nil {α : Type} (encodeValue : α → Json) (result : Except CapError α) :
    respond platform encodeValue result ≠ [] := by
  unfold respond
  exact platform.codec.toVec_ne_nil (platform.numbers _)

namespace Capability

def decode : (cap : Capability) → Nat → Json → Option cap.Response
  | toolsList => ToolsListResponse.decode
  | toolInvoke => ToolInvokeResponse.decode
  | llmComplete => LlmResponse.decode
  | other _ => fun _ j => match j with
    | .null => some ()
    | _ => none

/-- The document that carries the result of a handler. -/
def envelope (cap : Capability) (result : Except CapError cap.Response) : Json :=
  CapResponse.encode cap.encode (match result with
    | .ok value => .ok value
    | .error error => .err error)

/-- A result whose raw content blocks do not read as blocks of a known kind. Only model turns carry
content. -/
def Canonical : (cap : Capability) → Except CapError cap.Response → Prop
  | llmComplete, .ok response => LlmResponse.Canonical response
  | _, _ => True

/-- A value whose document fits the levels inside the envelope is read from it. -/
theorem decode_encode {cap : Capability} {value : cap.Response} (hcanonical : cap.Canonical (.ok value))
    (hdepth : (cap.encode value).depth ≤ 126) : cap.decode 126 (cap.encode value) = some value := by
  cases cap with
  | toolsList =>
      show ToolsListResponse.decode (123 + 3) (ToolsListResponse.encode value) = some value
      apply ToolsListResponse.decode_encode
      intro spec hmem
      have htools := Json.depth_obj_le.mp hdepth _ (List.mem_singleton.mpr rfl)
      have hspec := Json.depth_arr_le.mp htools _ (List.mem_map_of_mem hmem)
      exact Json.depth_obj_le.mp hspec ("input_schema", spec.inputSchema.toJson) (by simp)
  | toolInvoke => exact ToolInvokeResponse.decode_encode value 125
  | llmComplete =>
      show LlmResponse.decode (124 + 2) (LlmResponse.encode value) = some value
      apply LlmResponse.decode_encode hcanonical
      intro content hmem
      have hcontent := Json.depth_obj_le.mp hdepth
        ("content", .arr (value.content.map Content.encode)) (by simp)
      exact Json.depth_arr_le.mp hcontent _ (List.mem_map_of_mem hmem)
  | other name => rfl

end Capability

section Opening

variable {α : Type} {name : String} {decode : Nat → Json → Option α}

/-- An error is read from the envelope at any type. -/
theorem openResponse_error {β : Type} (encodeValue : β → Json) (e : CapError) :
    openResponse platform.codec name decode (respond platform encodeValue (.error e)) = .error e := by
  have hread : CapResponse.decode decode (Decode.recursionLimit - 1)
      (CapResponse.encode encodeValue (.err e)) = some (.err e) := by
    simp [CapResponse.decode, CapResponse.encode, Decode.newtypeVariant, Decode.recursionLimit,
      CapError.decode_encode]
  show openResponse platform.codec name decode
    (platform.codec.toVec (CapResponse.encode encodeValue (.err e))) = _
  rw [openResponse, platform.codec.fromSlice_toVec (platform.numbers _) hread]
  rfl

/-- The guest finds in the envelope what was put into it, when the value in it decodes to itself. -/
theorem openResponse_result {encode : α → Json} {result : Except CapError α}
    (hread : ∀ value, result = .ok value → decode (Decode.recursionLimit - 2) (encode value) = some value) :
    openResponse platform.codec name decode (respond platform encode result) = result := by
  cases result with
  | error e => exact openResponse_error platform encode e
  | ok value =>
      have henvelope : CapResponse.decode decode (125 + 2) (CapResponse.encode encode (.ok value)) =
          some (.ok value) := by
        apply CapResponse.decode_encode
        intro _ hok
        cases hok
        exact hread value rfl
      show openResponse platform.codec name decode (platform.codec.toVec (CapResponse.encode encode (.ok value))) = _
      rw [openResponse, platform.codec.fromSlice_toVec (platform.numbers _) henvelope]
      rfl

/-- What the handler computed is read from its envelope. -/
theorem openResponse_respond {cap : Capability} {result : Except CapError cap.Response}
    (hcanonical : cap.Canonical result)
    (hdepth : (cap.envelope result).depth < Decode.recursionLimit) :
    openResponse platform.codec name cap.decode (respond platform cap.encode result) = result := by
  apply openResponse_result
  intro value hok
  subst hok
  have hlimit : (cap.envelope (.ok value)).depth ≤ 126 + 1 := Nat.le_of_lt_succ hdepth
  have hvalue : (cap.encode value).depth ≤ 126 :=
    Json.depth_obj_le.mp hlimit ("ok", _) (List.mem_singleton.mpr rfl)
  exact Capability.decode_encode hcanonical hvalue

/-- No response is no envelope. -/
theorem openResponse_nil : ∃ e, openResponse platform.codec name decode [] = .error e := by
  rw [openResponse, JsonCodec.fromSlice, platform.codec.parse_nil]
  exact ⟨_, rfl⟩

end Opening

/-! ### The two imports -/

namespace Sandbox

variable {sandbox : Sandbox} {store : Store sandbox.Guest}

/-- A call of the guest is the host function on what the guest has laid out. -/
theorem serve_call {name body : Bytes} {placement : Placement} {guest : sandbox.Guest}
    (hplace : sandbox.place store.guest (.call name body) = (.ok placement, guest)) :
    sandbox.serve platform store (.call name body) =
      let (value, caller) := (store.host.caller (some placement.memory)).call platform placement.first
        (UInt32.ofNat name.length) placement.second (UInt32.ofNat body.length)
      (.ok value, ⟨⟨caller.data, caller.history⟩, sandbox.setMemory guest (caller.memory.getD [])⟩) := by
  simp only [serve, hplace]
  rfl

/-- What a request that fits the limits gets: the length of the response, which then waits. -/
theorem serve_request {name : String} {body : Bytes} {placement : Placement} {guest : sandbox.Guest}
    (hname : (Text.utf8 name).length ≤ 256)
    (hbody : body.length ≤ store.host.data.policy.limits.maxRequestBytes)
    (hplace : sandbox.place store.guest (.call (Text.utf8 name) body) = (.ok placement, guest)) :
    sandbox.serve platform store (.call (Text.utf8 name) body) =
      let (response, state, events) :=
        dispatch platform store.host.data store.host.history name body
      (.ok (Int32.ofNat response.length),
        ⟨⟨{ state with pending := response }, store.host.history ++ events⟩,
          sandbox.setMemory guest placement.memory⟩) := by
  obtain ⟨⟨_, hreadName⟩, hsize, hreadBody⟩ := sandbox.place_holds _ _ _ _ hplace
  have hreceive : (store.host.caller (some placement.memory)).receive placement.first
      (UInt32.ofNat (Text.utf8 name).length) placement.second (UInt32.ofNat body.length) =
        .request name body :=
    Caller.receive_of_read hname hbody hsize hreadName hreadBody
  rw [serve_call platform hplace, Caller.call_eq, hreceive]
  rfl

/-- What a request over the limit gets: the error that says so. -/
theorem serve_oversized {name body : Bytes} {placement : Placement} {guest : sandbox.Guest}
    (hbody : store.host.data.policy.limits.maxRequestBytes < body.length)
    (hplace : sandbox.place store.guest (.call name body) = (.ok placement, guest)) :
    ∃ e, sandbox.serve platform store (.call name body) =
      (.ok (Int32.ofNat (respond platform encodeUnit (.error e)).length),
        ⟨⟨{ store.host.data with pending := respond platform encodeUnit (.error e) }, store.host.history⟩,
          sandbox.setMemory guest placement.memory⟩) := by
  obtain ⟨_, hsize, _⟩ := sandbox.place_holds _ _ _ _ hplace
  have hreceive : (store.host.caller (some placement.memory)).receive placement.first
      (UInt32.ofNat name.length) placement.second (UInt32.ofNat body.length) = .oversized :=
    Caller.receive_of_lt hbody hsize
  rw [serve_call platform hplace, Caller.call_eq, hreceive]
  exact ⟨_, rfl⟩

/-- A line of the guest changes the retained lines at most. -/
theorem serve_log {level : Int32} {message : Bytes} {placement : Placement} {guest : sandbox.Guest}
    (hplace : sandbox.place store.guest (.log level message) = (.ok placement, guest)) :
    ∃ logs, sandbox.serve platform store (.log level message) =
      (.ok (), ⟨⟨{ store.host.data with logs := logs }, store.host.history⟩,
        sandbox.setMemory guest placement.memory⟩) := by
  obtain ⟨logs, hlog⟩ := (store.host.caller (some placement.memory)).log_eq level placement.first
    (UInt32.ofNat message.length)
  have hserve : sandbox.serve platform store (.log level message) =
      let caller := (store.host.caller (some placement.memory)).log level placement.first
        (UInt32.ofNat message.length)
      (.ok (), ⟨⟨caller.data, caller.history⟩, sandbox.setMemory guest (caller.memory.getD [])⟩) := by
    simp only [serve, hplace]
    rfl
  rw [hlog] at hserve
  exact ⟨logs, hserve⟩

/-- A read of the guest is the host function on its buffer. -/
theorem serve_read {n : Int32} {placement : Placement} {guest : sandbox.Guest}
    (hplace : sandbox.place store.guest (.responseRead n) = (.ok placement, guest)) :
    sandbox.serve platform store (.responseRead n) =
      let (value, caller) :=
        (store.host.caller (some placement.memory)).responseRead placement.first n.toUInt32
      (.ok (value, (readGuest caller.memory placement.first n.toUInt32).getD []),
        ⟨⟨caller.data, caller.history⟩, sandbox.setMemory guest (caller.memory.getD [])⟩) := by
  simp only [serve, hplace]
  rfl

/-- A read of the announced length delivers the waiting response. -/
theorem serve_delivers {placement : Placement} {guest : sandbox.Guest}
    (hsize : store.host.data.pending.length < 2 ^ 31)
    (hplace : sandbox.place store.guest (.responseRead (Int32.ofNat store.host.data.pending.length)) =
      (.ok placement, guest)) :
    ∃ memory, sandbox.serve platform store (.responseRead (Int32.ofNat store.host.data.pending.length)) =
      (.ok (Int32.ofNat store.host.data.pending.length, store.host.data.pending),
        ⟨⟨{ store.host.data with pending := [] }, store.host.history⟩,
          sandbox.setMemory guest memory⟩) := by
  have hlen : (Int32.ofNat store.host.data.pending.length).toUInt32.toNat =
      store.host.data.pending.length := UInt32.toNat_ofNat_of_lt' (hsize.trans (by decide))
  have hinside := sandbox.place_holds _ _ _ _ hplace
  rw [Placement.Holds, hlen] at hinside
  obtain ⟨memory, hwrite⟩ : ∃ memory, writeGuest (some placement.memory) placement.first
      store.host.data.pending = some memory := by
    rw [writeGuest, Option.bind_some, if_pos hinside]
    exact ⟨_, rfl⟩
  refine ⟨memory, ?_⟩
  rw [serve_read platform hplace, Caller.responseRead_of_write hlen.symm hwrite]
  simp only [readGuest_writeGuest hwrite hlen, hlen, Option.getD_some]
  rfl

/-- A read of another length is refused. -/
theorem serve_refuses {n : Int32} {placement : Placement} {guest : sandbox.Guest}
    (hlen : store.host.data.pending.length ≠ n.toUInt32.toNat)
    (hplace : sandbox.place store.guest (.responseRead n) = (.ok placement, guest)) :
    ∃ buffer, sandbox.serve platform store (.responseRead n) =
      (.ok (ErrorCode.badRequest, buffer),
        ⟨store.host, sandbox.setMemory guest placement.memory⟩) := by
  rw [serve_read platform hplace, Caller.responseRead_of_ne hlen]
  exact ⟨_, rfl⟩

end Sandbox

/-! ### Calls -/

namespace Sandbox

variable {platform} {sandbox : Sandbox} {store : Store sandbox.Guest} {α : Type}

/-- The guest decodes what a read of the announced length delivers. -/
theorem exec_receiveResponse {name : String} {decode : Nat → Json → Option α} {n : Int32}
    {response : Bytes} {read : Store sandbox.Guest} (hpos : 0 < n)
    (hread : sandbox.serve platform store (.responseRead n) = (.ok (n, response), read)) :
    (receiveResponse platform.codec name decode n).exec (sandbox.serve platform) store =
      (.ok (openResponse platform.codec name decode response), read) := by
  have hneg : ¬ n < 0 := Int32.lt_asymm hpos
  rw [receiveResponse, if_neg hneg, if_pos hpos, Program.exec_ask_ok hread, if_neg (not_not.mpr rfl),
    Program.exec_done]

end Sandbox

/-- The guest calls no capability in this move. -/
def GuestMove.NoCall (move : GuestMove) : Prop :=
  match move.invocation with
  | .call _ _ _ _ => False
  | _ => True

/-- Without a call, nothing comes to wait. -/
theorem pending_nil_run {run : HostRun} {moves : List GuestMove} (hpending : run.data.pending = [])
    (hmoves : ∀ move ∈ moves, move.NoCall) :
    ((HostRun.machine platform).run run moves).data.pending = [] := by
  induction moves generalizing run with
  | nil => exact hpending
  | cons move rest ih =>
      obtain ⟨hmove, hrest⟩ := List.forall_mem_cons.mp hmoves
      have hanswered : HostRun.answered platform ((HostRun.machine platform).moment run move) = none := by
        obtain ⟨memory, invocation⟩ := move
        cases invocation with
        | log level ptr len => rfl
        | responseRead ptr len => rfl
        | call namePtr nameLen reqPtr reqLen => exact hmove.elim
      apply ih _ hrest
      rcases (HostRun.pending_step platform run move).2.2 hanswered with hsame | hempty
      · exact hsame.trans hpending
      · exact hempty

/-- With nothing waiting, a read of any length but zero is refused. -/
theorem read_refused {run : HostRun} (hpending : run.data.pending = []) (memory : Option Bytes)
    (ptr : UInt32) {len : UInt32} (hlen : len ≠ 0) :
    ((HostRun.machine platform).step run ⟨memory, .responseRead ptr len⟩).2.value =
      some ErrorCode.badRequest := by
  have hne : (run.caller memory).data.pending.length ≠ len.toNat := by
    show run.data.pending.length ≠ _
    rw [hpending]
    intro hzero
    exact hlen (UInt32.toNat_inj.mp hzero.symm)
  show some ((run.caller memory).responseRead ptr len).1 = _
  rw [Caller.responseRead_of_ne hne]

/-- The channel is faithful and delivers once: from any state of the host, a request that lies in guest
memory and fits the limits gets exactly what its handler computes, by a call that gives the positive length
of the response and a read that gives all of it; and no later read gets anything before the next call. -/
theorem channel_faithful (sandbox : Sandbox) (store : Store sandbox.Guest) (name : String) (body : Bytes)
    (first second : Placement) (guest guest' : sandbox.Guest)
    (hname : (Text.utf8 name).length ≤ 256)
    (hbody : body.length ≤ store.host.data.policy.limits.maxRequestBytes) :
    let cap := Capability.ofName name
    let result := (cap.handle platform store.host.data store.host.history body).1
    let response := respond platform cap.encode result
    let n := Int32.ofNat response.length
    response.length < 2 ^ 31 → (cap.envelope result).depth < Decode.recursionLimit →
    cap.Canonical result →
    sandbox.place store.guest (.call (Text.utf8 name) body) = (.ok first, guest) →
    sandbox.place (sandbox.setMemory guest first.memory) (.responseRead n) = (.ok second, guest') →
    ∃ called read : Store sandbox.Guest,
      (sandbox.serve platform store (.call (Text.utf8 name) body) = (.ok n, called) ∧
        0 < n.toInt ∧ n.toInt = response.length) ∧
      sandbox.serve platform called (.responseRead n) = (.ok (n, response), read) ∧
      (hostCall platform.codec name body cap.decode).exec (sandbox.serve platform) store =
        (.ok result, read) ∧
      ∀ moves, (∀ move ∈ moves, GuestMove.NoCall move) → ∀ memory ptr len, len ≠ 0 →
        ((HostRun.machine platform).step ((HostRun.machine platform).run read.host moves)
          ⟨memory, .responseRead ptr len⟩).2.value = some ErrorCode.badRequest := by
  intro cap result response n hsize hdepth hcanonical hcall hread
  obtain ⟨called, hserve, hpending, hguest⟩ : ∃ called,
      sandbox.serve platform store (.call (Text.utf8 name) body) = (.ok n, called) ∧
        called.host.data.pending = response ∧ called.guest = sandbox.setMemory guest first.memory := by
    have hserve := Sandbox.serve_request platform hname hbody hcall
    rw [Capability.dispatch_eq] at hserve
    exact ⟨_, hserve, rfl, rfl⟩
  have hpos : 0 < response.length := List.length_pos_iff.mpr (respond_ne_nil platform cap.encode result)
  have hint : n.toInt = response.length := Int32.toInt_ofNat_of_lt hsize
  rw [← hguest] at hread
  obtain ⟨read, hdelivers, hempty⟩ : ∃ read,
      sandbox.serve platform called (.responseRead n) = (.ok (n, response), read) ∧
        read.host.data.pending = [] := by
    have hwaiting : called.host.data.pending.length < 2 ^ 31 := by rwa [hpending]
    obtain ⟨memory, hserve⟩ := Sandbox.serve_delivers platform hwaiting
      (by rw [hpending]; exact hread)
    rw [hpending] at hserve
    exact ⟨_, hserve, rfl⟩
  refine ⟨called, read, ⟨hserve, by omega, hint⟩, hdelivers, ?_, ?_⟩
  · rw [hostCall, Program.exec_ask_ok hserve,
      Sandbox.exec_receiveResponse (Word.ofNat_pos hpos hsize) hdelivers]
    show (Except.ok (openResponse platform.codec name cap.decode (respond platform cap.encode result)), _) = _
    rw [openResponse_respond platform hcanonical hdepth]
  · intro moves hmoves memory ptr len hlen
    exact read_refused platform (pending_nil_run platform hempty hmoves) memory ptr hlen

/-- A policy with a clock and nothing else. -/
def clockPolicy : Policy := { Policy.default with tools := { ToolsConfig.default with enabled := ["now"] } }

/-- A guest before its first call, with fuel for two. -/
def clockStore : Store Sandbox.bump.Guest where
  host := .start clockPolicy (.constant (.error (.upstream "down"))) ⟨clockPolicy, .unreachable, .empty⟩
  guest := (⟨[0, 0], [], 2⟩ : BumpGuest)

theorem channel_faithful_clock : ∃ read, (hostCall stillPlatform.codec Cap.toolsList (Text.utf8 "\x7b\x7d")
    ToolsListResponse.decode).exec (Sandbox.bump.serve stillPlatform) clockStore =
      (.ok (.ok ⟨clockPolicy.tools.enabled.filterMap specFor⟩), read) := by
  have hcall := Sandbox.place_bump ⟨[0, 0], [], 2⟩
    (.call (Text.utf8 Cap.toolsList) (Text.utf8 "\x7b\x7d")) rfl (by decide +kernel)
  obtain ⟨_, read, _, _, hexec, _⟩ := channel_faithful stillPlatform .bump clockStore Cap.toolsList
    (Text.utf8 "\x7b\x7d") _ _ _ _ (by decide) (by decide) (by decide +kernel) (by decide +kernel) trivial
    hcall (Sandbox.place_bump _ _ rfl (by decide +kernel))
  exact ⟨read, hexec⟩

end TdsWasm
