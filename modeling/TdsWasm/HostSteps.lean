import TdsWasm.HostRuntime

/-! What one call and one move of the guest can do, said once: how a call is received, what the
handler of a capability answers, and which parts of the host a move can change. -/

set_option autoImplicit false

namespace TdsWasm

variable (platform : Platform)

/-! ### Guest memory -/

/-- A write puts the bytes where a read of the same range finds them. -/
theorem readGuest_writeGuest {memory : Option Bytes} {after : Bytes} {ptr len : UInt32} {bytes : Bytes}
    (hwrite : writeGuest memory ptr bytes = some after) (hlen : len.toNat = bytes.length) :
    readGuest (some after) ptr len = some bytes := by
  unfold writeGuest at hwrite
  cases memory with
  | none => cases hwrite
  | some data =>
      rw [Option.bind_some] at hwrite
      split_ifs at hwrite with hrange
      cases hwrite
      have htake : (data.take ptr.toNat).length = ptr.toNat := by
        rw [List.length_take]
        omega
      have hsize : ptr.toNat + len.toNat ≤
          (data.take ptr.toNat ++ bytes ++ data.drop (ptr.toNat + bytes.length)).length := by
        rw [List.length_append, List.length_append, htake]
        omega
      rw [readGuest, Option.bind_some, if_pos hsize, List.append_assoc, List.drop_left' htake, hlen,
        List.take_left]

/-- A range is read wherever it lies. -/
theorem readGuest_append (before after : Bytes) {bytes : Bytes} {ptr len : UInt32}
    (hptr : ptr.toNat = before.length) (hlen : len.toNat = bytes.length) :
    readGuest (some (before ++ (bytes ++ after))) ptr len = some bytes := by
  have hinside : ptr.toNat + len.toNat ≤ (before ++ (bytes ++ after)).length := by
    rw [List.length_append, List.length_append]
    omega
  rw [readGuest, Option.bind_some, if_pos hinside, hptr, hlen, List.drop_left, List.take_left]

/-! ### Capabilities and their handlers -/

/-- A capability name. Any name but the three known ones answers errors only. -/
inductive Capability where
  | toolsList
  | toolInvoke
  | llmComplete
  | other (name : String)

namespace Capability

def ofName (name : String) : Capability :=
  if name = Cap.toolsList then toolsList
  else if name = Cap.toolInvoke then toolInvoke
  else if name = Cap.llmComplete then llmComplete
  else other name

@[simp] theorem ofName_toolsList : ofName Cap.toolsList = toolsList := if_pos rfl

@[simp] theorem ofName_toolInvoke : ofName Cap.toolInvoke = toolInvoke := by
  rw [ofName, if_neg (by decide), if_pos rfl]

@[simp] theorem ofName_llmComplete : ofName Cap.llmComplete = llmComplete := by
  rw [ofName, if_neg (by decide), if_neg (by decide), if_pos rfl]

/-- The type a capability answers with. -/
def Response : Capability → Type
  | toolsList => ToolsListResponse
  | toolInvoke => ToolInvokeResponse
  | llmComplete => LlmResponse
  | other _ => Unit

def encode : (cap : Capability) → cap.Response → Json
  | toolsList => ToolsListResponse.encode
  | toolInvoke => ToolInvokeResponse.encode
  | llmComplete => LlmResponse.encode
  | other _ => encodeUnit

/-- What the handler answers, the state it leaves and what it has done. -/
def handle (state : HostState) (history : History) (request : Bytes) :
    (cap : Capability) → Except CapError cap.Response × HostState × List HostEvent
  | toolsList => (.ok (ToolsListResponse.mk state.tools.specs), state, [])
  | toolInvoke =>
      match platform.codec.fromSlice "ToolInvokeRequest" ToolInvokeRequest.decode request with
      | .ok req =>
          let (answer, tools, events) := state.tools.invoke platform history req.name req.input
          (answer.map ToolInvokeResponse.mk, { state with tools := tools },
            events ++ [.invoked req answer])
      | .error e => (.error (.invalid ("malformed tool.invoke request: " ++ e)), state, [])
  | llmComplete =>
      if state.policy.limits.maxSteps ≤ state.llmCalls then
        (.error (.denied ("this run has already used its " ++
          toString state.policy.limits.maxSteps.toNat ++ " model turns")), state, [])
      else
        match platform.codec.fromSlice "LlmRequest" LlmRequest.decode request with
        | .ok req =>
            let (answer, effects) := state.llm.complete history req
            (answer, { state with llmCalls := state.llmCalls + 1 },
              effects.map .model ++ [.completed req answer])
        | .error e => (.error (.invalid ("malformed llm.complete request: " ++ e)), state, [])
  | other name =>
      (.error (.notFound ("this host provides no capability named " ++
        Text.debug platform.plain name)), state, [])

/-- The router encodes what the handler of the named capability answers. -/
theorem dispatch_eq (state : HostState) (history : History) (name : String) (request : Bytes) :
    dispatch platform state history name request =
      (respond platform (ofName name).encode (handle platform state history request (ofName name)).1,
        (handle platform state history request (ofName name)).2) := by
  by_cases hlist : name = Cap.toolsList
  · have hcap : ofName name = toolsList := if_pos hlist
    rw [hcap, dispatch, if_pos hlist]
    rfl
  by_cases hinvoke : name = Cap.toolInvoke
  · have hcap : ofName name = toolInvoke := by rw [ofName, if_neg hlist, if_pos hinvoke]
    rw [hcap, dispatch, if_neg hlist, if_pos hinvoke]
    unfold handle
    cases platform.codec.fromSlice "ToolInvokeRequest" ToolInvokeRequest.decode request <;> rfl
  by_cases hcomplete : name = Cap.llmComplete
  · have hcap : ofName name = llmComplete := by
      rw [ofName, if_neg hlist, if_neg hinvoke, if_pos hcomplete]
    rw [hcap, dispatch, if_neg hlist, if_neg hinvoke, if_pos hcomplete]
    unfold handle
    by_cases hspent : state.policy.limits.maxSteps ≤ state.llmCalls
    · simp only [if_pos hspent]
      rfl
    · simp only [if_neg hspent]
      cases platform.codec.fromSlice "LlmRequest" LlmRequest.decode request <;> rfl
  · have hcap : ofName name = other name := by
      rw [ofName, if_neg hlist, if_neg hinvoke, if_neg hcomplete]
    rw [hcap, dispatch, if_neg hlist, if_neg hinvoke, if_neg hcomplete]
    rfl

end Capability

/-! ### Tools -/

namespace ToolBox

/-- The fetch that a tool call was allowed to make, with all that was checked before it. -/
structure PermittedGet (tools : ToolBox) (history : History) (name : String) (input : JsonValue)
    (answer : Except CapError String) (event : HostEvent) : Prop where
  name_eq : name = "http_get"
  enabled : name ∈ tools.policy.tools.enabled
  target : ∃ raw url host, stringArg platform input "url" = .ok raw ∧ platform.urlParse raw = .ok url ∧
    url.scheme = "https" ∧ url.hostStr = some host ∧ tools.policy.tools.http.allows host = true ∧
    event = .get url (tools.http.send history url)
  failure : ∀ e, answer = .error e → e.kind = "upstream"

theorem fetched_failure (tools : ToolBox) (response : HttpResponse) (e : CapError)
    (h : tools.fetched response = .error e) : e.kind = "upstream" := by
  unfold fetched at h
  split_ifs at h
  simp only at h
  cases hbody : response.take tools.policy.tools.http.maxResponseBytes with
  | error text =>
      rw [hbody] at h
      cases h
      rfl
  | ok body =>
      rw [hbody] at h
      cases h

/-- A fetch sends nothing, or exactly the request that all its checks have passed. -/
theorem httpGet_events (tools : ToolBox) (history : History) (input : JsonValue)
    (henabled : "http_get" ∈ tools.policy.tools.enabled) :
    (tools.httpGet platform history input).2 = [] ∨
      ∃ event, (tools.httpGet platform history input).2 = [event] ∧
        PermittedGet platform tools history "http_get" input
          (tools.httpGet platform history input).1 event := by
  unfold httpGet
  cases hraw : stringArg platform input "url" with
  | error e => exact Or.inl rfl
  | ok raw =>
      simp only
      cases hurl : platform.urlParse raw with
      | error e => exact Or.inl rfl
      | ok url =>
          simp only
          by_cases hscheme : url.scheme = "https"
          · rw [if_neg (not_not.mpr hscheme)]
            cases hhost : url.hostStr with
            | none => exact Or.inl rfl
            | some host =>
                simp only
                by_cases hallow : tools.policy.tools.http.allows host = true
                · rw [if_neg (by simp [hallow])]
                  refine Or.inr ⟨.get url (tools.http.send history url), ?_, ?_⟩
                  · cases (tools.http.send history url).outcome <;> rfl
                  · refine ⟨rfl, henabled, ⟨raw, url, host, hraw, hurl, hscheme, hhost, hallow, rfl⟩, ?_⟩
                    intro e he
                    cases houtcome : (tools.http.send history url).outcome with
                    | error text =>
                        simp only [houtcome] at he
                        cases he
                        rfl
                    | ok response =>
                        simp only [houtcome] at he
                        exact fetched_failure tools response e he
                · rw [if_pos (by simp [hallow])]
                  exact Or.inl rfl
          · rw [if_pos hscheme]
            exact Or.inl rfl

theorem policy_of_new {platform : Platform} {policy : Policy} {tools : ToolBox}
    (h : new platform policy = .ok tools) : tools.policy = policy := by
  unfold new at h
  cases hclient : platform.buildToolClient policy.tools.http.timeoutMs with
  | error e =>
      rw [hclient] at h
      cases h
  | ok client =>
      rw [hclient] at h
      cases h
      rfl

theorem kvPut_fixed (tools : ToolBox) (input : JsonValue) :
    (tools.kvPut platform input).2.policy = tools.policy ∧
      (tools.kvPut platform input).2.http = tools.http := by
  unfold kvPut
  cases stringArg platform input "key" with
  | error e => exact ⟨rfl, rfl⟩
  | ok key =>
      simp only
      cases stringArg platform input "value" with
      | error e => exact ⟨rfl, rfl⟩
      | ok value =>
          simp only
          split_ifs <;> exact ⟨rfl, rfl⟩

/-- A tool call keeps the policy and the client, and does nothing outside but a permitted fetch. -/
theorem invoke_spec (tools : ToolBox) (history : History) (name : String) (input : JsonValue) :
    ((tools.invoke platform history name input).2.1.policy = tools.policy ∧
      (tools.invoke platform history name input).2.1.http = tools.http) ∧
    ((tools.invoke platform history name input).2.2 = [] ∨
      ∃ event, (tools.invoke platform history name input).2.2 = [event] ∧
        PermittedGet platform tools history name input
          (tools.invoke platform history name input).1 event) := by
  unfold invoke
  by_cases henabled : name ∈ tools.policy.tools.enabled
  · rw [if_neg (by simp [henabled])]
    split
    · exact ⟨⟨rfl, rfl⟩, Or.inl rfl⟩
    · exact ⟨⟨rfl, rfl⟩, httpGet_events platform tools history input henabled⟩
    · exact ⟨⟨rfl, rfl⟩, Or.inl rfl⟩
    · exact ⟨kvPut_fixed platform tools input, Or.inl rfl⟩
    · exact ⟨⟨rfl, rfl⟩, Or.inl rfl⟩
  · have hany : ∀ x ∈ tools.policy.tools.enabled, x ≠ name := fun x hmem heq => henabled (heq ▸ hmem)
    rw [if_pos (by simpa using hany)]
    exact ⟨⟨rfl, rfl⟩, Or.inl rfl⟩

/-- All that a tool call does outside is to fetch. -/
theorem get_of_invoke (tools : ToolBox) (history : History) (name : String) (input : JsonValue) :
    ∀ event ∈ (tools.invoke platform history name input).2.2, ∃ url exchange, event = .get url exchange := by
  intro event hmem
  obtain ⟨_, hnone | ⟨fetch, hfetch, hget⟩⟩ := invoke_spec platform tools history name input
  · rw [hnone] at hmem
    cases hmem
  · obtain ⟨_, url, _, _, _, _, _, _, rfl⟩ := hget.target
    rw [hfetch] at hmem
    exact ⟨url, _, List.mem_singleton.mp hmem⟩

/-- What is read from a history, but not from fetches, is not read from a tool call. -/
theorem filterMap_invoke {α : Type} {f : HostEvent → Option α} (hget : ∀ url exchange, f (.get url exchange) = none)
    (tools : ToolBox) (history : History) (name : String) (input : JsonValue) :
    (tools.invoke platform history name input).2.2.filterMap f = [] := by
  rw [List.filterMap_eq_nil_iff]
  intro event hmem
  obtain ⟨url, exchange, rfl⟩ := get_of_invoke platform tools history name input event hmem
  exact hget url exchange

end ToolBox

/-! ### Effects -/

/-- What a capability call can do to the state, with what it does outside. -/
inductive Handled (state : HostState) (history : History) (request : Bytes) :
    String → HostState → List HostEvent → Prop where
  | quiet (name : String)
      (hinvoke : name = Cap.toolInvoke → ∀ req,
        platform.codec.fromSlice "ToolInvokeRequest" ToolInvokeRequest.decode request ≠ .ok req)
      (hcomplete : name = Cap.llmComplete → state.llmCalls < state.policy.limits.maxSteps → ∀ req,
        platform.codec.fromSlice "LlmRequest" LlmRequest.decode request ≠ .ok req) :
      Handled state history request name state []
  | invoked (req : ToolInvokeRequest)
      (hread : platform.codec.fromSlice "ToolInvokeRequest" ToolInvokeRequest.decode request = .ok req) :
      Handled state history request Cap.toolInvoke
        { state with tools := (state.tools.invoke platform history req.name req.input).2.1 }
        ((state.tools.invoke platform history req.name req.input).2.2 ++
          [.invoked req (state.tools.invoke platform history req.name req.input).1])
  | completed (req : LlmRequest) (hturns : state.llmCalls < state.policy.limits.maxSteps)
      (hread : platform.codec.fromSlice "LlmRequest" LlmRequest.decode request = .ok req) :
      Handled state history request Cap.llmComplete
        { state with llmCalls := state.llmCalls + 1 }
        ((state.llm.complete history req).2.map .model ++
          [.completed req (state.llm.complete history req).1])

theorem dispatch_handled (state : HostState) (history : History) (name : String) (request : Bytes) :
    Handled platform state history request name (dispatch platform state history name request).2.1
      (dispatch platform state history name request).2.2 := by
  unfold dispatch
  by_cases hlist : name = Cap.toolsList
  · rw [if_pos hlist]
    exact .quiet name (fun h => absurd (hlist.symm.trans h) (by decide))
      (fun h => absurd (hlist.symm.trans h) (by decide))
  by_cases hinvoke : name = Cap.toolInvoke
  · rw [if_neg hlist, if_pos hinvoke]
    cases hread : platform.codec.fromSlice "ToolInvokeRequest" ToolInvokeRequest.decode request with
    | ok req =>
        rw [hinvoke]
        exact .invoked req hread
    | error e =>
        exact .quiet name (fun _ req hok => by rw [hread] at hok; cases hok)
          (fun h => absurd (hinvoke.symm.trans h) (by decide))
  by_cases hcomplete : name = Cap.llmComplete
  · rw [if_neg hlist, if_neg hinvoke, if_pos hcomplete]
    by_cases hspent : state.policy.limits.maxSteps ≤ state.llmCalls
    · simp only [if_pos hspent]
      exact .quiet name (fun h => absurd h hinvoke) (fun _ hturns => absurd hspent (by simpa using hturns))
    · simp only [if_neg hspent]
      cases hread : platform.codec.fromSlice "LlmRequest" LlmRequest.decode request with
      | ok req =>
          rw [hcomplete]
          exact .completed req (by simpa using hspent) hread
      | error e =>
          exact .quiet name (fun h => absurd h hinvoke)
            (fun _ _ req hok => by rw [hread] at hok; cases hok)
  · rw [if_neg hlist, if_neg hinvoke, if_neg hcomplete]
    exact .quiet name (fun h => absurd h hinvoke) (fun h => absurd h hcomplete)

/-- How a call is received, before any capability is looked up. -/
inductive Received where
  | oversized
  | rejected (code : Int32)
  | request (name : String) (body : Bytes)

namespace Caller

def receive (caller : Caller) (namePtr nameLen reqPtr reqLen : UInt32) : Received :=
  if caller.data.policy.limits.maxRequestBytes < reqLen.toNat ∨ 256 < nameLen then .oversized
  else
    match readGuest caller.memory namePtr nameLen, readGuest caller.memory reqPtr reqLen with
    | some nameBytes, some reqBytes =>
        match Text.fromUtf8 nameBytes with
        | some name => .request name reqBytes
        | none => .rejected ErrorCode.badRequest
    | _, _ => .rejected ErrorCode.badPointer

/-- A line of the guest changes the retained lines at most. -/
theorem log_eq (caller : Caller) (level : Int32) (ptr len : UInt32) :
    ∃ logs, caller.log level ptr len = { caller with data := { caller.data with logs := logs } } := by
  unfold log
  cases readGuest caller.memory ptr (min len maxLogBytes) with
  | none => exact ⟨caller.data.logs, rfl⟩
  | some bytes =>
      simp only
      split_ifs
      · exact ⟨_, rfl⟩
      · exact ⟨caller.data.logs, rfl⟩

/-- A request that lies in guest memory and fits the limits reaches the router as it is. -/
theorem receive_of_read {caller : Caller} {name : String} {body : Bytes} {namePtr reqPtr : UInt32}
    (hname : (Text.utf8 name).length ≤ 256)
    (hbody : body.length ≤ caller.data.policy.limits.maxRequestBytes) (hsize : body.length < 2 ^ 32)
    (hreadName : readGuest caller.memory namePtr (UInt32.ofNat (Text.utf8 name).length) =
      some (Text.utf8 name))
    (hreadBody : readGuest caller.memory reqPtr (UInt32.ofNat body.length) = some body) :
    caller.receive namePtr (UInt32.ofNat (Text.utf8 name).length) reqPtr (UInt32.ofNat body.length) =
      .request name body := by
  have hnameLen : (UInt32.ofNat (Text.utf8 name).length).toNat = (Text.utf8 name).length :=
    UInt32.toNat_ofNat_of_lt' (hname.trans_lt (by decide))
  have hbodyLen : (UInt32.ofNat body.length).toNat = body.length := UInt32.toNat_ofNat_of_lt' hsize
  have hmax : (256 : UInt32).toNat = 256 := rfl
  have hfits : ¬ (caller.data.policy.limits.maxRequestBytes < (UInt32.ofNat body.length).toNat ∨
      256 < UInt32.ofNat (Text.utf8 name).length) := by
    rw [hbodyLen, UInt32.lt_iff_toNat_lt, hnameLen]
    omega
  simp only [receive, if_neg hfits, hreadName, hreadBody, Text.fromUtf8_utf8]

/-- A body over the limit is not looked at. -/
theorem receive_of_lt {caller : Caller} {body : Bytes} {namePtr nameLen reqPtr : UInt32}
    (hbody : caller.data.policy.limits.maxRequestBytes < body.length) (hsize : body.length < 2 ^ 32) :
    caller.receive namePtr nameLen reqPtr (UInt32.ofNat body.length) = .oversized := by
  have hbodyLen : (UInt32.ofNat body.length).toNat = body.length := UInt32.toNat_ofNat_of_lt' hsize
  rw [receive, if_pos]
  left
  rw [hbodyLen]
  exact hbody

/-- What a call answers when it is too large. -/
def oversizedResponse (caller : Caller) (reqLen : UInt32) : Bytes :=
  respond platform encodeUnit (.error (.invalid ("capability request of " ++
    toString reqLen.toNat ++ " bytes exceeds the " ++
    toString caller.data.policy.limits.maxRequestBytes ++ " byte limit")))

/-- The response of a call, unless it is rejected without one. -/
def response (caller : Caller) (reqLen : UInt32) : Received → Option Bytes
  | .oversized => some (caller.oversizedResponse platform reqLen)
  | .rejected _ => none
  | .request name body => some (dispatch platform caller.data caller.history name body).1

theorem call_eq (caller : Caller) (namePtr nameLen reqPtr reqLen : UInt32) :
    caller.call platform namePtr nameLen reqPtr reqLen =
      match caller.receive namePtr nameLen reqPtr reqLen with
      | .oversized =>
          (Int32.ofNat (caller.oversizedResponse platform reqLen).length,
            caller.setPending (caller.oversizedResponse platform reqLen))
      | .rejected code => (code, caller)
      | .request name body =>
          let (response, state, events) := dispatch platform caller.data caller.history name body
          (Int32.ofNat response.length,
            { caller with
              data := { state with pending := response }
              history := caller.history ++ events }) := by
  by_cases hsize : caller.data.policy.limits.maxRequestBytes < reqLen.toNat ∨ 256 < nameLen
  · simp only [call, receive, hsize, if_true, oversizedResponse]
  · simp only [call, receive, hsize, if_false]
    cases readGuest caller.memory namePtr nameLen with
    | none => rfl
    | some nameBytes =>
        cases readGuest caller.memory reqPtr reqLen with
        | none => rfl
        | some reqBytes =>
            simp only
            cases Text.fromUtf8 nameBytes <;> rfl

/-- A read of the wrong length is refused and changes nothing. -/
theorem responseRead_of_ne {caller : Caller} {ptr len : UInt32}
    (hlen : caller.data.pending.length ≠ len.toNat) :
    caller.responseRead ptr len = (ErrorCode.badRequest, caller) := if_pos hlen

/-- A read of the right length into memory delivers the response and leaves nothing waiting. -/
theorem responseRead_of_write {caller : Caller} {ptr len : UInt32} {memory : Bytes}
    (hlen : caller.data.pending.length = len.toNat)
    (hwrite : writeGuest caller.memory ptr caller.data.pending = some memory) :
    caller.responseRead ptr len =
      (Int32.ofNat len.toNat, { caller.setPending [] with memory := some memory }) := by
  simp only [responseRead, ne_eq, hlen, not_true, if_false, hwrite]

/-- A read that gives its length as an integer has delivered the waiting response. -/
theorem responseRead_eq_len {caller : Caller} {ptr len : UInt32}
    (hvalue : (caller.responseRead ptr len).1.toInt = len.toNat) :
    caller.data.pending.length = len.toNat ∧
      ∃ memory, writeGuest caller.memory ptr caller.data.pending = some memory := by
  by_cases hlen : caller.data.pending.length = len.toNat
  · refine ⟨hlen, ?_⟩
    cases hwrite : writeGuest caller.memory ptr caller.data.pending with
    | some memory => exact ⟨memory, rfl⟩
    | none =>
        simp only [responseRead, ne_eq, hlen, not_true, if_false, hwrite] at hvalue
        have hneg : ErrorCode.badPointer.toInt = -1 := by decide
        omega
  · simp only [responseRead_of_ne hlen] at hvalue
    have hneg : ErrorCode.badRequest.toInt = -2 := by decide
    omega

end Caller

/-! ### Moves -/

/-- The move of a guest that keeps a name and a body at the start of its memory and calls with both. -/
def GuestMove.request (name : String) (body : Bytes) : GuestMove where
  memory := some (Text.utf8 name ++ body)
  invocation := .call 0 (UInt32.ofNat (Text.utf8 name).length) (UInt32.ofNat (Text.utf8 name).length)
    (UInt32.ofNat body.length)

namespace HostRun

/-- How the call that a move makes is received, if it makes one. -/
def receive (run : HostRun) (move : GuestMove) : Option Received :=
  match move.invocation with
  | .call namePtr nameLen reqPtr reqLen =>
      some ((run.caller move.memory).receive namePtr nameLen reqPtr reqLen)
  | _ => none

/-- What a move can make of a run: only the waiting response and the retained lines change, or a
request reaches the router. -/
inductive Moved (run : HostRun) (move : GuestMove) : HostRun → Prop where
  | quiet (pending : Bytes) (logs : List LogLine)
      (hreceive : ∀ name body, run.receive move ≠ some (.request name body)) :
      Moved run move ⟨{ run.data with pending := pending, logs := logs }, run.history⟩
  | request (name : String) (body : Bytes) (hreceive : run.receive move = some (.request name body))
      (state : HostState) (events : List HostEvent) (pending : Bytes)
      (hhandled : Handled platform run.data run.history body name state events) :
      Moved run move ⟨{ state with pending := pending }, run.history ++ events⟩

/-- A request that the guest keeps at the start of its memory reaches the router. -/
theorem receive_request {run : HostRun} {name : String} {body : Bytes}
    (hname : (Text.utf8 name).length ≤ 256)
    (hbody : body.length ≤ run.data.policy.limits.maxRequestBytes) (hsize : body.length < 2 ^ 32) :
    run.receive (.request name body) = some (.request name body) := by
  have hnameLen : (UInt32.ofNat (Text.utf8 name).length).toNat = (Text.utf8 name).length :=
    UInt32.toNat_ofNat_of_lt' (hname.trans_lt (by decide))
  have hbodyLen : (UInt32.ofNat body.length).toNat = body.length := UInt32.toNat_ofNat_of_lt' hsize
  apply congrArg some
  apply Caller.receive_of_read hname hbody hsize
  · exact readGuest_append [] body rfl hnameLen
  · have hread := readGuest_append (Text.utf8 name) [] hnameLen hbodyLen
    rw [List.append_nil] at hread
    exact hread

theorem step_moved (run : HostRun) (move : GuestMove) :
    Moved platform run move ((machine platform).step run move).1 := by
  obtain ⟨memory, invocation⟩ := move
  cases invocation with
  | log level ptr len =>
      obtain ⟨logs, hlog⟩ := (run.caller memory).log_eq level ptr len
      have hstep : ((machine platform).step run ⟨memory, .log level ptr len⟩).1 =
          ⟨{ run.data with logs := logs }, run.history⟩ := by
        show (ofCaller ((run.caller memory).log level ptr len) none).1 = _
        rw [hlog]
        rfl
      rw [hstep]
      exact .quiet run.data.pending logs nofun
  | call namePtr nameLen reqPtr reqLen =>
      have hstep : ((machine platform).step run ⟨memory, .call namePtr nameLen reqPtr reqLen⟩).1 =
          (ofCaller ((run.caller memory).call platform namePtr nameLen reqPtr reqLen).2 none).1 := rfl
      rw [hstep, Caller.call_eq]
      cases hreceive : (run.caller memory).receive namePtr nameLen reqPtr reqLen with
      | oversized => exact .quiet _ run.data.logs (by simp only [receive, hreceive]; exact nofun)
      | rejected code =>
          exact .quiet run.data.pending run.data.logs (by simp only [receive, hreceive]; exact nofun)
      | request name body =>
          exact .request name body (by simp only [receive, hreceive]) _ _ _
            (dispatch_handled platform run.data run.history name body)
  | responseRead ptr len =>
      have hread : ∃ pending, ((run.caller memory).responseRead ptr len).2.data =
          { run.data with pending := pending } ∧
          ((run.caller memory).responseRead ptr len).2.history = run.history := by
        unfold Caller.responseRead
        simp only
        split_ifs
        · exact ⟨run.data.pending, rfl, rfl⟩
        · cases writeGuest (run.caller memory).memory ptr (run.caller memory).data.pending with
          | none => exact ⟨[], rfl, rfl⟩
          | some memory' => exact ⟨[], rfl, rfl⟩
      obtain ⟨pending, hdata, hhistory⟩ := hread
      have hstep : ((machine platform).step run ⟨memory, .responseRead ptr len⟩).1 =
          ⟨{ run.data with pending := pending }, run.history⟩ := by
        show (ofCaller ((run.caller memory).responseRead ptr len).2 _).1 = _
        rw [ofCaller, hdata, hhistory]
      rw [hstep]
      exact .quiet pending run.data.logs nofun

end HostRun

/-- The tool box keeps the policy it was made with. -/
theorem toolsPolicy_step (policy : Policy) (run : HostRun) (move : GuestMove)
    (h : run.data.tools.policy = policy) :
    ((HostRun.machine platform).step run move).1.data.tools.policy = policy := by
  have hmoved := HostRun.step_moved platform run move
  generalize ((HostRun.machine platform).step run move).1 = next at hmoved ⊢
  cases hmoved with
  | quiet pending logs _ => exact h
  | request name body hreceive state events pending hhandled =>
      cases hhandled with
      | quiet name _ _ => exact h
      | completed req hturns hread => exact h
      | invoked req hread =>
          exact (ToolBox.invoke_spec platform run.data.tools run.history req.name req.input).1.1.trans h

theorem toolsPolicy_run {policy : Policy} {fresh : ToolBox} (hnew : ToolBox.new platform policy = .ok fresh)
    (llm : LlmProvider) (moves : List GuestMove) :
    ((HostRun.machine platform).run (.start policy llm fresh) moves).data.tools.policy = policy := by
  apply (HostRun.machine platform).run_invariant (motive := fun run => run.data.tools.policy = policy)
  · exact toolsPolicy_step platform policy
  · exact ToolBox.policy_of_new hnew

end TdsWasm
