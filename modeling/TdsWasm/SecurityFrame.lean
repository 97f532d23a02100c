import TdsWasm.SecurityPending

/-! What a capability call leaves alone. A call that fails changes nothing but the waiting response, unless
the provider was asked and failed; a call that succeeds changes the value of one key of the scratchpad or
counts one model turn. The exception is an answer so long that its length reads as an error code. -/

set_option autoImplicit false

namespace TdsWasm

variable (platform : Platform)

/-! ### Tools -/

namespace ToolBox

/-- The invocation stores this value under this key. -/
structure Stores (tools : ToolBox) (name : String) (input : JsonValue) (key value : String) : Prop where
  name_eq : name = "kv_put"
  enabled : name ∈ tools.policy.tools.enabled
  key_eq : stringArg platform input "key" = .ok key
  value_eq : stringArg platform input "value" = .ok value
  value_le : value.utf8ByteSize ≤ tools.policy.tools.kv.maxValueBytes
  room : tools.kv.contains key = true ∨ tools.kv.size < tools.policy.tools.kv.maxKeys

variable {platform} {tools : ToolBox} {name : String} {input : JsonValue} {key value : String}

theorem kvPut_of_stores (h : Stores platform tools name input key value) :
    tools.kvPut platform input =
      (.ok ("stored " ++ Text.debug platform.plain key), { tools with kv := tools.kv.insert key value }) := by
  have hfull : ¬ ((!tools.kv.contains key && decide (tools.policy.tools.kv.maxKeys ≤ tools.kv.size)) = true) := by
    rcases h.room with hold | hnew
    · simp [hold]
    · simp [Nat.not_le.mpr hnew]
  unfold kvPut
  rw [h.key_eq]
  simp only [h.value_eq]
  rw [if_neg (Nat.not_lt.mpr h.value_le), if_neg hfull]

/-- A `kv_put` that stores nothing is refused, and leaves the tools as they are. -/
theorem kvPut_of_not_stores (henabled : "kv_put" ∈ tools.policy.tools.enabled)
    (h : ∀ key value, ¬ Stores platform tools "kv_put" input key value) :
    ∃ e, tools.kvPut platform input = (.error e, tools) := by
  unfold kvPut
  cases hkey : stringArg platform input "key" with
  | error e => exact ⟨e, rfl⟩
  | ok key =>
      cases hvalue : stringArg platform input "value" with
      | error e => exact ⟨e, rfl⟩
      | ok value =>
          simp only
          by_cases hsize : tools.policy.tools.kv.maxValueBytes < value.utf8ByteSize
          · rw [if_pos hsize]
            exact ⟨_, rfl⟩
          rw [if_neg hsize]
          by_cases hfull : (!tools.kv.contains key && decide (tools.policy.tools.kv.maxKeys ≤ tools.kv.size)) = true
          · rw [if_pos hfull]
            exact ⟨_, rfl⟩
          · refine absurd ⟨rfl, henabled, hkey, hvalue, Nat.not_lt.mp hsize, ?_⟩ (h key value)
            cases hold : tools.kv.contains key with
            | true => exact Or.inl rfl
            | false =>
                rw [hold] at hfull
                simpa using hfull

/-- What an invocation that stores a value answers and leaves. -/
theorem invoke_of_stores (h : Stores platform tools name input key value) (history : History) :
    tools.invoke platform history name input =
      (.ok ("stored " ++ Text.debug platform.plain key), { tools with kv := tools.kv.insert key value }, []) := by
  have hput := kvPut_of_stores h
  have henabled := h.enabled
  obtain rfl := h.name_eq
  unfold invoke
  rw [if_neg (by simp [henabled])]
  show ((tools.kvPut platform input).1, (tools.kvPut platform input).2, []) = _
  rw [hput]

/-- An invocation that stores nothing leaves the tools as they are. -/
theorem invoke_quiet (h : ∀ key value, ¬ Stores platform tools name input key value) (history : History) :
    (tools.invoke platform history name input).2.1 = tools := by
  unfold invoke
  by_cases henabled : name ∈ tools.policy.tools.enabled
  · rw [if_neg (by simp [henabled])]
    split
    · rfl
    · rfl
    · rfl
    · obtain ⟨e, hput⟩ := kvPut_of_not_stores henabled h
      exact congrArg Prod.snd hput
    · rfl
  · have hany : ∀ x ∈ tools.policy.tools.enabled, x ≠ name := fun x hmem heq => henabled (heq ▸ hmem)
    rw [if_pos (by simpa using hany)]

end ToolBox

/-! ### Requests -/

/-- A completion that is asked for under the turn ceiling, and what the provider answers to it. -/
def Completes (state : HostState) (history : History) (name : String) (body : Bytes)
    (answer : Except CapError LlmResponse) : Prop :=
  name = Cap.llmComplete ∧ state.llmCalls < state.policy.limits.maxSteps ∧
    ∃ req, platform.codec.fromSlice "LlmRequest" LlmRequest.decode body = .ok req ∧
      (state.llm.complete history req).1 = answer

/-- A tool call that stores this value under this key. -/
def StoresAt (state : HostState) (name : String) (body : Bytes) (key value : String) : Prop :=
  name = Cap.toolInvoke ∧
    ∃ req, platform.codec.fromSlice "ToolInvokeRequest" ToolInvokeRequest.decode body = .ok req ∧
      state.tools.Stores platform req.name req.input key value

/-- The request is answered with a result and not with an error. -/
def Succeeds (state : HostState) (history : History) (name : String) (body : Bytes) : Bool :=
  (Capability.handle platform state history body (.ofName name)).1.isOk

def storedResponse (key : String) : Bytes :=
  respond platform ToolInvokeResponse.encode (.ok ⟨"stored " ++ Text.debug platform.plain key⟩)

/-- What a request can change, with the response that it gets and whether that is a result. -/
inductive Changed (state : HostState) (history : History) (name : String) (body : Bytes) :
    Bytes → Bool → HostState → Prop where
  | completed (answer : Except CapError LlmResponse) (h : Completes platform state history name body answer) :
      Changed state history name body (respond platform LlmResponse.encode answer) answer.isOk
        { state with llmCalls := state.llmCalls + 1 }
  | stored (key value : String) (h : StoresAt platform state name body key value) :
      Changed state history name body (storedResponse platform key) true
        { state with tools := { state.tools with kv := state.tools.kv.insert key value } }
  | nothing (response : Bytes) (succeeds : Bool)
      (hcomplete : ∀ answer, ¬ Completes platform state history name body answer)
      (hstore : ∀ key value, ¬ StoresAt platform state name body key value) :
      Changed state history name body response succeeds state

variable {platform} {state : HostState} {history : History} {body : Bytes}

theorem changed_toolInvoke : Changed platform state history Cap.toolInvoke body
    (respond platform (Capability.ofName Cap.toolInvoke).encode
      (Capability.handle platform state history body (.ofName Cap.toolInvoke)).1)
    (Succeeds platform state history Cap.toolInvoke body)
    (Capability.handle platform state history body (.ofName Cap.toolInvoke)).2.1 := by
  have hcomplete : ∀ answer, ¬ Completes platform state history Cap.toolInvoke body answer :=
    fun answer h => absurd h.1 (by decide)
  unfold Succeeds
  rw [Capability.ofName_toolInvoke]
  unfold Capability.handle
  cases hread : platform.codec.fromSlice "ToolInvokeRequest" ToolInvokeRequest.decode body with
  | error e =>
      refine .nothing _ _ hcomplete fun key value ⟨_, req, hok, _⟩ => ?_
      rw [hread] at hok
      cases hok
  | ok req =>
      by_cases hstores : ∃ key value, state.tools.Stores platform req.name req.input key value
      · obtain ⟨key, value, hstores⟩ := hstores
        have hinvoke := ToolBox.invoke_of_stores hstores history
        simp only [hinvoke]
        exact .stored key value ⟨rfl, req, hread, hstores⟩
      · have hquiet := ToolBox.invoke_quiet
          (fun key value h => hstores ⟨key, value, h⟩ : ∀ key value, ¬ _) history
        simp only [hquiet]
        refine .nothing _ _ hcomplete fun key value ⟨_, other, hok, h⟩ => ?_
        rw [hread] at hok
        cases hok
        exact hstores ⟨key, value, h⟩

theorem changed_llmComplete : Changed platform state history Cap.llmComplete body
    (respond platform (Capability.ofName Cap.llmComplete).encode
      (Capability.handle platform state history body (.ofName Cap.llmComplete)).1)
    (Succeeds platform state history Cap.llmComplete body)
    (Capability.handle platform state history body (.ofName Cap.llmComplete)).2.1 := by
  have hstore : ∀ key value, ¬ StoresAt platform state Cap.llmComplete body key value :=
    fun key value h => absurd h.1 (by decide)
  unfold Succeeds
  rw [Capability.ofName_llmComplete]
  unfold Capability.handle
  by_cases hspent : state.policy.limits.maxSteps ≤ state.llmCalls
  · simp only [if_pos hspent]
    exact .nothing _ _ (fun answer ⟨_, hturns, _⟩ => absurd hspent (by simpa using hturns)) hstore
  · simp only [if_neg hspent]
    cases hread : platform.codec.fromSlice "LlmRequest" LlmRequest.decode body with
    | error e =>
        refine .nothing _ _ (fun answer ⟨_, _, req, hok, _⟩ => ?_) hstore
        rw [hread] at hok
        cases hok
    | ok req => exact .completed _ ⟨rfl, by simpa using hspent, req, hread, rfl⟩

theorem dispatch_changed (name : String) : Changed platform state history name body
    (dispatch platform state history name body).1 (Succeeds platform state history name body)
    (dispatch platform state history name body).2.1 := by
  rw [Capability.dispatch_eq]
  by_cases hinvoke : name = Cap.toolInvoke
  · rw [hinvoke]
    exact changed_toolInvoke
  by_cases hcomplete : name = Cap.llmComplete
  · rw [hcomplete]
    exact changed_llmComplete
  · have hsame : (Capability.handle platform state history body (.ofName name)).2.1 = state := by
      by_cases hlist : name = Cap.toolsList
      · rw [hlist, Capability.ofName_toolsList]
        rfl
      · rw [Capability.ofName, if_neg hlist, if_neg hinvoke, if_neg hcomplete]
        rfl
    show Changed platform state history name body _ _
      (Capability.handle platform state history body (.ofName name)).2.1
    rw [hsame]
    exact .nothing _ _ (fun answer h => hcomplete h.1) (fun key value h => hinvoke h.1)

/-! ### Calls -/

/-- The scratchpad, the logs and the turn counter are as before. -/
structure HostState.Untouched (before after : HostState) : Prop where
  kv_eq : after.tools.kv = before.tools.kv
  logs_eq : after.logs = before.logs
  llmCalls_eq : after.llmCalls = before.llmCalls

namespace Caller

variable (platform) (caller : Caller) (namePtr nameLen reqPtr reqLen : UInt32)

/-- The call fails: it gives a negative number, or it is too large, or its request is answered with an
error. -/
def Fails : Prop :=
  (caller.call platform namePtr nameLen reqPtr reqLen).1 < 0 ∨
    caller.receive namePtr nameLen reqPtr reqLen = .oversized ∨
    ∃ name body, caller.receive namePtr nameLen reqPtr reqLen = .request name body ∧
      Succeeds platform caller.data caller.history name body = false

/-- The call asked the provider for a completion, and the provider failed. -/
def ProviderFailed : Prop :=
  ∃ name body e, caller.receive namePtr nameLen reqPtr reqLen = .request name body ∧
    Completes platform caller.data caller.history name body (.error e)

/-- A failed call leaves the host state intact, but for the turn of a provider that failed; a successful one
changes the scratchpad at the key that it stores and counts the turn that it takes. -/
structure Framed : Prop where
  failed : Fails platform caller namePtr nameLen reqPtr reqLen →
    let after := (caller.call platform namePtr nameLen reqPtr reqLen).2.data
    (¬ ProviderFailed platform caller namePtr nameLen reqPtr reqLen → caller.data.Untouched after) ∧
    (ProviderFailed platform caller namePtr nameLen reqPtr reqLen → after.tools.kv = caller.data.tools.kv ∧
      after.logs = caller.data.logs ∧ after.llmCalls.toNat = caller.data.llmCalls.toNat + 1)
  succeeded : ∀ name body, caller.receive namePtr nameLen reqPtr reqLen = .request name body →
    Succeeds platform caller.data caller.history name body = true →
    let after := (caller.call platform namePtr nameLen reqPtr reqLen).2.data
    (∀ key, after.tools.kv.get key ≠ caller.data.tools.kv.get key →
      ∃ value, StoresAt platform caller.data name body key value) ∧
    (after.llmCalls ≠ caller.data.llmCalls →
      name = Cap.llmComplete ∧ after.llmCalls.toNat = caller.data.llmCalls.toNat + 1)

/-- The length of this response reads as an error code. -/
def ReadsNegative (response : Bytes) : Prop := Int32.ofNat response.length < 0

/-- What the provider answers and what a stored key is reported as are not so long that they read as an
error code. -/
def Unwrapped : Prop :=
  ∀ name body, caller.receive namePtr nameLen reqPtr reqLen = .request name body →
    (∀ response, Completes platform caller.data caller.history name body (.ok response) →
      ¬ ReadsNegative (respond platform LlmResponse.encode (.ok response))) ∧
    (∀ key value, StoresAt platform caller.data name body key value →
      caller.data.tools.kv.get key ≠ some value → ¬ ReadsNegative (storedResponse platform key))

variable {platform caller namePtr nameLen reqPtr reqLen}

/-- A call that reaches no capability changes the waiting response at most. -/
theorem framed_of_unrouted (hreceive : ∀ name body,
    caller.receive namePtr nameLen reqPtr reqLen ≠ .request name body) :
    Framed platform caller namePtr nameLen reqPtr reqLen := by
  have hafter : ∃ pending, (caller.call platform namePtr nameLen reqPtr reqLen).2.data =
      { caller.data with pending := pending } := by
    rw [call_eq]
    cases hreceived : caller.receive namePtr nameLen reqPtr reqLen with
    | oversized => exact ⟨_, rfl⟩
    | rejected code => exact ⟨caller.data.pending, rfl⟩
    | request name body => exact absurd hreceived (hreceive name body)
  obtain ⟨pending, hafter⟩ := hafter
  refine ⟨fun _ => ⟨fun _ => ?_, fun ⟨name, body, e, h, _⟩ => absurd h (hreceive name body)⟩,
    fun name body h => absurd h (hreceive name body)⟩
  rw [hafter]
  exact ⟨rfl, rfl, rfl⟩

/-- A completion counts its turn. -/
theorem toNat_llmCalls_of_completes {state : HostState} {history : History} {name : String} {body : Bytes}
    {answer : Except CapError LlmResponse} (h : Completes platform state history name body answer) :
    (state.llmCalls + 1).toNat = state.llmCalls.toNat + 1 := Word.toNat_add_one h.2.1

theorem completes_unique {state : HostState} {history : History} {name : String} {body : Bytes}
    {left right : Except CapError LlmResponse} (hleft : Completes platform state history name body left)
    (hright : Completes platform state history name body right) : left = right := by
  obtain ⟨_, _, req, hread, rfl⟩ := hleft
  obtain ⟨_, _, other, hsame, rfl⟩ := hright
  rw [hread] at hsame
  cases hsame
  rfl

theorem llmCalls_ne_of_completes {state : HostState} {history : History} {name : String} {body : Bytes}
    {answer : Except CapError LlmResponse} (h : Completes platform state history name body answer) :
    state.llmCalls + 1 ≠ state.llmCalls := by
  intro heq
  have hnat := toNat_llmCalls_of_completes h
  rw [heq] at hnat
  omega

theorem storesAt_unique {state : HostState} {name : String} {body : Bytes} {key value other text : String}
    (hleft : StoresAt platform state name body key value)
    (hright : StoresAt platform state name body other text) : key = other ∧ value = text := by
  obtain ⟨_, req, hread, hstores⟩ := hleft
  obtain ⟨_, req', hsame, hstores'⟩ := hright
  rw [hread] at hsame
  cases hsame
  have hkey := hstores.key_eq.symm.trans hstores'.key_eq
  have hvalue := hstores.value_eq.symm.trans hstores'.value_eq
  cases hkey
  cases hvalue
  exact ⟨rfl, rfl⟩

/-- A change is confined exactly when the length of its response does not read as an error code. -/
theorem changed_confined {state after : HostState} {history : History} {name : String} {body response : Bytes}
    {succeeds : Bool} (h : Changed platform state history name body response succeeds after) :
    (((ReadsNegative response ∨ succeeds = false) →
        ((¬ ∃ e, Completes platform state history name body (.error e)) → state.Untouched after) ∧
        ((∃ e, Completes platform state history name body (.error e)) →
          after.tools.kv = state.tools.kv ∧ after.logs = state.logs ∧
            after.llmCalls.toNat = state.llmCalls.toNat + 1)) ∧
      (succeeds = true →
        (∀ key, after.tools.kv.get key ≠ state.tools.kv.get key →
          ∃ value, StoresAt platform state name body key value) ∧
        (after.llmCalls ≠ state.llmCalls →
          name = Cap.llmComplete ∧ after.llmCalls.toNat = state.llmCalls.toNat + 1))) ↔
    (∀ answer, Completes platform state history name body (.ok answer) →
        ¬ ReadsNegative (respond platform LlmResponse.encode (.ok answer))) ∧
      (∀ key value, StoresAt platform state name body key value → state.tools.kv.get key ≠ some value →
        ¬ ReadsNegative (storedResponse platform key)) := by
  cases h with
  | nothing response succeeds hcomplete hstore =>
      refine ⟨fun _ => ⟨fun answer hok => absurd hok (hcomplete _),
        fun key value hstored => absurd hstored (hstore key value)⟩, fun _ => ⟨fun _ => ⟨fun _ => ⟨rfl, rfl, rfl⟩,
        fun ⟨e, hfailed⟩ => absurd hfailed (hcomplete _)⟩, fun _ => ⟨fun _ hne => absurd rfl hne,
        fun hne => absurd rfl hne⟩⟩⟩
  | completed answer hdone =>
      have hstore : ∀ key value, ¬ StoresAt platform state name body key value :=
        fun key value hstored => absurd (hdone.1.symm.trans hstored.1) (by decide)
      have hcount := toNat_llmCalls_of_completes hdone
      cases answer with
      | error e =>
          refine ⟨fun _ => ⟨fun answer hok => ?_, fun key value hstored => absurd hstored (hstore key value)⟩,
            fun _ => ⟨fun _ => ⟨fun hnone => absurd ⟨e, hdone⟩ hnone, fun _ => ⟨rfl, rfl, hcount⟩⟩, nofun⟩⟩
          cases completes_unique hdone hok
      | ok answer =>
          have hnone : ¬ ∃ e, Completes platform state history name body (.error e) := by
            rintro ⟨e, hfailed⟩
            cases completes_unique hdone hfailed
          constructor
          · rintro ⟨hfailed, _⟩
            refine ⟨fun other hok hneg => ?_, fun key value hstored => absurd hstored (hstore key value)⟩
            cases completes_unique hdone hok
            exact llmCalls_ne_of_completes hdone ((hfailed (Or.inl hneg)).1 hnone).llmCalls_eq
          · rintro ⟨hshort, _⟩
            refine ⟨fun hfails => ?_, fun _ => ⟨fun _ hne => absurd rfl hne, fun _ => ⟨hdone.1, hcount⟩⟩⟩
            rcases hfails with hneg | hfalse
            · exact absurd hneg (hshort answer hdone)
            · cases hfalse
  | stored key value hstored =>
      have hcomplete : ∀ answer, ¬ Completes platform state history name body answer :=
        fun answer hdone => absurd (hdone.1.symm.trans hstored.1) (by decide)
      constructor
      · rintro ⟨hfailed, _⟩
        refine ⟨fun answer hok => absurd hok (hcomplete _), fun other text hother hne hneg => hne ?_⟩
        obtain ⟨rfl, rfl⟩ := storesAt_unique hstored hother
        have hsame := ((hfailed (Or.inl hneg)).1 fun ⟨e, hdone⟩ => hcomplete _ hdone).kv_eq
        rw [← hsame]
        exact OrderedMap.get_insert_self _ _ _
      · rintro ⟨_, hshort⟩
        refine ⟨fun hfails => ⟨fun _ => ⟨?_, rfl, rfl⟩, fun ⟨e, hdone⟩ => absurd hdone (hcomplete _)⟩,
          fun _ => ⟨fun other hne => ?_, fun hne => absurd rfl hne⟩⟩
        · apply OrderedMap.insert_of_get
          by_contra hne
          rcases hfails with hneg | hfalse
          · exact hshort key value hstored hne hneg
          · cases hfalse
        · by_cases hother : other = key
          · rw [hother]
            exact ⟨value, hstored⟩
          · exact absurd (OrderedMap.get_insert_of_ne _ _ hother) hne

/-- A request is framed exactly when the length of its result does not read as an error code. -/
theorem framed_of_request {name : String} {body : Bytes}
    (hreceive : caller.receive namePtr nameLen reqPtr reqLen = .request name body) :
    Framed platform caller namePtr nameLen reqPtr reqLen ↔
      Unwrapped platform caller namePtr nameLen reqPtr reqLen := by
  have hcall := call_eq platform caller namePtr nameLen reqPtr reqLen
  rw [hreceive] at hcall
  have hchanged : Changed platform caller.data caller.history name body _ _ _ := dispatch_changed name
  have hfails : Fails platform caller namePtr nameLen reqPtr reqLen ↔
      ReadsNegative (dispatch platform caller.data caller.history name body).1 ∨
        Succeeds platform caller.data caller.history name body = false := by
    unfold Fails
    rw [hcall, hreceive]
    constructor
    · rintro (hneg | hbig | ⟨_, _, hsame, hfailed⟩)
      · exact Or.inl hneg
      · cases hbig
      · cases hsame
        exact Or.inr hfailed
    · rintro (hneg | hfailed)
      · exact Or.inl hneg
      · exact Or.inr (Or.inr ⟨name, body, rfl, hfailed⟩)
  have hprovider : ProviderFailed platform caller namePtr nameLen reqPtr reqLen ↔
      ∃ e, Completes platform caller.data caller.history name body (.error e) := by
    unfold ProviderFailed
    rw [hreceive]
    constructor
    · rintro ⟨_, _, e, hsame, h⟩
      cases hsame
      exact ⟨e, h⟩
    · rintro ⟨e, h⟩
      exact ⟨name, body, e, rfl, h⟩
  have hconfined := changed_confined hchanged
  constructor
  · rintro ⟨hfailed, hsucceeded⟩ name' body' hsame
    rw [hreceive] at hsame
    cases hsame
    apply hconfined.mp
    rw [hfails, hprovider, hcall] at hfailed
    have hdone := hsucceeded name body hreceive
    rw [hcall] at hdone
    refine ⟨fun hfails => ⟨fun hnone => ?_, (hfailed hfails).2⟩, hdone⟩
    obtain ⟨hkv, hlogs, hcalls⟩ := (hfailed hfails).1 hnone
    exact ⟨hkv, hlogs, hcalls⟩
  · intro hunwrapped
    obtain ⟨hfailed, hsucceeded⟩ := hconfined.mpr (hunwrapped name body hreceive)
    refine ⟨?_, fun name' body' hsame => ?_⟩
    · rw [hfails, hprovider, hcall]
      refine fun hfails => ⟨fun hnone => ?_, (hfailed hfails).2⟩
      obtain ⟨hkv, hlogs, hcalls⟩ := (hfailed hfails).1 hnone
      exact ⟨hkv, hlogs, hcalls⟩
    · rw [hreceive] at hsame
      cases hsame
      rw [hcall]
      exact hsucceeded

end Caller

/-- From any state of the host, this is exactly when a call is framed. -/
theorem call_framed_iff (platform : Platform) (caller : Caller) (namePtr nameLen reqPtr reqLen : UInt32) :
    Caller.Framed platform caller namePtr nameLen reqPtr reqLen ↔
      Caller.Unwrapped platform caller namePtr nameLen reqPtr reqLen := by
  by_cases hrouted : ∃ name body, caller.receive namePtr nameLen reqPtr reqLen = .request name body
  · obtain ⟨name, body, hreceive⟩ := hrouted
    exact Caller.framed_of_request hreceive
  · have hunrouted : ∀ name body, caller.receive namePtr nameLen reqPtr reqLen ≠ .request name body :=
      fun name body h => hrouted ⟨name, body, h⟩
    exact ⟨fun _ name body h => absurd h (hunrouted name body), fun _ => Caller.framed_of_unrouted hunrouted⟩

/-- The response of a model that answers with a text of this length. -/
def longResponse (n : Nat) : LlmResponse :=
  ⟨"end_turn", [.text (String.ofList (List.replicate n 'a'))], .zero⟩

open Json.Text in
theorem length_writeString_replicate (n : Nat) :
    (Text.encodeChars (writeString (Text.chars (String.ofList (List.replicate n 'a'))))).length = n + 2 := by
  have hplain : (List.replicate n 'a').flatMap escape = List.replicate n 'a' := by
    induction n with
    | zero => rfl
    | succ n ih =>
        rw [List.replicate_succ, List.flatMap_cons, ih]
        rfl
  have hlength : (Text.encodeChars (List.replicate n 'a')).length = n := by
    clear hplain
    induction n with
    | zero => rfl
    | succ n ih =>
        rw [List.replicate_succ, Text.length_encodeChars_cons, ih]
        exact Nat.add_comm 1 n
  rw [writeString, Text.chars_eq, String.toList_ofList, hplain, Text.length_encodeChars_append,
    Text.length_encodeChars_cons, hlength]
  show 1 + n + 1 = n + 2
  omega

open Json.Text in
/-- The envelope adds a fixed number of bytes to the text. -/
theorem length_longResponse (n : Nat) :
    (respond stillPlatform LlmResponse.encode (.ok (longResponse n))).length = n + 116 := by
  have hlength : ∀ m, (respond stillPlatform LlmResponse.encode (.ok (longResponse m))).length =
      (Text.encodeChars (write (CapResponse.encode LlmResponse.encode (.ok (longResponse m))))).length :=
    fun _ => rfl
  have hempty : (respond stillPlatform LlmResponse.encode (.ok (longResponse 0))).length = 116 := by
    decide +kernel
  rw [← hempty, hlength, hlength]
  simp only [longResponse, CapResponse.encode, LlmResponse.encode, List.map_cons, List.map_nil,
    Content.encode, Content.text, KnownContent.encode, write, writeMembers, writeItems,
    Text.length_encodeChars_append, Text.length_encodeChars_cons, length_writeString_replicate]
  omega

/-- A guest that asks for a completion of an empty conversation, of a model that answers at length. -/
def longRun : HostRun :=
  .start .default (.constant (.ok (longResponse (2 ^ 31)))) ⟨.default, .unreachable, .empty⟩

def longMove : GuestMove := .request Cap.llmComplete (Text.utf8 "\x7b\"messages\":[]\x7d")

theorem call_unframed_long : Policy.default.validate stillPlatform = .ok () ∧
    ¬ Caller.Framed stillPlatform (longRun.caller longMove.memory) 0 12 12 15 := by
  refine ⟨rfl, fun hframed => ?_⟩
  have hreceive : longRun.receive longMove =
      some (.request Cap.llmComplete (Text.utf8 "\x7b\"messages\":[]\x7d")) :=
    HostRun.receive_request (by decide) (by decide) (by decide)
  have hread : stillPlatform.codec.fromSlice "LlmRequest" LlmRequest.decode
      (Text.utf8 "\x7b\"messages\":[]\x7d") = .ok ⟨none, [], []⟩ := by rfl
  have hshort := ((call_framed_iff _ _ _ _ _ _).mp hframed _ _ (Option.some.inj hreceive)).1 _
    ⟨rfl, by decide, _, hread, rfl⟩
  apply hshort
  rw [Caller.ReadsNegative, length_longResponse]
  exact Word.ofNat_neg (by omega) (by omega)

end TdsWasm
