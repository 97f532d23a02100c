import TdsWasm.HostMock
import TdsWasm.HostRetry
import TdsWasm.HostSession
import TdsWasm.LibPool

/-! The host one question at a time. The process asks the world outside for four things: an HTTP exchange of a
tool, an HTTP exchange of the model client, the time, and to be woken later. Here the host functions and the
run of a module are programs of these questions, so that several runs can be under way at once. Evaluated in a
world that has one answer to each question they are the functions of `runtime.rs`, `tools.rs` and `llm.rs` on
the platform of that world. -/

set_option autoImplicit false

namespace TdsWasm

/-! ### Questions -/

inductive WorldOp where
  | get (url : Url)
  | send (request : ModelRequest)
  | sleep (milliseconds : Nat)
  | now

abbrev WorldOp.Answer : WorldOp → Type
  | get _ => Exchange 0
  | send _ => Exchange defaultRedirects
  | sleep _ => Unit
  | now => Option String

/-- A question of a run, with the record of the run so far. -/
structure Question where
  history : History
  op : WorldOp

abbrev worldSignature : Signature where
  Op := Question
  Answer question := question.op.Answer

abbrev WorldProgram (α : Type) : Type := Program worldSignature α

/-- A world outside that has one answer to each question. -/
abbrev World : Type := (question : Question) → question.op.Answer

namespace World

variable (world : World)

/-- A world in which nothing answers. -/
def silent : World := fun question =>
  match question with
  | ⟨_, .get _⟩ => ⟨[], Nat.zero_le _, .error "unreachable"⟩
  | ⟨_, .send _⟩ => ⟨[], Nat.zero_le _, .error "unreachable"⟩
  | ⟨_, .sleep _⟩ => ()
  | ⟨_, .now⟩ => none

def toolClient : HttpClient Url 0 := ⟨fun history url => world ⟨history, .get url⟩⟩

def modelClient : HttpClient ModelRequest defaultRedirects := ⟨fun history request => world ⟨history, .send request⟩⟩

/-- The platform with this world outside. Its libraries and its environment are those of the base. -/
def platform (base : Platform) : Platform :=
  { base with
    formatNow := fun history => world ⟨history, .now⟩
    buildToolClient := fun timeout => (base.buildToolClient timeout).map fun _ => world.toolClient
    buildModelClient := fun timeout => (base.buildModelClient timeout).map fun _ => world.modelClient }

end World

/-- Every question is asked with a longer record than the ones before it. -/
def growing : Program.Ledger worldSignature Nat := .ascending fun question : Question => question.history.length

/-- A model provider that asks the world itself. It enters what it asks into the record. -/
structure WorldProvider where
  complete : History → LlmRequest → WorldProgram (Except CapError LlmResponse × List ModelEffect)
  describe : String
  entered : ∀ history request {low}, low ≤ history.length → (complete history request).Keeps growing
    (fun answered low => low ≤ history.length + answered.2.length) low

/-- The provider in this world. -/
def WorldProvider.toProvider (world : World) (llm : WorldProvider) : LlmProvider where
  complete history request := (llm.complete history request).eval world
  describe := llm.describe

namespace Stepwise

variable (platform : Platform)

def ask (history : History) (op : WorldOp) : WorldProgram op.Answer :=
  Program.ask (⟨history, op⟩ : Question) Program.done

theorem keeps_ask_bind {α κ : Type} {ledger : Program.Ledger worldSignature κ} {post : α → κ → Prop} {k : κ}
    {history : History} {op : WorldOp} {f : op.Answer → WorldProgram α} (hadmits : ledger.admits k ⟨history, op⟩)
    (hf : ∀ answer, (f answer).Keeps ledger post (ledger.enter k ⟨history, op⟩)) :
    (ask history op >>= f).Keeps ledger post k := ⟨hadmits, hf⟩

/-! ### Providers -/

/-- The retry loop. A wait is a question as well. -/
def completeLoop (config : LlmConfig) (history : History) (http : ModelRequest) (attempt : UInt32)
    (done : List ModelEffect) : WorldProgram (Except CapError LlmResponse × List ModelEffect) :=
  ask (history ++ done.map .model) (.send http) >>= fun exchange =>
    let done := done ++ [.send http exchange]
    match exchange.outcome with
    | .error e =>
        if attempt < config.maxRetries then
          ask (history ++ done.map .model) (.sleep (backoff (attempt + 1))) >>= fun _ =>
            completeLoop config history http (attempt + 1) (done ++ [.sleep (backoff (attempt + 1))])
        else pure (.error (.upstream ("request to the model failed: " ++ e)), done)
    | .ok response =>
        if response.isSuccess then pure (AnthropicProvider.accepted platform response, done)
        else if AnthropicProvider.retryable response ∧ attempt < config.maxRetries then
          let wait := match AnthropicProvider.retryAfter response with
            | some seconds => seconds * 1000
            | none => backoff (attempt + 1)
          ask (history ++ done.map .model) (.sleep wait) >>= fun _ =>
            completeLoop config history http (attempt + 1) (done ++ [.sleep wait])
        else pure (.error (AnthropicProvider.rejected response), done)
termination_by config.maxRetries.toNat - attempt.toNat
decreasing_by
  all_goals
    have hlt : attempt < config.maxRetries := by
      first | assumption | exact And.right (by assumption)
    have hnat := UInt32.lt_iff_toNat_lt.mp hlt
    rw [Word.toNat_add_one hlt]
    omega

open AnthropicProvider (judge)

/-- One attempt, and what it leads to. -/
theorem completeLoop_eq (config : LlmConfig) (history : History) (http : ModelRequest) (attempt : UInt32)
    (done : List ModelEffect) :
    completeLoop platform config history http attempt done =
      ask (history ++ done.map .model) (WorldOp.send http) >>= fun exchange : Exchange defaultRedirects =>
        match judge platform config attempt exchange.outcome with
        | .inl answer => pure (answer, done ++ [ModelEffect.send http exchange])
        | .inr wait =>
            ask (history ++ (done ++ [ModelEffect.send http exchange]).map .model) (WorldOp.sleep wait) >>= fun _ =>
              completeLoop platform config history http (attempt + 1)
                (done ++ [.send http exchange] ++ [.sleep wait]) := by
  rw [completeLoop]
  apply bind_congr
  intro exchange
  cases exchange.outcome with
  | error e =>
      simp only [judge]
      split_ifs <;> rfl
  | ok response =>
      simp only [judge]
      split_ifs <;> rfl

/-- The loop keeps a ledger that admits one attempt, and the wait and all later attempts after it. -/
theorem completeLoop_keeps {κ : Type} {ledger : Program.Ledger worldSignature κ} {config : LlmConfig}
    {history : History} {http : ModelRequest} (inv : UInt32 → List ModelEffect → κ → Prop)
    {post : Except CapError LlmResponse × List ModelEffect → κ → Prop}
    (hsend : ∀ attempt done k, inv attempt done k →
      ledger.admits k ⟨history ++ done.map .model, .send http⟩ ∧ ∀ exchange answer,
        post (answer, done ++ [ModelEffect.send http exchange]) (ledger.enter k ⟨history ++ done.map .model, .send http⟩))
    (hsleep : ∀ attempt done k exchange wait, inv attempt done k → attempt < config.maxRetries →
      let sent := ledger.enter k ⟨history ++ done.map .model, .send http⟩
      let question : Question := ⟨history ++ (done ++ [ModelEffect.send http exchange]).map .model, .sleep wait⟩
      ledger.admits sent question ∧
        inv (attempt + 1) (done ++ [ModelEffect.send http exchange] ++ [.sleep wait]) (ledger.enter sent question))
    {attempt : UInt32} {done : List ModelEffect} {k : κ} (h : inv attempt done k) :
    (completeLoop platform config history http attempt done).Keeps ledger post k := by
  generalize hleft : config.maxRetries.toNat - attempt.toNat = left
  induction left using Nat.strong_induction_on generalizing attempt done k with
  | _ left ih =>
      rw [completeLoop_eq]
      obtain ⟨hadmits, hanswered⟩ := hsend attempt done k h
      refine keeps_ask_bind hadmits fun exchange => ?_
      cases hjudge : judge platform config attempt exchange.outcome with
      | inl answer => exact hanswered exchange answer
      | inr wait =>
          have hlt := AnthropicProvider.lt_of_judge hjudge
          have hnat := UInt32.lt_iff_toNat_lt.mp hlt
          obtain ⟨hwait, hnext⟩ := hsleep attempt done k exchange wait h hlt
          exact keeps_ask_bind hwait fun _ => ih _ (by rw [Word.toNat_add_one hlt]; omega) hnext rfl

/-- The loop enters every attempt, and every wait. -/
theorem completeLoop_entered (config : LlmConfig) (history : History) (http : ModelRequest) {low : Nat}
    (hlow : low ≤ history.length) : (completeLoop platform config history http 0 []).Keeps growing
      (fun answered low => low ≤ history.length + answered.2.length) low := by
  apply completeLoop_keeps platform fun _ done low => low ≤ history.length + done.length
  · intro attempt done low hle
    refine ⟨?_, fun exchange answer => ?_⟩
    · show low ≤ (history ++ done.map HostEvent.model).length
      simpa using hle
    · show (history ++ done.map HostEvent.model).length + 1 ≤ _
      simp [Nat.add_assoc]
  · intro attempt done low exchange wait hle _
    refine ⟨?_, ?_⟩
    · show (history ++ done.map HostEvent.model).length + 1 ≤ (history ++ _).length
      simp [Nat.add_assoc]
    · show (history ++ (done ++ [ModelEffect.send http exchange]).map HostEvent.model).length + 1 ≤ _
      simp [Nat.add_assoc]
  · exact hlow

/-- `AnthropicProvider`, which asks the world wherever its client would be used. -/
def anthropic (provider : AnthropicProvider) : WorldProvider where
  complete history request :=
    completeLoop platform provider.config history (provider.httpRequest request) 0 []
  describe := "anthropic:" ++ provider.config.model
  entered history request _ := completeLoop_entered platform provider.config history (provider.httpRequest request)

/-- `MockProvider`, which asks nobody. -/
def mock : WorldProvider where
  complete _ request := pure (.ok (MockProvider.complete platform request), [])
  describe := "mock"
  entered _ _ _ hlow := hlow

/-- `llm::build`. -/
def build (config : LlmConfig) : Except String WorldProvider :=
  match config.provider with
  | .mock => .ok (mock platform)
  | .anthropic => (AnthropicProvider.new platform config).map (anthropic platform)

/-! ### Tools -/

def httpGet (tools : ToolBox) (history : History) (input : JsonValue) :
    WorldProgram (Except CapError String × List HostEvent) :=
  match stringArg platform input "url" with
  | .error e => pure (.error e, [])
  | .ok raw =>
      match platform.urlParse raw with
      | .error e => pure (.error (.invalid ("url is not valid: " ++ e)), [])
      | .ok parsed =>
          if parsed.scheme ≠ "https" then
            pure (.error (.denied "only https URLs may be fetched"), [])
          else
            match parsed.hostStr with
            | none => pure (.error (.invalid "url has no host"), [])
            | some host =>
                if !tools.policy.tools.http.allows host then
                  pure (.error (.denied ("host " ++ Text.debug platform.plain host ++
                    " is not in this host's allowlist")), [])
                else
                  ask history (.get parsed) >>= fun exchange =>
                    match exchange.outcome with
                    | .error e =>
                        pure (.error (.upstream ("GET " ++ host ++ " failed: " ++ e)), [.get parsed exchange])
                    | .ok response => pure (tools.fetched response, [.get parsed exchange])

def nowRfc3339 (history : History) : WorldProgram String :=
  (fun formatted : Option String => formatted.getD "unavailable") <$> ask history .now

def invoke (tools : ToolBox) (history : History) (name : String) (input : JsonValue) :
    WorldProgram (Except CapError String × ToolBox × List HostEvent) :=
  if !tools.policy.tools.enabled.any (· = name) then
    pure (.error (.denied ("tool " ++ Text.debug platform.plain name ++
      " is not enabled by this host's policy")), tools, [])
  else
    match name with
    | "now" => (fun text => (.ok text, tools, [])) <$> nowRfc3339 history
    | "http_get" => (fun (answer, events) => (answer, tools, events)) <$> httpGet platform tools history input
    | "kv_get" => pure (tools.kvGet platform input, tools, [])
    | "kv_put" =>
        let (answer, tools) := tools.kvPut platform input
        pure (answer, tools, [])
    | other => pure (.error (.notFound ("no tool named " ++ Text.debug platform.plain other)), tools, [])

/-! ### Host functions -/

variable (llm : WorldProvider)

def dispatch (state : HostState) (history : History) (name : String) (request : Bytes) :
    WorldProgram (Bytes × HostState × List HostEvent) :=
  if name = Cap.toolsList then
    pure (respond platform ToolsListResponse.encode (.ok ⟨state.tools.specs⟩), state, [])
  else if name = Cap.toolInvoke then
    match platform.codec.fromSlice "ToolInvokeRequest" ToolInvokeRequest.decode request with
    | .ok req =>
        (fun (answer, tools, events) =>
          (respond platform ToolInvokeResponse.encode (answer.map fun content => ⟨content⟩),
            { state with tools := tools }, events ++ [.invoked req answer])) <$>
          invoke platform state.tools history req.name req.input
    | .error e =>
        pure (respond platform ToolInvokeResponse.encode
          (.error (.invalid ("malformed tool.invoke request: " ++ e))), state, [])
  else if name = Cap.llmComplete then
    let allowed := state.policy.limits.maxSteps
    if allowed ≤ state.llmCalls then
      pure (respond platform LlmResponse.encode (.error (.denied ("this run has already used its " ++
        toString allowed.toNat ++ " model turns"))), state, [])
    else
      match platform.codec.fromSlice "LlmRequest" LlmRequest.decode request with
      | .ok req =>
          (fun (answer, effects) =>
            (respond platform LlmResponse.encode answer, { state with llmCalls := state.llmCalls + 1 },
              effects.map .model ++ [.completed req answer])) <$> llm.complete history req
      | .error e =>
          pure (respond platform LlmResponse.encode
            (.error (.invalid ("malformed llm.complete request: " ++ e))), state, [])
  else
    pure (respond platform encodeUnit (.error (.notFound ("this host provides no capability named " ++
      Text.debug platform.plain name))), state, [])

def call (caller : Caller) (namePtr nameLen reqPtr reqLen : UInt32) : WorldProgram (Int32 × Caller) :=
  let max := caller.data.policy.limits.maxRequestBytes
  if max < reqLen.toNat ∨ 256 < nameLen then
    let response := respond platform encodeUnit (.error (.invalid ("capability request of " ++
      toString reqLen.toNat ++ " bytes exceeds the " ++ toString max ++ " byte limit")))
    pure (Int32.ofNat response.length, caller.setPending response)
  else
    match readGuest caller.memory namePtr nameLen with
    | none => pure (ErrorCode.badPointer, caller)
    | some nameBytes =>
        match readGuest caller.memory reqPtr reqLen with
        | none => pure (ErrorCode.badPointer, caller)
        | some reqBytes =>
            match Text.fromUtf8 nameBytes with
            | none => pure (ErrorCode.badRequest, caller)
            | some name =>
                (fun (response, state, events) =>
                  (Int32.ofNat response.length,
                    { caller with
                      data := { state with pending := response }
                      history := caller.history ++ events })) <$>
                  dispatch platform llm caller.data caller.history name reqBytes

def step (run : HostRun) (move : GuestMove) : WorldProgram (HostReply × HostRun) :=
  match move.invocation with
  | .log level ptr len => pure (HostRun.ofCaller ((run.caller move.memory).log level ptr len) none).swap
  | .call namePtr nameLen reqPtr reqLen =>
      (fun (value, caller) => (HostRun.ofCaller caller (some value)).swap) <$>
        call platform llm (run.caller move.memory) namePtr nameLen reqPtr reqLen
  | .responseRead ptr len =>
      let (value, caller) := (run.caller move.memory).responseRead ptr len
      pure (HostRun.ofCaller caller (some value)).swap

/-! ### Sessions -/

variable {γ : Type}

/-- Code that runs in the store, may ask the world and may fail. -/
abbrev StepCall (γ α : Type) : Type := ExceptT Failure (StateT (Store γ) WorldProgram) α

/-- Code of the host that asks nothing. -/
def locally {α : Type} (call : GuestCall γ α) : StepCall γ α := fun store => pure (call store)

/-- Code of a guest, in the store. -/
def inStore {α : Type} (code : GuestCode γ α) : StepCall γ α := fun store =>
  (fun ((outcome, guest), host) => (outcome.mapError .trap, ⟨host, guest⟩)) <$>
    Program.serve (step platform llm) (code store.guest) store.host

variable (module : AgentModule γ)

def instantiate : StepCall γ Unit :=
  tryCatch (locally (Instance.invokeAgent.liftExcept module.shape.link) >>= fun _ =>
      inStore platform llm module.start)
    fun failure => throw (failure.context "instantiating the agent module")

def checkAbiVersion : StepCall γ Unit := do
  match module.shape.getTypedFunc "tds_abi_version" ⟨[], [.i32]⟩ with
  | .error failure => throw (failure.context "agent module has no usable tds_abi_version export")
  | .ok () =>
      let version ← tryCatch (inStore platform llm module.abiVersion) fun failure =>
        throw (failure.context "calling tds_abi_version")
      if version ≠ TdsWasm.abiVersion then
        throw (.message ("agent module speaks ABI version " ++ toString version ++ ", host speaks " ++
          toString TdsWasm.abiVersion))

def invokeAgent (input : AgentInput) : StepCall γ AgentOutput := do
  if module.shape.getMemory "memory" then
    locally (Instance.invokeAgent.liftExcept (module.shape.getTypedFunc "tds_alloc" ⟨[.i32], [.i32]⟩))
    locally (Instance.invokeAgent.liftExcept (module.shape.getTypedFunc "tds_dealloc" ⟨[.i32, .i32], []⟩))
    locally (Instance.invokeAgent.liftExcept (module.shape.getTypedFunc "tds_run" ⟨[.i32, .i32], [.i64]⟩))
    let encoded := platform.codec.toVec input.encode
    let len := UInt32.ofNat encoded.length
    let ptr ← inStore platform llm (module.alloc len)
    if ptr = 0 then
      throw (.message ("agent module could not allocate " ++ toString len.toNat ++
        " bytes for its input"))
    locally (module.memory.write ptr encoded)
    let packed ← inStore platform llm (module.run ptr len)
    inStore platform llm (module.dealloc ptr len)
    let (outPtr, outLen) := unpackPtrLen packed
    if outPtr = 0 ∨ outLen = 0 then
      throw (.message "agent returned an empty result")
    let buffer ← locally (module.memory.read outPtr outLen)
    inStore platform llm (module.dealloc outPtr outLen)
    match platform.codec.fromSlice "AgentOutput" AgentOutput.decode buffer with
    | .ok output => return output
    | .error e => throw (.message ("decoding the agent result: " ++ e))
  else throw (.message "agent module does not export its memory")

end Stepwise

/-- What all runs of a process share: the policy, the provider and the compiled module, with the state of its
guest before it runs. -/
structure Shared (γ : Type) where
  policy : Policy
  llm : WorldProvider
  module : AgentModule γ
  fresh : γ

namespace Shared

variable {γ : Type} (platform : Platform) (shared : Shared γ)

/-- `Runtime::new`. -/
def new (policy : Policy) (module : AgentModule γ) (fresh : γ) (llm : WorldProvider) :
    Except String (Shared γ) := do
  policy.validate platform
  verifyModuleShape platform module.shape
  return ⟨policy, llm, module, fresh⟩

/-- `Runtime::from_files`, for a file that has been compiled. -/
def fromFiles (policy : Policy) (module : AgentModule γ) (fresh : γ) : Except String (Shared γ) := do
  let llm ← Stepwise.build platform policy.llm
  new platform policy module fresh llm

/-- The store a run starts with. The provider is asked through the world; the field for it is not used. -/
def store (tools : ToolBox) : Store γ :=
  ⟨.start shared.policy (.constant (.error (.upstream "asked elsewhere"))) tools, shared.fresh⟩

def report (result : Except Failure AgentOutput) (store : Store γ) : RunReport where
  output := match result with
    | .ok output => output
    | .error failure => stoppedOutput failure
  model := shared.llm.describe
  logs := store.host.data.logs

/-- `Runtime::run`. -/
def run (input : AgentInput) : WorldProgram (RunResult γ) :=
  match clamp input.maxSteps 1 shared.policy.limits.maxSteps with
  | none => pure .panicked
  | some maxSteps =>
      match ToolBox.new platform shared.policy with
      | .error e => pure (.err (.message e))
      | .ok tools =>
          (Stepwise.instantiate platform shared.llm shared.module >>= fun _ =>
            Stepwise.checkAbiVersion platform shared.llm shared.module) (shared.store tools) >>= fun
          | (.error failure, _) => pure (.err failure)
          | (.ok (), store) =>
              (fun (result, store) => .ok (shared.report result store) result store) <$>
                Stepwise.invokeAgent platform shared.llm shared.module { input with maxSteps := maxSteps } store

/-- The same in a world that has one answer to each question. -/
def toRuntime (world : World) : Runtime γ :=
  ⟨shared.policy, shared.llm.toProvider world, shared.module.toInstance (world.platform platform), shared.fresh⟩

end Shared

/-- The URLs that the tools may fetch under this policy. -/
structure Policy.Fetches (policy : Policy) (url : Url) : Prop where
  enabled : "http_get" ∈ policy.tools.enabled
  scheme_eq : url.scheme = "https"
  allowed : ∃ host, url.hostStr = some host ∧ policy.tools.http.allows host = true

namespace Stepwise

variable (platform : Platform) {κ : Type} {ledger : Program.Ledger worldSignature κ} {k : κ} {history : History}

/-- A fetch asks at most one question, after all checks, and enters it. -/
theorem httpGet_keeps (post : Except CapError String × List HostEvent → κ → Prop) {tools : ToolBox}
    (input : JsonValue) (henabled : "http_get" ∈ tools.policy.tools.enabled) (hnone : ∀ answer, post (answer, []) k)
    (hget : ∀ url, tools.policy.Fetches url → ledger.admits k ⟨history, .get url⟩ ∧ ∀ answer exchange,
      post (answer, [.get url exchange]) (ledger.enter k ⟨history, .get url⟩)) :
    (httpGet platform tools history input).Keeps ledger post k := by
  unfold httpGet
  cases stringArg platform input "url" with
  | error e => exact hnone _
  | ok raw =>
      simp only
      cases platform.urlParse raw with
      | error e => exact hnone _
      | ok parsed =>
          simp only
          by_cases hscheme : parsed.scheme = "https"
          · rw [if_neg (not_not.mpr hscheme)]
            cases hhost : parsed.hostStr with
            | none => exact hnone _
            | some host =>
                simp only
                by_cases hallow : tools.policy.tools.http.allows host = true
                · rw [if_neg (by simp [hallow])]
                  obtain ⟨hadmits, hanswered⟩ := hget parsed ⟨henabled, hscheme, host, hhost, hallow⟩
                  apply keeps_ask_bind hadmits
                  intro exchange
                  cases exchange.outcome <;> exact hanswered _ exchange
                · rw [if_pos (by simp [hallow])]
                  exact hnone _
          · rw [if_pos hscheme]
            exact hnone _

/-- So does any tool call, which may ask for the time instead. -/
theorem invoke_keeps (post : ToolBox → List HostEvent → κ → Prop) (tools : ToolBox) (name : String)
    (input : JsonValue) (hnone : ∀ kv, post { tools with kv := kv } [] k)
    (hget : ∀ url, tools.policy.Fetches url → ledger.admits k ⟨history, .get url⟩ ∧ ∀ exchange,
      post tools [.get url exchange] (ledger.enter k ⟨history, .get url⟩))
    (hnow : "now" ∈ tools.policy.tools.enabled → ledger.admits k ⟨history, .now⟩ ∧
      post tools [] (ledger.enter k ⟨history, .now⟩)) :
    (invoke platform tools history name input).Keeps ledger (fun answered k => post answered.2.1 answered.2.2 k) k := by
  have hput : ∃ kv, (tools.kvPut platform input).2 = { tools with kv := kv } := by
    unfold ToolBox.kvPut
    split
    · exact ⟨tools.kv, rfl⟩
    · split
      · exact ⟨tools.kv, rfl⟩
      · simp only
        split_ifs
        · exact ⟨tools.kv, rfl⟩
        · exact ⟨tools.kv, rfl⟩
        · exact ⟨_, rfl⟩
  unfold invoke
  split_ifs with hdisabled
  · exact hnone tools.kv
  · have henabled : name ∈ tools.policy.tools.enabled := by simpa using hdisabled
    split
    · obtain ⟨hadmits, hanswered⟩ := hnow henabled
      exact keeps_ask_bind hadmits fun _ => hanswered
    · have hfetch := httpGet_keeps platform (fun answered k => post tools answered.2 k) input henabled
        (fun _ => hnone tools.kv) fun url hfetches => ⟨(hget url hfetches).1, fun _ => (hget url hfetches).2⟩
      exact hfetch.map fun _ _ hentered => hentered
    · exact hnone tools.kv
    · obtain ⟨kv, hkv⟩ := hput
      show post (tools.kvPut platform input).2 [] k
      rw [hkv]
      exact hnone kv
    · exact hnone tools.kv

end Stepwise

/-! ### What a run keeps -/

section Keeps

variable {γ κ : Type} (platform : Platform) (llm : WorldProvider) (ledger : Program.Ledger worldSignature κ)
  (inv : HostRun → κ → Prop)

/-- What the host has to do with the ledger, and how the parts of a host function keep it: pending responses and
lines of the log do not matter, a tool call and a completion keep it as they are entered. -/
structure Kept : Prop where
  quiet : ∀ {run : HostRun} {k : κ} (pending : Bytes) (logs : List LogLine), inv run k →
    inv ⟨{ run.data with pending := pending, logs := logs }, run.history⟩ k
  invoked : ∀ {run : HostRun} {k : κ} (req : ToolInvokeRequest), inv run k →
    (Stepwise.invoke platform run.data.tools run.history req.name req.input).Keeps ledger
      (fun answered k => inv ⟨{ run.data with tools := answered.2.1 },
        run.history ++ (answered.2.2 ++ [.invoked req answered.1])⟩ k) k
  completed : ∀ {run : HostRun} {k : κ} (req : LlmRequest), inv run k →
    run.data.llmCalls < run.data.policy.limits.maxSteps → (llm.complete run.history req).Keeps ledger
      (fun answered k => inv ⟨{ run.data with llmCalls := run.data.llmCalls + 1 },
        run.history ++ (answered.2.map .model ++ [.completed req answered.1])⟩ k) k

/-- Code in the store keeps the ledger, and what the host has to do with it. -/
def StepCall.Keeps {α : Type} (call : Stepwise.StepCall γ α) : Prop :=
  ∀ store k, inv store.host k → (call store).Keeps ledger (fun ended k => inv ended.2.host k) k

namespace StepCall.Keeps

variable {ledger inv} {α β : Type} {x : Stepwise.StepCall γ α}

theorem pure (a : α) : StepCall.Keeps ledger inv (Pure.pure a : Stepwise.StepCall γ α) := fun _ _ h => h

theorem failure (e : Failure) : StepCall.Keeps ledger inv (throw e : Stepwise.StepCall γ α) := fun _ _ h => h

theorem bind {f : α → Stepwise.StepCall γ β} (hx : StepCall.Keeps ledger inv x)
    (hf : ∀ a, StepCall.Keeps ledger inv (f a)) : StepCall.Keeps ledger inv (x >>= f) := by
  intro store k h
  show Program.Keeps ledger _ k (StateT.bind x (ExceptT.bindCont f) store)
  refine (hx store k h).bind fun ended k hended => ?_
  obtain ⟨outcome, after⟩ := ended
  cases outcome with
  | ok a => exact hf a after k hended
  | error e => exact hended

theorem tryCatch (hx : StepCall.Keeps ledger inv x) (failing : Failure → Failure) :
    StepCall.Keeps ledger inv (tryCatch x fun e => throw (failing e)) := by
  intro store k h
  show Program.Keeps ledger _ k (ExceptT.tryCatch x (fun e => throw (failing e)) store)
  simp only [ExceptT.tryCatch, ExceptT.mk, Bind.bind, StateT.bind]
  refine Program.Keeps.bind (hx store k h) fun ended k hended => ?_
  obtain ⟨outcome, after⟩ := ended
  cases outcome <;> exact hended

theorem locally {call : GuestCall γ α} (h : ∀ store, (call store).2.host = store.host) :
    StepCall.Keeps ledger inv (Stepwise.locally call) := by
  intro store k hinv
  show inv (call store).2.host k
  rw [h]
  exact hinv

theorem lookup (found : Except Failure α) : StepCall.Keeps ledger inv
    (Stepwise.locally (Instance.invokeAgent.liftExcept found) : Stepwise.StepCall γ α) := locally fun _ => rfl

theorem write (memory : GuestMemory γ) (ptr : UInt32) (bytes : Bytes) :
    StepCall.Keeps ledger inv (Stepwise.locally (memory.write ptr bytes)) := by
  apply locally
  intro store
  rw [GuestMemory.write_apply]
  cases writeGuest (some (memory.data store.guest)) ptr bytes <;> rfl

theorem read (memory : GuestMemory γ) (ptr len : UInt32) :
    StepCall.Keeps ledger inv (Stepwise.locally (memory.read ptr len)) := by
  apply locally
  intro store
  rw [GuestMemory.read_apply]
  cases readGuest (some (memory.data store.guest)) ptr len <;> rfl

end StepCall.Keeps

variable {platform llm ledger inv} (hkept : Kept platform llm ledger inv)

include hkept

namespace Stepwise

theorem dispatch_keeps (run : HostRun) {k : κ} (name : String) (request : Bytes) (h : inv run k) :
    (dispatch platform llm run.data run.history name request).Keeps ledger
      (fun answered k => inv ⟨answered.2.1, run.history ++ answered.2.2⟩ k) k := by
  have hnone : inv ⟨run.data, run.history ++ []⟩ k := by
    rw [List.append_nil]
    exact h
  unfold dispatch
  split_ifs
  · exact hnone
  · cases platform.codec.fromSlice "ToolInvokeRequest" ToolInvokeRequest.decode request with
    | error e => exact hnone
    | ok req => exact (hkept.invoked req h).map fun _ _ hentered => hentered
  · simp only
    split_ifs with hspent
    · exact hnone
    · cases platform.codec.fromSlice "LlmRequest" LlmRequest.decode request with
      | error e => exact hnone
      | ok req => exact (hkept.completed req h (UInt32.not_le.mp hspent)).map fun _ _ hentered => hentered
  · exact hnone

/-- One call of a host function keeps what its parts keep. -/
theorem step_keeps (run : HostRun) (k : κ) (move : GuestMove) (h : inv run k) :
    (step platform llm run move).Keeps ledger (fun answered k => inv answered.2 k) k := by
  unfold step
  cases move.invocation with
  | log level ptr len =>
      show inv ⟨((run.caller move.memory).log level ptr len).data, _⟩ k
      unfold Caller.log
      split
      · exact h
      · simp only
        split_ifs
        · exact hkept.quiet run.data.pending _ h
        · exact h
  | call namePtr nameLen reqPtr reqLen =>
      have hcall : (call platform llm (run.caller move.memory) namePtr nameLen reqPtr reqLen).Keeps ledger
          (fun answered k => inv ⟨answered.2.data, answered.2.history⟩ k) k := by
        unfold call
        simp only
        split_ifs
        · exact hkept.quiet _ run.data.logs h
        · split
          · exact h
          · split
            · exact h
            · split
              · exact h
              · apply (dispatch_keeps hkept run _ _ h).map
                intro answered k hentered
                exact hkept.quiet _ answered.2.1.logs hentered
      exact hcall.map fun _ _ hanswered => hanswered
  | responseRead ptr len =>
      have hread : ∃ pending memory, ((run.caller move.memory).responseRead ptr len).2 =
          ⟨{ run.data with pending := pending }, memory, run.history⟩ := by
        unfold Caller.responseRead
        simp only
        split_ifs
        · exact ⟨run.data.pending, _, rfl⟩
        · split <;> exact ⟨[], _, rfl⟩
      obtain ⟨pending, memory, hread⟩ := hread
      show inv ⟨((run.caller move.memory).responseRead ptr len).2.data,
        ((run.caller move.memory).responseRead ptr len).2.history⟩ k
      rw [hread]
      exact hkept.quiet pending run.data.logs h

end Stepwise

theorem Stepwise.inStore_keeps {α : Type} (code : GuestCode γ α) :
    StepCall.Keeps ledger inv (Stepwise.inStore platform llm code) := by
  intro store k h
  exact (Program.Keeps.serve (step_keeps hkept) (code store.guest) h).map fun _ _ hended => hended

/-- What is done before the agent is invoked. -/
theorem Stepwise.enter_keeps (module : AgentModule γ) : StepCall.Keeps ledger inv
    (Stepwise.instantiate platform llm module >>= fun _ => Stepwise.checkAbiVersion platform llm module) := by
  refine .bind (.tryCatch (.bind (.lookup _) fun _ => inStore_keeps hkept _) _) fun _ => ?_
  unfold checkAbiVersion
  cases module.shape.getTypedFunc "tds_abi_version" ⟨[], [.i32]⟩ with
  | error failure => exact .failure _
  | ok _ =>
      refine .bind (.tryCatch (inStore_keeps hkept _) _) fun version => ?_
      split_ifs
      · exact .failure _
      · exact .pure ()

theorem Stepwise.invokeAgent_keeps (module : AgentModule γ) (input : AgentInput) :
    StepCall.Keeps ledger inv (Stepwise.invokeAgent platform llm module input) := by
  unfold invokeAgent
  split_ifs
  · refine .bind (.lookup _) fun _ => .bind (.lookup _) fun _ => .bind (.lookup _) fun _ =>
      .bind (inStore_keeps hkept _) fun ptr => ?_
    split_ifs
    · exact .failure _
    refine .bind (.write _ _ _) fun _ => .bind (inStore_keeps hkept _) fun packed =>
      .bind (inStore_keeps hkept _) fun _ => ?_
    simp only
    split_ifs
    · exact .failure _
    refine .bind (.read _ _ _) fun buffer => .bind (inStore_keeps hkept _) fun _ => ?_
    cases platform.codec.fromSlice "AgentOutput" AgentOutput.decode buffer with
    | ok output => exact .pure output
    | error e => exact .failure _
  · exact .failure _

end Keeps

/-- The store that a run leaves, if it comes to a report, has this property. -/
def RunResult.Leaving {γ : Type} (property : HostRun → Prop) : RunResult γ → Prop
  | .ok _ _ store => property store.host
  | _ => True

/-- **What the host functions keep, every run keeps**, whatever the module and the input are. -/
theorem Shared.run_keeps {γ κ : Type} {platform : Platform} {shared : Shared γ}
    {ledger : Program.Ledger worldSignature κ} {inv : HostRun → κ → Prop}
    (hkept : Kept platform shared.llm ledger inv) {k : κ}
    (hstart : ∀ tools, ToolBox.new platform shared.policy = .ok tools → inv (shared.store tools).host k)
    (input : AgentInput) :
    (shared.run platform input).Keeps ledger (fun result k => result.Leaving fun host => inv host k) k := by
  unfold run
  cases clamp input.maxSteps 1 shared.policy.limits.maxSteps with
  | none => exact trivial
  | some maxSteps =>
      cases htools : ToolBox.new platform shared.policy with
      | error e => exact trivial
      | ok tools =>
          refine (Stepwise.enter_keeps hkept shared.module (shared.store tools) k (hstart tools htools)).bind
            fun ended k hended => ?_
          obtain ⟨outcome, store⟩ := ended
          cases outcome with
          | error failure => exact trivial
          | ok _ =>
              exact (Stepwise.invokeAgent_keeps hkept shared.module _ store k hended).map fun _ _ hended => hended

end TdsWasm
