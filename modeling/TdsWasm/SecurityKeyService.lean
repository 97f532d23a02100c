import TdsWasm.SecurityService

/-! The API key in the service. A world outside that does not read the key gets from two services with different keys
the same questions but for the key, whatever is posted and in whatever order the runs come to ask; so it gives the
same answers, and the clients get the same replies. -/

set_option autoImplicit false

namespace TdsWasm

/-! ### Without the key -/

/-- The request without the header that carries the key. -/
def ModelRequest.keyless (request : ModelRequest) : ModelRequest :=
  { request with headers := request.headers.filter fun header => header.1 ≠ "x-api-key" }

def HostEvent.keyless : HostEvent → HostEvent
  | .model (.send request exchange) => .model (.send request.keyless exchange)
  | event => event

def History.keyless (history : History) : History := history.map HostEvent.keyless

def WorldOp.keyless : WorldOp → WorldOp
  | .send request => .send request.keyless
  | op => op

def Question.keyless (question : Question) : Question := ⟨question.history.keyless, question.op.keyless⟩

/-- Questions that differ in the key at most, and the same answers. -/
def keyed : Likeness worldSignature where
  same question question' := question.keyless = question'.keyless
  answers answer answer' := HEq answer answer'

theorem History.keyless_append (first second : History) :
    keyless (first ++ second) = keyless first ++ keyless second := List.map_append

theorem AnthropicProvider.keyless_httpRequest (provider : AnthropicProvider) (key : String) (request : LlmRequest) :
    (provider.httpRequest request).keyless =
      (AnthropicProvider.httpRequest { provider with apiKey := key } request).keyless := by
  have hdrop : ∀ (key : String) (rest : List (String × String)),
      (("x-api-key", key) :: rest).filter (fun header => header.1 ≠ "x-api-key") =
        rest.filter fun header => header.1 ≠ "x-api-key" := fun key rest => List.filter_cons_of_neg (by simp)
  exact congrArg (fun headers => ModelRequest.mk _ headers (provider.body request))
    ((hdrop provider.apiKey _).trans (hdrop key _).symm)

theorem keyless_effects_append {done done' : List ModelEffect} {effect effect' : ModelEffect}
    (hdone : History.keyless (done.map .model) = History.keyless (done'.map .model))
    (heffect : HostEvent.keyless (.model effect) = HostEvent.keyless (.model effect')) :
    History.keyless ((done ++ [effect]).map .model) = History.keyless ((done' ++ [effect']).map .model) := by
  rw [List.map_append, List.map_append, History.keyless_append, History.keyless_append, hdone]
  exact congrArg (fun event => _ ++ [event]) heffect

/-- What the host keeps of two runs is the same, but for the key in the record. -/
structure Keyless (left right : HostRun) : Prop where
  data : left.data = right.data
  history : left.history.keyless = right.history.keyless

/-! ### Host functions -/

namespace Stepwise

open Program (Paired)

variable {α β : Type} {ends : α → β → Prop} {history history' : History}

theorem paired_ask_bind {op : WorldOp} {f : op.Answer → WorldProgram α} {g : op.Answer → WorldProgram β}
    (hhistory : history.keyless = history'.keyless) (hf : ∀ answer, Paired keyed ends (f answer) (g answer)) :
    Paired keyed ends (ask history op >>= f) (ask history' op >>= g) := by
  refine .ask (congrArg (Question.mk · op.keyless) hhistory) fun answer answer' hanswer => ?_
  cases eq_of_heq hanswer
  exact hf answer

theorem paired_send_bind {request request' : ModelRequest}
    {f : Exchange defaultRedirects → WorldProgram α} {g : Exchange defaultRedirects → WorldProgram β}
    (hhistory : history.keyless = history'.keyless) (hrequest : request.keyless = request'.keyless)
    (hf : ∀ exchange, Paired keyed ends (f exchange) (g exchange)) :
    Paired keyed ends (ask history (.send request) >>= f) (ask history' (.send request') >>= g) := by
  refine .ask (congrArg₂ Question.mk hhistory (congrArg WorldOp.send hrequest)) fun answer answer' hanswer => ?_
  cases eq_of_heq hanswer
  exact hf answer

variable (platform : Platform)

theorem httpGet_paired (tools : ToolBox) (input : JsonValue) (hhistory : history.keyless = history'.keyless) :
    Paired keyed Eq (httpGet platform tools history input) (httpGet platform tools history' input) := by
  unfold httpGet
  cases stringArg platform input "url" with
  | error e => exact .done rfl
  | ok raw =>
      simp only
      cases platform.urlParse raw with
      | error e => exact .done rfl
      | ok parsed =>
          simp only
          split_ifs
          · exact .done rfl
          · cases parsed.hostStr with
            | none => exact .done rfl
            | some host =>
                simp only
                split_ifs
                · exact .done rfl
                · apply paired_ask_bind hhistory
                  intro exchange
                  cases exchange.outcome <;> exact .done rfl

theorem invoke_paired (tools : ToolBox) (name : String) (input : JsonValue)
    (hhistory : history.keyless = history'.keyless) :
    Paired keyed Eq (invoke platform tools history name input) (invoke platform tools history' name input) := by
  unfold invoke
  split_ifs
  · exact .done rfl
  · split
    · exact (paired_ask_bind hhistory fun answer => .done rfl)
    · exact (httpGet_paired platform tools input hhistory).map fun _ _ heq => by rw [heq]
    · exact .done rfl
    · exact .done rfl
    · exact .done rfl

/-- Two providers that ask and answer the same, but for the key. -/
structure Interchangeable (llm llm' : WorldProvider) : Prop where
  describe : llm.describe = llm'.describe
  complete : ∀ {history history' : History} (request : LlmRequest), history.keyless = history'.keyless →
    Paired keyed (fun answered answered' => answered.1 = answered'.1 ∧
        History.keyless (answered.2.map .model) = History.keyless (answered'.2.map .model))
      (llm.complete history request) (llm'.complete history' request)

/-- The loop asks in step, as long as it sends what differs in the key at most. -/
theorem completeLoop_paired (config : LlmConfig) {http http' : ModelRequest} (hhttp : http.keyless = http'.keyless)
    (hhistory : history.keyless = history'.keyless) {attempt : UInt32} {done done' : List ModelEffect}
    (hdone : History.keyless (done.map .model) = History.keyless (done'.map .model)) :
    Paired keyed (fun answered answered' => answered.1 = answered'.1 ∧
        History.keyless (answered.2.map .model) = History.keyless (answered'.2.map .model))
      (completeLoop platform config history http attempt done)
      (completeLoop platform config history' http' attempt done') := by
  generalize hleft : config.maxRetries.toNat - attempt.toNat = left
  induction left using Nat.strong_induction_on generalizing attempt done done' with
  | _ left ih =>
      have hasks : ∀ {done done' : List ModelEffect},
          History.keyless (done.map .model) = History.keyless (done'.map .model) →
          History.keyless (history ++ done.map .model) = History.keyless (history' ++ done'.map .model) := by
        intro done done' hdone
        rw [History.keyless_append, History.keyless_append, hhistory, hdone]
      have hsent : ∀ exchange, History.keyless ((done ++ [ModelEffect.send http exchange]).map .model) =
          History.keyless ((done' ++ [ModelEffect.send http' exchange]).map .model) := fun exchange =>
        keyless_effects_append hdone (congrArg (fun request => HostEvent.model (.send request exchange)) hhttp)
      rw [completeLoop_eq, completeLoop_eq]
      apply paired_send_bind (hasks hdone) hhttp
      intro exchange
      cases hjudge : AnthropicProvider.judge platform config attempt exchange.outcome with
      | inl answer => exact .done ⟨rfl, hsent exchange⟩
      | inr wait =>
          have hlt := AnthropicProvider.lt_of_judge hjudge
          have hnat := UInt32.lt_iff_toNat_lt.mp hlt
          apply paired_ask_bind (hasks (hsent exchange))
          intro _
          exact ih _ (by rw [Word.toNat_add_one hlt]; omega) (keyless_effects_append (hsent exchange) rfl) rfl

theorem completeLoop_env (env : String → Option String) (config : LlmConfig) (history : History) (http : ModelRequest)
    (attempt : UInt32) (done : List ModelEffect) :
    completeLoop { platform with envVar := env } config history http attempt done =
      completeLoop platform config history http attempt done := by
  generalize hleft : config.maxRetries.toNat - attempt.toNat = left
  induction left using Nat.strong_induction_on generalizing attempt done with
  | _ left ih =>
      rw [completeLoop_eq, completeLoop_eq]
      apply bind_congr
      intro exchange
      have henv : AnthropicProvider.judge { platform with envVar := env } config attempt exchange.outcome =
          AnthropicProvider.judge platform config attempt exchange.outcome := rfl
      rw [henv]
      cases hjudge : AnthropicProvider.judge platform config attempt exchange.outcome with
      | inl answer => rfl
      | inr wait =>
          have hlt := AnthropicProvider.lt_of_judge hjudge
          have hnat := UInt32.lt_iff_toNat_lt.mp hlt
          apply bind_congr
          intro _
          exact ih _ (by rw [Word.toNat_add_one hlt]; omega) _ _ rfl

/-- Two builds of one configuration differ in the key at most. -/
theorem interchangeable_of_build {env env' : String → Option String} {config : LlmConfig} {llm llm' : WorldProvider}
    (h : build { platform with envVar := env } config = .ok llm)
    (h' : build { platform with envVar := env' } config = .ok llm') : Interchangeable llm llm' := by
  unfold build at h h'
  cases hprovider : config.provider with
  | mock =>
      rw [hprovider] at h h'
      cases h
      cases h'
      exact ⟨rfl, fun request _ => .done ⟨rfl, rfl⟩⟩
  | anthropic =>
      simp only [hprovider] at h h'
      cases hfirst : AnthropicProvider.new { platform with envVar := env } config with
      | error e =>
          rw [hfirst] at h
          cases h
      | ok first =>
          cases hsecond : AnthropicProvider.new { platform with envVar := env' } config with
          | error e =>
              rw [hsecond] at h'
              cases h'
          | ok second =>
              rw [hfirst] at h
              rw [hsecond] at h'
              cases h
              cases h'
              have hsame := AnthropicProvider.new_key hfirst hsecond
              constructor
              · rw [hsame]
                rfl
              · intro history history' request hhistory
                show Paired keyed _ (completeLoop { platform with envVar := env } _ _ _ _ _)
                  (completeLoop { platform with envVar := env' } _ _ _ _ _)
                rw [completeLoop_env platform env, completeLoop_env platform env', hsame]
                exact completeLoop_paired platform first.config
                  (first.keyless_httpRequest second.apiKey request) hhistory rfl

variable {platform} {llm llm' : WorldProvider} (hllm : Interchangeable llm llm')

include hllm

theorem dispatch_paired (state : HostState) (name : String) (request : Bytes)
    (hhistory : history.keyless = history'.keyless) :
    Paired keyed (fun routed routed' => routed.1 = routed'.1 ∧ routed.2.1 = routed'.2.1 ∧
        History.keyless routed.2.2 = History.keyless routed'.2.2)
      (dispatch platform llm state history name request) (dispatch platform llm' state history' name request) := by
  unfold dispatch
  split_ifs
  · exact .done ⟨rfl, rfl, rfl⟩
  · cases platform.codec.fromSlice "ToolInvokeRequest" ToolInvokeRequest.decode request with
    | error e => exact .done ⟨rfl, rfl, rfl⟩
    | ok req =>
        apply (invoke_paired platform state.tools req.name req.input hhistory).map
        rintro answered _ rfl
        exact ⟨rfl, rfl, rfl⟩
  · simp only
    split_ifs
    · exact .done ⟨rfl, rfl, rfl⟩
    · cases platform.codec.fromSlice "LlmRequest" LlmRequest.decode request with
      | error e => exact .done ⟨rfl, rfl, rfl⟩
      | ok req =>
          apply (hllm.complete req hhistory).map
          rintro ⟨answer, effects⟩ ⟨_, effects'⟩ ⟨rfl, heffects⟩
          refine ⟨rfl, rfl, ?_⟩
          show History.keyless (effects.map .model ++ _) = History.keyless (effects'.map .model ++ _)
          rw [History.keyless_append, History.keyless_append, heffects]
  · exact .done ⟨rfl, rfl, rfl⟩

theorem call_paired (data : HostState) (memory : Option Bytes) (namePtr nameLen reqPtr reqLen : UInt32)
    (hhistory : history.keyless = history'.keyless) :
    Paired keyed (fun called called' => called.1 = called'.1 ∧ called.2.memory = called'.2.memory ∧
        Keyless ⟨called.2.data, called.2.history⟩ ⟨called'.2.data, called'.2.history⟩)
      (call platform llm ⟨data, memory, history⟩ namePtr nameLen reqPtr reqLen)
      (call platform llm' ⟨data, memory, history'⟩ namePtr nameLen reqPtr reqLen) := by
  have hsame : ∀ data : HostState, Keyless ⟨data, history⟩ ⟨data, history'⟩ := fun _ => ⟨rfl, hhistory⟩
  unfold call
  simp only
  split_ifs
  · exact .done ⟨rfl, rfl, hsame _⟩
  · cases readGuest memory namePtr nameLen with
    | none => exact .done ⟨rfl, rfl, hsame _⟩
    | some nameBytes =>
        cases readGuest memory reqPtr reqLen with
        | none => exact .done ⟨rfl, rfl, hsame _⟩
        | some reqBytes =>
            simp only
            cases Text.fromUtf8 nameBytes with
            | none => exact .done ⟨rfl, rfl, hsame _⟩
            | some name =>
                apply (dispatch_paired hllm data name reqBytes hhistory).map
                rintro ⟨response, state, events⟩ ⟨_, _, events'⟩ ⟨rfl, rfl, hevents⟩
                refine ⟨rfl, rfl, rfl, ?_⟩
                show History.keyless (history ++ events) = History.keyless (history' ++ events')
                rw [History.keyless_append, History.keyless_append, hhistory, hevents]

omit hllm in
/-- The record has no part in what is logged. -/
theorem log_frame (data : HostState) (memory : Option Bytes) (level : Int32) (ptr len : UInt32) :
    ∃ after : HostState, ∀ history, (Caller.mk data memory history).log level ptr len = ⟨after, memory, history⟩ := by
  unfold Caller.log
  cases hread : readGuest memory ptr (min len Caller.maxLogBytes) with
  | none =>
      refine ⟨data, fun history => ?_⟩
      simp only [hread]
  | some bytes =>
      by_cases hroom : data.logs.length < Caller.maxLogLines
      · refine ⟨{ data with logs := data.logs ++ [⟨(LogLevel.fromI32 level).asStr, Text.fromUtf8Lossy bytes⟩] },
          fun history => ?_⟩
        simp only [hread, if_pos hroom]
      · refine ⟨data, fun history => ?_⟩
        simp only [hread, if_neg hroom]

omit hllm in
/-- Nor in what is read. -/
theorem responseRead_frame (data : HostState) (memory : Option Bytes) (ptr len : UInt32) :
    ∃ (value : Int32) (after : HostState) (written : Option Bytes), ∀ history,
      (Caller.mk data memory history).responseRead ptr len = (value, ⟨after, written, history⟩) := by
  unfold Caller.responseRead
  by_cases hlen : data.pending.length ≠ len.toNat
  · exact ⟨_, _, _, fun _ => if_pos hlen⟩
  · cases hwrite : writeGuest memory ptr data.pending with
    | none =>
        refine ⟨ErrorCode.badPointer, { data with pending := [] }, memory, fun history => ?_⟩
        simp only [hwrite, if_neg hlen, Caller.setPending]
    | some written =>
        refine ⟨Int32.ofNat len.toNat, { data with pending := [] }, some written, fun history => ?_⟩
        simp only [hwrite, if_neg hlen, Caller.setPending]

/-- One call of a host function. -/
theorem step_paired (left right : HostRun) (move : GuestMove) (h : Keyless left right) :
    Paired keyed (fun answered answered' => answered.1 = answered'.1 ∧ Keyless answered.2 answered'.2)
      (step platform llm left move) (step platform llm' right move) := by
  obtain ⟨data, history⟩ := left
  obtain ⟨_, history'⟩ := right
  obtain ⟨rfl, hhistory⟩ := h
  unfold step
  cases move.invocation with
  | log level ptr len =>
      obtain ⟨after, hlog⟩ := log_frame data move.memory level ptr len
      simp only [HostRun.caller, hlog]
      exact .done ⟨rfl, rfl, hhistory⟩
  | call namePtr nameLen reqPtr reqLen =>
      apply (call_paired hllm data move.memory namePtr nameLen reqPtr reqLen hhistory).map
      rintro ⟨value, called⟩ ⟨_, called'⟩ ⟨rfl, hmemory, hkeyless⟩
      exact ⟨congrArg (HostReply.mk (some value)) hmemory, hkeyless⟩
  | responseRead ptr len =>
      obtain ⟨value, after, memory, hread⟩ := responseRead_frame data move.memory ptr len
      simp only [HostRun.caller, hread]
      exact .done ⟨rfl, rfl, hhistory⟩

end Stepwise

/-! ### Sessions -/

/-- What is done in two stores that are the same but for the key in the record is the same. -/
def StepCall.Alike {γ α : Type} (x y : Stepwise.StepCall γ α) : Prop :=
  ∀ left right : Store γ, Keyless left.host right.host → left.guest = right.guest →
    Program.Paired keyed (fun ended ended' => ended.1 = ended'.1 ∧ Keyless ended.2.host ended'.2.host ∧
      ended.2.guest = ended'.2.guest) (x left) (y right)

namespace StepCall.Alike

variable {γ α β : Type} {x y : Stepwise.StepCall γ α}

theorem pure (a : α) : StepCall.Alike (Pure.pure a : Stepwise.StepCall γ α) (Pure.pure a) :=
  fun _ _ hhost hguest => .done ⟨rfl, hhost, hguest⟩

theorem failure (e : Failure) : StepCall.Alike (throw e : Stepwise.StepCall γ α) (throw e) :=
  fun _ _ hhost hguest => .done ⟨rfl, hhost, hguest⟩

theorem bind {f g : α → Stepwise.StepCall γ β} (hx : StepCall.Alike x y) (hf : ∀ a, StepCall.Alike (f a) (g a)) :
    StepCall.Alike (x >>= f) (y >>= g) := by
  intro left right hhost hguest
  show Program.Paired keyed _ (StateT.bind x (ExceptT.bindCont f) left) (StateT.bind y (ExceptT.bindCont g) right)
  refine Program.Paired.bind (hx left right hhost hguest) ?_
  rintro ⟨outcome, after⟩ ⟨_, after'⟩ ⟨rfl, hafter, hguests⟩
  cases outcome with
  | ok a => exact hf a after after' hafter hguests
  | error e => exact .done ⟨rfl, hafter, hguests⟩

theorem tryCatch (hx : StepCall.Alike x y) (failing : Failure → Failure) :
    StepCall.Alike (tryCatch x fun e => throw (failing e)) (tryCatch y fun e => throw (failing e)) := by
  intro left right hhost hguest
  show Program.Paired keyed _ (ExceptT.tryCatch x (fun e => throw (failing e)) left)
    (ExceptT.tryCatch y (fun e => throw (failing e)) right)
  simp only [ExceptT.tryCatch, ExceptT.mk, Bind.bind, StateT.bind]
  refine Program.Paired.bind (hx left right hhost hguest) ?_
  rintro ⟨outcome, after⟩ ⟨_, after'⟩ ⟨rfl, hafter, hguests⟩
  cases outcome <;> exact .done ⟨rfl, hafter, hguests⟩

theorem lookup (found : Except Failure α) : StepCall.Alike
    (Stepwise.locally (Instance.invokeAgent.liftExcept found) : Stepwise.StepCall γ α)
    (Stepwise.locally (Instance.invokeAgent.liftExcept found)) :=
  fun _ _ hhost hguest => .done ⟨rfl, hhost, hguest⟩

theorem write (memory : GuestMemory γ) (ptr : UInt32) (bytes : Bytes) :
    StepCall.Alike (Stepwise.locally (memory.write ptr bytes)) (Stepwise.locally (memory.write ptr bytes)) := by
  intro left right hhost hguest
  refine .done ?_
  rw [GuestMemory.write_apply, GuestMemory.write_apply, hguest]
  cases writeGuest (some (memory.data right.guest)) ptr bytes with
  | none => exact ⟨rfl, hhost, hguest⟩
  | some data => exact ⟨rfl, hhost, rfl⟩

theorem read (memory : GuestMemory γ) (ptr len : UInt32) :
    StepCall.Alike (Stepwise.locally (memory.read ptr len)) (Stepwise.locally (memory.read ptr len)) := by
  intro left right hhost hguest
  refine .done ?_
  rw [GuestMemory.read_apply, GuestMemory.read_apply, hguest]
  cases readGuest (some (memory.data right.guest)) ptr len <;> exact ⟨rfl, hhost, hguest⟩

end StepCall.Alike

section Runs

variable {platform : Platform} {llm llm' : WorldProvider} (hllm : Stepwise.Interchangeable llm llm') {γ α : Type}

include hllm

/-- Guest code cannot tell the two hosts apart. -/
theorem StepCall.Alike.inStore (code : GuestCode γ α) :
    StepCall.Alike (Stepwise.inStore platform llm code) (Stepwise.inStore platform llm' code) := by
  intro left right hhost hguest
  unfold Stepwise.inStore
  rw [hguest]
  apply (Program.Paired.serve (Stepwise.step_paired hllm) (code right.guest) hhost).map
  rintro ⟨⟨outcome, guest⟩, host⟩ ⟨_, host'⟩ ⟨rfl, hhosts⟩
  exact ⟨rfl, hhosts, rfl⟩

theorem Stepwise.enter_alike (module : AgentModule γ) : StepCall.Alike
    (instantiate platform llm module >>= fun _ => checkAbiVersion platform llm module)
    (instantiate platform llm' module >>= fun _ => checkAbiVersion platform llm' module) := by
  refine .bind (.tryCatch (.bind (.lookup _) fun _ => .inStore hllm _) _) fun _ => ?_
  unfold checkAbiVersion
  cases module.shape.getTypedFunc "tds_abi_version" ⟨[], [.i32]⟩ with
  | error failure => exact .failure _
  | ok _ =>
      refine .bind (.tryCatch (.inStore hllm _) _) fun version => ?_
      split_ifs
      · exact .failure _
      · exact .pure ()

theorem Stepwise.invokeAgent_alike (module : AgentModule γ) (input : AgentInput) :
    StepCall.Alike (invokeAgent platform llm module input) (invokeAgent platform llm' module input) := by
  unfold invokeAgent
  split_ifs
  · refine .bind (.lookup _) fun _ => .bind (.lookup _) fun _ => .bind (.lookup _) fun _ =>
      .bind (.inStore hllm _) fun ptr => ?_
    split_ifs
    · exact .failure _
    refine .bind (.write _ _ _) fun _ => .bind (.inStore hllm _) fun packed => .bind (.inStore hllm _) fun _ => ?_
    simp only
    split_ifs
    · exact .failure _
    refine .bind (.read _ _ _) fun buffer => .bind (.inStore hllm _) fun _ => ?_
    cases platform.codec.fromSlice "AgentOutput" AgentOutput.decode buffer with
    | ok output => exact .pure output
    | error e => exact .failure _
  · exact .failure _

variable (platform) in
/-- Under interchangeable providers, a handler asks in step and comes to the same reply. -/
theorem Shared.runHandler_paired (policy : Policy) (module : AgentModule γ) (fresh : γ) (request : RunRequest) :
    Program.Paired keyed Eq (runHandler platform ⟨policy, llm, module, fresh⟩ request)
      (runHandler platform ⟨policy, llm', module, fresh⟩ request) := by
  cases hblank : request.blank with
  | true =>
      rw [runHandler_blank hblank, runHandler_blank hblank]
      exact .done rfl
  | false =>
      rw [runHandler_run hblank, runHandler_run hblank]
      suffices hruns : Program.Paired keyed (fun ended ended' => ended.reply = ended'.reply)
          (run platform ⟨policy, llm, module, fresh⟩ request.input)
          (run platform ⟨policy, llm', module, fresh⟩ request.input) from hruns.map fun _ _ hreply => hreply
      unfold run
      cases clamp request.input.maxSteps 1 policy.limits.maxSteps with
      | none => exact .done rfl
      | some maxSteps =>
          simp only
          cases ToolBox.new platform policy with
          | error e => exact .done rfl
          | ok tools =>
              apply (Stepwise.enter_alike hllm module _ _ ⟨rfl, rfl⟩ rfl).bind
              rintro ⟨entered, store⟩ ⟨_, store'⟩ ⟨rfl, hhost, hguest⟩
              cases entered with
              | error failure => exact .done rfl
              | ok _ =>
                  apply (Stepwise.invokeAgent_alike hllm module _ store store' hhost hguest).map
                  rintro ⟨result, after⟩ ⟨_, after'⟩ ⟨rfl, hafter, _⟩
                  show Reply.report _ = Reply.report _
                  unfold report
                  rw [hafter.data, hllm.describe]

end Runs

/-! ### Services -/

namespace Shared

variable (platform : Platform) {γ : Type} {policy : Policy} {module : AgentModule γ} {fresh : γ}
  {env env' : String → Option String} {shared shared' : Shared γ} {σ : Type}

/-- A request, and enough turns for its attempts at the model and the waits between them. -/
def askedThrice : List ServiceMove :=
  [.post ⟨"task", none, 1⟩, .turn 0, .turn 0, .turn 0, .turn 0, .turn 0]

/-- **Nobody learns the key.** Two services that have been set up alike but for the environment send the same requests
but for the header with the key, as long as the world outside does not tell the keys apart: whatever is posted and in
whatever order the runs ask, every run gets the same answers and every client the same reply. -/
theorem replies_keyless (hfiles : fromFiles { platform with envVar := env } policy module fresh = .ok shared)
    (hfiles' : fromFiles { platform with envVar := env' } policy module fresh = .ok shared')
    (world : Nat → worldSignature.Handler σ) (hblind : Pool.Blind world keyed) (outside : σ)
    (moves : List ServiceMove) :
    List.Forall₂ (Pool.Told keyed) (shared.served { platform with envVar := env } world outside moves)
        (shared'.served { platform with envVar := env' } world outside moves) ∧
      ∀ run, shared.reply { platform with envVar := env } world outside moves run =
        shared'.reply { platform with envVar := env' } world outside moves run := by
  obtain ⟨hbuild, _, hshared⟩ := of_fromFiles hfiles
  obtain ⟨hbuild', _, hshared'⟩ := of_fromFiles hfiles'
  have hllm := Stepwise.interchangeable_of_build platform hbuild hbuild'
  have hpaired : ∀ request, Program.Paired keyed Eq (shared.runHandler platform request)
      (shared'.runHandler platform request) := by
    intro request
    rw [hshared, hshared']
    exact runHandler_paired platform hllm policy module fresh request
  have hmoves : List.Forall₂ (Pool.Matched keyed Eq) (moves.map (shared.poolMove platform))
      (moves.map (shared'.poolMove platform)) := by
    rw [List.forall₂_map_left_iff, List.forall₂_map_right_iff, List.forall₂_same]
    rintro (request | run) _
    · exact .start (hpaired request)
    · exact .turn run
  have hstart : Pool.Alike keyed Eq (⟨outside, []⟩ : Pool worldSignature σ Reply) ⟨outside, []⟩ := ⟨rfl, .nil⟩
  obtain ⟨halike, htold⟩ := hstart.run hblind hmoves
  refine ⟨htold, fun run => ?_⟩
  have hthread : Option.Rel (Program.Paired keyed Eq) (shared.serve platform world outside moves).threads[run]?
      (shared'.serve platform world outside moves).threads[run]? := Pool.forall₂_getElem? halike.threads run
  show shared.reply platform world outside moves run = shared'.reply platform world outside moves run
  unfold Shared.reply
  generalize (shared.serve platform world outside moves).threads[run]? = thread at hthread ⊢
  generalize (shared'.serve platform world outside moves).threads[run]? = thread' at hthread ⊢
  cases hthread with
  | none => rfl
  | some hpaired =>
      cases hpaired with
      | done hreply => exact congrArg some hreply
      | ask _ _ => rfl

theorem ticking_blind : Pool.Blind ticking keyed := by
  rintro thread hour ⟨history, op⟩ ⟨history', op'⟩ hsame
  have hops : op.keyless = op'.keyless := congrArg Question.op hsame
  refine ⟨?_, rfl⟩
  cases op <;> cases op' <;> first | exact HEq.rfl | cases hops

def underKey (key : String) : Platform := { Platform.offline with envVar := fun _ => some key }

theorem answered_askedThrice : ∃ shared, fromFiles (underKey "first") .default asking () = .ok shared ∧
    (shared.reply (underKey "first") ticking 9 askedThrice 0).isSome = true :=
  ⟨_, rfl, by decide +kernel⟩

/-- The model is asked with either key, and then the client is told the same. -/
theorem replies_keyless_asking : ∃ shared shared' reply,
    fromFiles (underKey "first") .default asking () = .ok shared ∧
    fromFiles (underKey "second") .default asking () = .ok shared' ∧
    shared.reply (underKey "first") ticking 9 askedThrice 0 = some reply ∧
    shared'.reply (underKey "second") ticking 9 askedThrice 0 = some reply := by
  obtain ⟨shared, hfiles, hanswered⟩ := answered_askedThrice
  obtain ⟨reply, hreply⟩ := Option.isSome_iff_exists.mp hanswered
  have hfiles' : fromFiles (underKey "second") .default asking () = .ok _ := rfl
  have hreplies := (replies_keyless .offline hfiles hfiles' ticking ticking_blind 9 askedThrice).2 0
  exact ⟨shared, _, reply, hfiles, hfiles', hreply, hreplies.symm.trans hreply⟩

end Shared

end TdsWasm
