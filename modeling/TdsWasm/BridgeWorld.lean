import TdsWasm.HostSession
import TdsWasm.HostWorld

/-! The host one question at a time against the host as it runs alone: evaluated in a world that has one answer
to each question, every function of the stepwise host gives what its counterpart gives on the platform of that
world, up to a whole run of a module. -/

set_option autoImplicit false

namespace TdsWasm

open Program (eval_bind eval_map eval_done)

variable {γ : Type} (world : World) (platform : Platform)

/-! ### States in a world -/

def ToolBox.inWorld (tools : ToolBox) : ToolBox := { tools with http := world.toolClient }

def HostState.inWorld (llm : WorldProvider) (state : HostState) : HostState :=
  { state with llm := llm.toProvider world, tools := state.tools.inWorld world }

def HostRun.inWorld (llm : WorldProvider) (run : HostRun) : HostRun := ⟨run.data.inWorld world llm, run.history⟩

def Store.inWorld (llm : WorldProvider) (store : Store γ) : Store γ := ⟨store.host.inWorld world llm, store.guest⟩

def RunResult.inWorld (llm : WorldProvider) : RunResult γ → RunResult γ
  | .panicked => .panicked
  | .err failure => .err failure
  | .ok report result store => .ok report result (store.inWorld world llm)

namespace Stepwise

@[simp] theorem eval_ask (history : History) (op : WorldOp) :
    (ask history op).eval world = world ⟨history, op⟩ := rfl

theorem eval_ask_bind {α : Type} (history : History) (op : WorldOp) (f : op.Answer → WorldProgram α) :
    (ask history op >>= f).eval world = (f (world ⟨history, op⟩)).eval world := rfl

@[simp] theorem eval_pure {α : Type} (a : α) : (pure a : WorldProgram α).eval world = a := rfl

/-! ### Providers -/

open AnthropicProvider (judge)

theorem completeLoop_eval (provider : AnthropicProvider) (history : History) (http : ModelRequest)
    (attempt : UInt32) (done : List ModelEffect) :
    AnthropicProvider.completeLoop (world.platform platform) { provider with client := world.modelClient } history
        http attempt done =
      (completeLoop platform provider.config history http attempt done).eval world := by
  apply AnthropicProvider.completeLoop_induction (world.platform platform)
    { provider with client := world.modelClient } history http
    (motive := fun attempt done result =>
      result = (completeLoop platform provider.config history http attempt done).eval world)
  · intro attempt done answer hjudge
    rw [completeLoop_eq, eval_bind, eval_ask]
    erw [hjudge]
    rfl
  · intro attempt done wait hjudge hrest
    rw [hrest, completeLoop_eq platform provider.config history http attempt done, eval_bind, eval_ask]
    erw [hjudge]
    rfl

theorem anthropic_toProvider (provider : AnthropicProvider) :
    (anthropic platform provider).toProvider world =
      ({ provider with client := world.modelClient } : AnthropicProvider).toProvider (world.platform platform) := by
  refine congrArg (LlmProvider.mk · _) ?_
  funext history request
  exact (completeLoop_eval world platform provider history _ 0 []).symm

/-- A provider that is built on the base is built in the world, from the same configuration and key. -/
theorem anthropic_new {config : LlmConfig} {provider : AnthropicProvider}
    (h : AnthropicProvider.new platform config = .ok provider) :
    AnthropicProvider.new (world.platform platform) config = .ok { provider with client := world.modelClient } := by
  unfold AnthropicProvider.new at h ⊢
  have henv : (world.platform platform).envVar = platform.envVar := rfl
  have hbuild : (world.platform platform).buildModelClient config.requestTimeoutMs =
      (platform.buildModelClient config.requestTimeoutMs).map fun _ => world.modelClient := rfl
  rw [henv, hbuild]
  cases hkey : platform.envVar config.apiKeyEnv with
  | none =>
      simp only [hkey] at h
      cases h
  | some key =>
      simp only [hkey] at h
      by_cases hempty : (Text.trim key).isEmpty = true
      · simp only [pure_bind, if_pos hempty] at h
        cases h
      · simp only [pure_bind, if_neg hempty] at h ⊢
        cases hclient : platform.buildModelClient config.requestTimeoutMs with
        | error e =>
            rw [hclient] at h
            cases h
        | ok client =>
            rw [hclient] at h
            cases h
            rfl

/-- The provider of a policy is the same one in a world. -/
theorem build_toProvider {config : LlmConfig} {llm : WorldProvider} (h : build platform config = .ok llm) :
    LlmProvider.build (world.platform platform) config = .ok (llm.toProvider world) := by
  unfold build at h
  unfold LlmProvider.build
  cases hprovider : config.provider with
  | mock =>
      rw [hprovider] at h
      cases h
      rfl
  | anthropic =>
      rw [hprovider] at h
      cases hnew : AnthropicProvider.new platform config with
      | error e =>
          rw [hnew] at h
          cases h
      | ok provider =>
          rw [hnew] at h
          cases h
          rw [anthropic_new world platform hnew, anthropic_toProvider]
          rfl

/-! ### Tools -/

theorem stringArg_inWorld (input : JsonValue) (field : String) :
    stringArg (world.platform platform) input field = stringArg platform input field := rfl

theorem urlParse_inWorld (raw : String) : (world.platform platform).urlParse raw = platform.urlParse raw := rfl

theorem httpGet_eval (tools : ToolBox) (history : History) (input : JsonValue) :
    (tools.inWorld world).httpGet (world.platform platform) history input =
      (httpGet platform tools history input).eval world := by
  unfold ToolBox.httpGet httpGet
  rw [stringArg_inWorld]
  cases stringArg platform input "url" with
  | error e => rfl
  | ok raw =>
      simp only [urlParse_inWorld]
      cases platform.urlParse raw with
      | error e => rfl
      | ok parsed =>
          simp only
          by_cases hscheme : parsed.scheme = "https"
          · rw [if_neg (not_not.mpr hscheme), if_neg (not_not.mpr hscheme)]
            cases parsed.hostStr with
            | none => rfl
            | some host =>
                simp only
                cases hallows : tools.policy.tools.http.allows host with
                | false =>
                  erw [hallows]
                  rfl
                | true =>
                  have hsend : (tools.inWorld world).http.send history parsed = world ⟨history, .get parsed⟩ := rfl
                  erw [hallows]
                  simp only [Bool.not_true, Bool.false_eq_true, if_false, hsend]
                  refine Eq.trans ?_ (eval_ask_bind world history (.get parsed) _).symm
                  cases (world ⟨history, .get parsed⟩ : Exchange 0).outcome with
                  | error e => rfl
                  | ok response => rfl
          · rw [if_pos hscheme, if_pos hscheme]
            rfl

theorem toolBox_new (policy : Policy) :
    ToolBox.new (world.platform platform) policy = (ToolBox.new platform policy).map (ToolBox.inWorld world) := by
  unfold ToolBox.new
  have hbuild : (world.platform platform).buildToolClient policy.tools.http.timeoutMs =
      (platform.buildToolClient policy.tools.http.timeoutMs).map fun _ => world.toolClient := rfl
  rw [hbuild]
  cases platform.buildToolClient policy.tools.http.timeoutMs <;> rfl

theorem kvPut_inWorld (tools : ToolBox) (input : JsonValue) :
    (tools.inWorld world).kvPut (world.platform platform) input =
      ((tools.kvPut platform input).1, (tools.kvPut platform input).2.inWorld world) := by
  unfold ToolBox.kvPut
  rw [stringArg_inWorld, stringArg_inWorld]
  cases stringArg platform input "key" with
  | error e => rfl
  | ok key =>
      cases stringArg platform input "value" with
      | error e => rfl
      | ok value =>
          have hkv : (tools.inWorld world).kv = tools.kv := rfl
          have hpolicy : (tools.inWorld world).policy = tools.policy := rfl
          rw [hkv, hpolicy]
          by_cases hlarge : tools.policy.tools.kv.maxValueBytes < value.utf8ByteSize
          · simp only [if_pos hlarge]
          · by_cases hfull : (!tools.kv.contains key && decide (tools.policy.tools.kv.maxKeys ≤ tools.kv.size)) = true
            · simp only [if_neg hlarge, if_pos hfull]
            · simp only [if_neg hlarge, if_neg hfull]
              rfl

theorem invoke_eval (tools : ToolBox) (history : History) (name : String) (input : JsonValue) :
    (tools.inWorld world).invoke (world.platform platform) history name input =
      let (answer, tools, events) := (invoke platform tools history name input).eval world
      (answer, tools.inWorld world, events) := by
  unfold ToolBox.invoke invoke
  have hpolicy : (tools.inWorld world).policy = tools.policy := rfl
  rw [hpolicy]
  by_cases henabled : (!tools.policy.tools.enabled.any (· = name)) = true
  · rw [if_pos henabled, if_pos henabled]
    rfl
  · rw [if_neg henabled, if_neg henabled]
    split
    · rfl
    · rw [httpGet_eval]
      simp only [eval_map]
    · rfl
    · rw [kvPut_inWorld]
      rfl
    · simp only
      rfl

/-! ### Host functions -/

variable (llm : WorldProvider)

theorem dispatch_eval (state : HostState) (history : History) (name : String) (request : Bytes) :
    TdsWasm.dispatch (world.platform platform) (state.inWorld world llm) history name request =
      let (response, state, events) := (dispatch platform llm state history name request).eval world
      (response, state.inWorld world llm, events) := by
  unfold TdsWasm.dispatch dispatch
  by_cases hlist : name = Cap.toolsList
  · rw [if_pos hlist, if_pos hlist]
    rfl
  rw [if_neg hlist, if_neg hlist]
  by_cases hinvoke : name = Cap.toolInvoke
  · rw [if_pos hinvoke, if_pos hinvoke]
    have hcodec : (world.platform platform).codec = platform.codec := rfl
    rw [hcodec]
    cases platform.codec.fromSlice "ToolInvokeRequest" ToolInvokeRequest.decode request with
    | error e => rfl
    | ok req =>
        have htools : (state.inWorld world llm).tools = state.tools.inWorld world := rfl
        simp only [htools, invoke_eval, eval_map]
        rfl
  rw [if_neg hinvoke, if_neg hinvoke]
  by_cases hcomplete : name = Cap.llmComplete
  · rw [if_pos hcomplete, if_pos hcomplete]
    have hcodec : (world.platform platform).codec = platform.codec := rfl
    have hspent : (state.inWorld world llm).policy.limits.maxSteps ≤ (state.inWorld world llm).llmCalls ↔
      state.policy.limits.maxSteps ≤ state.llmCalls := Iff.rfl
    simp only [hspent, hcodec]
    split_ifs
    · rfl
    · cases platform.codec.fromSlice "LlmRequest" LlmRequest.decode request with
      | error e => rfl
      | ok req =>
          simp only [eval_map]
          rfl
  · rw [if_neg hcomplete, if_neg hcomplete]
    rfl

/-- A caller with the state that its host has in this world. -/
def callerInWorld (caller : Caller) : Caller := { caller with data := caller.data.inWorld world llm }

theorem call_eval (caller : Caller) (namePtr nameLen reqPtr reqLen : UInt32) :
    (callerInWorld world llm caller).call (world.platform platform) namePtr nameLen reqPtr reqLen =
      let (value, caller) := (call platform llm caller namePtr nameLen reqPtr reqLen).eval world
      (value, callerInWorld world llm caller) := by
  unfold Caller.call call
  have hlimits : (callerInWorld world llm caller).data.policy = caller.data.policy := rfl
  have hmemory : (callerInWorld world llm caller).memory = caller.memory := rfl
  rw [hlimits, hmemory]
  by_cases hlarge : caller.data.policy.limits.maxRequestBytes < reqLen.toNat ∨ 256 < nameLen
  · simp only [if_pos hlarge]
    rfl
  simp only [if_neg hlarge]
  cases readGuest caller.memory namePtr nameLen with
  | none => rfl
  | some nameBytes =>
      cases readGuest caller.memory reqPtr reqLen with
      | none => rfl
      | some reqBytes =>
          simp only
          cases Text.fromUtf8 nameBytes with
          | none => rfl
          | some name =>
              have hdispatch := dispatch_eval world platform llm caller.data caller.history name reqBytes
              simp only [eval_map]
              erw [hdispatch]
              rfl

theorem log_inWorld (caller : Caller) (level : Int32) (ptr len : UInt32) :
    (callerInWorld world llm caller).log level ptr len = callerInWorld world llm (caller.log level ptr len) := by
  unfold Caller.log
  have hmemory : (callerInWorld world llm caller).memory = caller.memory := rfl
  have hlogs : (callerInWorld world llm caller).data.logs = caller.data.logs := rfl
  rw [hmemory, hlogs]
  cases readGuest caller.memory ptr (min len Caller.maxLogBytes) with
  | none => rfl
  | some bytes =>
      simp only
      by_cases hroom : caller.data.logs.length < Caller.maxLogLines
      · rw [if_pos hroom, if_pos hroom]
        rfl
      · rw [if_neg hroom, if_neg hroom]

theorem responseRead_inWorld (caller : Caller) (ptr len : UInt32) :
    (callerInWorld world llm caller).responseRead ptr len =
      ((caller.responseRead ptr len).1, callerInWorld world llm (caller.responseRead ptr len).2) := by
  unfold Caller.responseRead
  have hmemory : (callerInWorld world llm caller).memory = caller.memory := rfl
  have hpending : (callerInWorld world llm caller).data.pending = caller.data.pending := rfl
  rw [hmemory, hpending]
  by_cases hlen : caller.data.pending.length ≠ len.toNat
  · simp only [if_pos hlen]
  · simp only [if_neg hlen]
    cases writeGuest caller.memory ptr caller.data.pending <;> rfl

/-- One call of a host function. -/
theorem step_eval (run : HostRun) (move : GuestMove) :
    (run.inWorld world llm).step (world.platform platform) move =
      let (reply, run) := (step platform llm run move).eval world
      (run.inWorld world llm, reply) := by
  unfold HostRun.step step
  cases move.invocation with
  | log level ptr len =>
      exact congrArg (HostRun.ofCaller · none) (log_inWorld world llm (run.caller move.memory) level ptr len)
  | call namePtr nameLen reqPtr reqLen =>
      have hcall := call_eval world platform llm (run.caller move.memory) namePtr nameLen reqPtr reqLen
      simp only [eval_map]
      erw [hcall]
      rfl
  | responseRead ptr len =>
      have hread := responseRead_inWorld world llm (run.caller move.memory) ptr len
      simp only
      erw [hread]
      rfl

/-! ### Sessions -/

section Calls

variable {α β : Type} (x : StepCall γ α) (store : Store γ)

theorem eval_call_bind (f : α → StepCall γ β) :
    ((x >>= f) store).eval world = match (x store).eval world with
      | (.ok a, after) => (f a after).eval world
      | (.error e, after) => (.error e, after) := by
  show (StateT.bind x (ExceptT.bindCont f) store).eval world = _
  rw [StateT.bind, eval_bind]
  cases (x store).eval world with
  | mk outcome after => cases outcome <;> rfl

theorem eval_call_tryCatch (failing : Failure → Failure) :
    ((tryCatch x fun e => throw (failing e) : StepCall γ α) store).eval world =
      (((x store).eval world).1.mapError failing, ((x store).eval world).2) := by
  show (ExceptT.tryCatch x (fun e => throw (failing e)) store).eval world = _
  simp only [ExceptT.tryCatch, ExceptT.mk, bind, StateT.bind]
  erw [eval_bind]
  cases (x store).eval world with
  | mk outcome after => cases outcome <;> rfl

end Calls

/-- In this world the step call does what the other call does. -/
def Refines {α : Type} (x : StepCall γ α) (y : GuestCall γ α) : Prop :=
  ∀ store, y (store.inWorld world llm) =
    (((x store).eval world).1, ((x store).eval world).2.inWorld world llm)

namespace Refines

variable {world platform llm} {α β : Type} {x : StepCall γ α} {y : GuestCall γ α}

theorem pure (a : α) : Refines world llm (Pure.pure a : StepCall γ α) (Pure.pure a : GuestCall γ α) :=
  fun _ => rfl

theorem failure (e : Failure) : Refines world llm (throw e : StepCall γ α) (throw e : GuestCall γ α) :=
  fun _ => rfl

theorem bind {f : α → StepCall γ β} {g : α → GuestCall γ β} (hx : Refines world llm x y)
    (hf : ∀ a, Refines world llm (f a) (g a)) : Refines world llm (x >>= f) (y >>= g) := by
  intro store
  rw [Call.bind_apply, hx store, eval_call_bind]
  cases (x store).eval world with
  | mk outcome after =>
      cases outcome with
      | ok a => exact hf a after
      | error e => rfl

theorem tryCatch (hx : Refines world llm x y) (failing : Failure → Failure) :
    Refines world llm (tryCatch x fun e => throw (failing e)) (tryCatch y fun e => throw (failing e)) := by
  intro store
  rw [Call.tryCatch_apply, hx store, eval_call_tryCatch]

theorem locally {call call' : GuestCall γ α}
    (h : ∀ store, call' (store.inWorld world llm) = ((call store).1, (call store).2.inWorld world llm)) :
    Refines world llm (Stepwise.locally call) call' := h

theorem lookup (found : Except Failure α) : Refines world llm
    (Stepwise.locally (Instance.invokeAgent.liftExcept found) : StepCall γ α)
    (Instance.invokeAgent.liftExcept found) := locally fun _ => rfl

/-- An export that is looked up for what it is, and one that is looked up to be called. -/
theorem lookup_bind {found : Except Failure Unit} {made : α} {f : StepCall γ β} {g : α → GuestCall γ β}
    (h : Refines world llm f (g made)) : Refines world llm
      (Stepwise.locally (Instance.invokeAgent.liftExcept found) >>= fun _ => f)
      (Instance.invokeAgent.liftExcept (found.map fun _ => made) >>= g) := by
  cases found with
  | error failure => exact Refines.failure failure
  | ok _ => exact h

theorem write (memory : GuestMemory γ) (ptr : UInt32) (bytes : Bytes) :
    Refines world llm (Stepwise.locally (memory.write ptr bytes)) (memory.write ptr bytes) := by
  apply locally
  intro store
  rw [GuestMemory.write_apply, GuestMemory.write_apply]
  have hguest : (store.inWorld world llm).guest = store.guest := rfl
  rw [hguest]
  cases writeGuest (some (memory.data store.guest)) ptr bytes <;> rfl

theorem read (memory : GuestMemory γ) (ptr len : UInt32) :
    Refines world llm (Stepwise.locally (memory.read ptr len)) (memory.read ptr len) := by
  apply locally
  intro store
  rw [GuestMemory.read_apply, GuestMemory.read_apply]
  have hguest : (store.inWorld world llm).guest = store.guest := rfl
  rw [hguest]
  cases readGuest (some (memory.data store.guest)) ptr len <;> rfl

theorem inStore (code : GuestCode γ α) :
    Refines world llm (Stepwise.inStore platform llm code) (code.inStore (world.platform platform)) := by
  intro store
  obtain ⟨hresult, hstate⟩ := Program.eval_serve (step platform llm) world
    (HostRun.answer (world.platform platform)) (fun run => run.inWorld world llm) (fun run move => by rw [HostRun.answer, step_eval]) (code store.guest) store.host
  unfold GuestCode.inStore Stepwise.inStore
  rw [eval_map]
  apply Prod.ext
  · exact congrArg (fun ended => ended.1.mapError Failure.trap) hresult
  · exact congrArg₂ Store.mk hstate (congrArg Prod.snd hresult)

end Refines

variable (module : AgentModule γ)

theorem instantiate_refines : Refines world llm (instantiate platform llm module)
    (module.toInstance (world.platform platform)).instantiate :=
  .tryCatch (.bind (.lookup _) fun _ => .inStore _) _

theorem checkAbiVersion_refines : Refines world llm (checkAbiVersion platform llm module)
    (module.toInstance (world.platform platform)).checkAbiVersion := by
  unfold checkAbiVersion Instance.checkAbiVersion AgentModule.toInstance
  cases module.shape.getTypedFunc "tds_abi_version" ⟨[], [.i32]⟩ with
  | error failure => exact .failure _
  | ok _ =>
      refine .bind (.tryCatch (.inStore _) _) fun version => ?_
      split_ifs
      · exact .failure _
      · exact .pure ()

theorem invokeAgent_refines (input : AgentInput) : Refines world llm (invokeAgent platform llm module input)
    ((module.toInstance (world.platform platform)).invokeAgent (world.platform platform) input) := by
  unfold invokeAgent Instance.invokeAgent AgentModule.toInstance
  by_cases hmemory : module.shape.getMemory "memory" = true
  · simp only [if_pos hmemory]
    refine .lookup_bind (.lookup_bind (.lookup_bind (.bind (.inStore _) fun ptr => ?_)))
    by_cases hptr : ptr = 0
    · rw [if_pos hptr, if_pos hptr]
      exact .failure _
    rw [if_neg hptr, if_neg hptr]
    refine .bind (.write _ _ _) fun _ => .bind (.inStore _) fun packed => .bind (.inStore _) fun _ => ?_
    by_cases hempty : (unpackPtrLen packed).1 = 0 ∨ (unpackPtrLen packed).2 = 0
    · simp only [if_pos hempty]
      exact .failure _
    simp only [if_neg hempty]
    refine .bind (.read _ _ _) fun buffer => .bind (.inStore _) fun _ => ?_
    have hcodec : (world.platform platform).codec = platform.codec := rfl
    rw [hcodec]
    cases platform.codec.fromSlice "AgentOutput" AgentOutput.decode buffer with
    | ok output => exact .pure output
    | error e => exact .failure _
  · simp only [if_neg hmemory]
    exact .failure _

end Stepwise

/-! ### Runs -/

namespace Shared

/-- A run in a world that has one answer to each question is the run of the runtime alone. -/
theorem run_eval (shared : Shared γ) (input : AgentInput) :
    (shared.toRuntime platform world).run (world.platform platform) input =
      ((shared.run platform input).eval world).inWorld world shared.llm := by
  unfold Runtime.run run
  have hpolicy : (shared.toRuntime platform world).policy = shared.policy := rfl
  rw [hpolicy, Stepwise.toolBox_new]
  cases clamp input.maxSteps 1 shared.policy.limits.maxSteps with
  | none => rfl
  | some maxSteps =>
      cases ToolBox.new platform shared.policy with
      | error e => rfl
      | ok tools =>
          have henter := (Stepwise.instantiate_refines world platform shared.llm shared.module).bind
            (fun _ => Stepwise.checkAbiVersion_refines world platform shared.llm shared.module) (shared.store tools)
          have hstore : (shared.toRuntime platform world).store (tools.inWorld world) =
            (shared.store tools).inWorld world shared.llm := rfl
          simp only [Except.map, hstore, eval_bind]
          erw [henter]
          generalize hentered : Program.eval world ((Stepwise.instantiate platform shared.llm shared.module >>= fun _ =>
            Stepwise.checkAbiVersion platform shared.llm shared.module) (shared.store tools)) = entered
          obtain ⟨outcome, store⟩ := entered
          cases outcome with
          | error failure => rfl
          | ok _ =>
              have hinvoke := Stepwise.invokeAgent_refines world platform shared.llm shared.module
                { input with maxSteps := maxSteps } store
              simp only [eval_map]
              erw [hinvoke]
              rfl

end Shared

end TdsWasm
