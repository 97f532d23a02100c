import TdsWasm.HostModule
import TdsWasm.LibCall

/-! Everything that a run does in its store, as one call, and a record of the guest beside it. Modules whose
parts are coupled have sessions that are coupled; one of them may be the other with a record of the host
functions that its code calls. -/

set_option autoImplicit false

namespace TdsWasm

open Call (Coupled Comparison)

variable {γ δ : Type}

/-! ### Sessions -/

namespace Instance

/-- The invocation up to the point where `tds_run` has returned and the input has been freed. -/
def runAgent (platform : Platform) (inst : Instance γ) (input : AgentInput) : GuestCall γ UInt64 := do
  match inst.memory with
  | none => throw (.message "agent module does not export its memory")
  | some memory =>
      let alloc ← invokeAgent.liftExcept inst.alloc
      let dealloc ← invokeAgent.liftExcept inst.dealloc
      let run ← invokeAgent.liftExcept inst.run
      let encoded := platform.codec.toVec input.encode
      let len := UInt32.ofNat encoded.length
      let ptr ← alloc len
      if ptr = 0 then
        throw (.message ("agent module could not allocate " ++ toString len.toNat ++
          " bytes for its input"))
      memory.write ptr encoded
      let packed ← run ptr len
      dealloc ptr len
      return packed

/-- The rest of the invocation. The buffer for the result is allocated before the range is read. -/
def takeResult (platform : Platform) (inst : Instance γ) (packed : UInt64) : GuestCall γ AgentOutput := do
  match inst.memory with
  | none => throw (.message "agent module does not export its memory")
  | some memory =>
      let dealloc ← invokeAgent.liftExcept inst.dealloc
      let (outPtr, outLen) := unpackPtrLen packed
      if outPtr = 0 ∨ outLen = 0 then
        throw (.message "agent returned an empty result")
      let buffer ← memory.read outPtr outLen
      dealloc outPtr outLen
      match platform.codec.fromSlice "AgentOutput" AgentOutput.decode buffer with
      | .ok output => return output
      | .error e => throw (.message ("decoding the agent result: " ++ e))

/-- The invocation is these two parts. -/
theorem invokeAgent_eq (platform : Platform) (inst : Instance γ) (input : AgentInput) :
    inst.invokeAgent platform input =
      inst.runAgent platform input >>= fun packed => inst.takeResult platform packed := by
  unfold invokeAgent runAgent takeResult
  cases inst.memory with
  | none => rfl
  | some memory =>
      cases inst.alloc with
      | error failure => rfl
      | ok alloc =>
          cases inst.dealloc with
          | error failure => rfl
          | ok dealloc =>
              cases inst.run with
              | error failure => rfl
              | ok run =>
                  have hlift : ∀ {α : Type} (found : α),
                      (invokeAgent.liftExcept (.ok found) : GuestCall γ α) = pure found := fun _ => rfl
                  simp only [hlift, pure_bind, bind_assoc]
                  apply bind_congr
                  intro ptr
                  split_ifs with hptr
                  · rfl
                  · rw [bind_assoc]
                    apply bind_congr
                    intro _
                    rw [bind_assoc]
                    apply bind_congr
                    intro packed
                    rw [bind_assoc]
                    apply bind_congr
                    intro _
                    rfl

/-- What is done before the agent is invoked. -/
def enter (inst : Instance γ) : GuestCall γ Unit := inst.instantiate >>= fun _ => inst.checkAbiVersion

def session (platform : Platform) (inst : Instance γ) (input : AgentInput) : GuestCall γ AgentOutput :=
  inst.enter >>= fun _ => inst.invokeAgent platform input

end Instance

namespace Runtime

variable (platform : Platform) (runtime : Runtime γ)

/-- The clamped input and the store with which guest code is first entered, if a run gets that far. -/
def opening (input : AgentInput) : Option (AgentInput × Store γ) :=
  match clamp input.maxSteps 1 runtime.policy.limits.maxSteps, ToolBox.new platform runtime.policy with
  | some maxSteps, .ok tools => some ({ input with maxSteps := maxSteps }, runtime.store tools)
  | _, _ => none

/-- The outcome of all that a run does in its store, and the store it leaves. -/
def session (input : AgentInput) : Option (Except Failure AgentOutput × Store γ) :=
  (runtime.opening platform input).map fun (input, store) => runtime.agent.session platform input store

end Runtime

/-! ### Watched guests -/

/-- A guest with the host functions that its code has called so far, and the trap that has ended it. -/
structure Watched (γ : Type) where
  guest : γ
  moves : List GuestMove
  trap : Option Trap

namespace Watched

def code {α : Type} (moves : List GuestMove) (trap : Option Trap) :
    Program moveSignature (Except Trap α × γ) → Program moveSignature (Except Trap α × Watched γ)
  | .done (.ok a, guest) => .done (.ok a, ⟨guest, moves, trap⟩)
  | .done (.error trap, guest) => .done (.error trap, ⟨guest, moves, some trap⟩)
  | .ask move next => .ask move fun reply => code (moves ++ [move]) trap (next reply)

def memory (memory : GuestMemory γ) : GuestMemory (Watched γ) where
  data state := memory.data state.guest
  setData state data := { state with guest := memory.setData state.guest data }

end Watched

/-- The same code, with the record. -/
def GuestCode.watched {α : Type} (code : GuestCode γ α) : GuestCode (Watched γ) α := fun state =>
  Watched.code state.moves state.trap (code state.guest)

def AgentModule.watched (module : AgentModule γ) : AgentModule (Watched γ) where
  shape := module.shape
  memory := Watched.memory module.memory
  start := module.start.watched
  abiVersion := module.abiVersion.watched
  alloc len := (module.alloc len).watched
  dealloc ptr len := (module.dealloc ptr len).watched
  run ptr len := (module.run ptr len).watched

/-- The runtime of a module. -/
def AgentModule.toRuntime (platform : Platform) (policy : Policy) (module : AgentModule γ) (fresh : γ)
    (llm : LlmProvider) : Runtime γ := ⟨policy, llm, module.toInstance platform, fresh⟩

/-- What the record of the guest says when a run is over. -/
def AgentModule.record (platform : Platform) (policy : Policy) (module : AgentModule γ) (fresh : γ)
    (llm : LlmProvider) (input : AgentInput) : Option (Watched γ) :=
  ((module.watched.toRuntime platform policy ⟨fresh, [], none⟩ llm).session platform input).map
    fun (_, store) => store.guest

/-! ### Coupled modules -/

namespace Instance

/-- A lookup finds nothing in both modules, with the same message, or functions of one kind in both. -/
inductive Found {α β : Type} (same : α → β → Prop) : Except Failure α → Except Failure β → Prop where
  | missing (text : String) : Found same (.error (.message text)) (.error (.message text))
  | found {first : α} {second : β} (h : same first second) : Found same (.ok first) (.ok second)

/-- The parts of one module and of the other are coupled. -/
structure Alike (c : Comparison Failure (Store γ) (Store δ)) (first : Instance γ) (second : Instance δ) :
    Prop where
  start : Coupled c first.start second.start
  memory : Option.Rel (fun memory memory' => (∀ ptr bytes, Coupled c (memory.write ptr bytes)
    (memory'.write ptr bytes)) ∧ ∀ ptr len, Coupled c (memory.read ptr len) (memory'.read ptr len))
    first.memory second.memory
  abiVersion : Found (Coupled c) first.abiVersion second.abiVersion
  alloc : Found (fun call call' => ∀ len, Coupled c (call len) (call' len)) first.alloc second.alloc
  dealloc : Found (fun call call' => ∀ ptr len, Coupled c (call ptr len) (call' ptr len)) first.dealloc
    second.dealloc
  run : Found (fun call call' => ∀ ptr len, Coupled c (call ptr len) (call' ptr len)) first.run second.run

/-- The failures of the host leave related states related, and so does context. -/
structure Plain (c : Comparison Failure (Store γ) (Store δ)) : Prop where
  message : ∀ {text s t}, c.related s t → c.failed (.message text) s t
  context : ∀ {text failure s t}, c.failed failure s t → c.failed (failure.context text) s t

variable {c : Comparison Failure (Store γ) (Store δ)} {first : Instance γ} {second : Instance δ}
variable (hplain : Plain c)

include hplain

theorem Alike.enter (h : Alike c first second) : Coupled c first.enter second.enter := by
  refine (h.start.tryCatch hplain.context).bind fun _ => ?_
  have hlookup := h.abiVersion
  unfold checkAbiVersion
  generalize first.abiVersion = found at hlookup ⊢
  generalize second.abiVersion = found' at hlookup ⊢
  cases hlookup with
  | missing text => exact .failure hplain.message
  | found hcall =>
      refine (hcall.tryCatch hplain.context).bind fun version => ?_
      split_ifs
      · exact .failure hplain.message
      · exact .value ()

/-- A lookup that the code goes on with. -/
theorem Found.bind {α β ρ : Type} {same : α → β → Prop} {lookup : Except Failure α} {lookup' : Except Failure β}
    (h : Found same lookup lookup') {next : α → GuestCall γ ρ} {next' : β → GuestCall δ ρ}
    (hnext : ∀ {call call'}, same call call' → Coupled c (next call) (next' call')) :
    Coupled c (invokeAgent.liftExcept lookup >>= next) (invokeAgent.liftExcept lookup' >>= next') := by
  cases h with
  | missing text => exact .failure hplain.message
  | found hsame => exact hnext hsame

theorem Alike.invokeAgent (platform : Platform) (h : Alike c first second) (input : AgentInput) :
    Coupled c (first.invokeAgent platform input) (second.invokeAgent platform input) := by
  have hmemory := h.memory
  unfold Instance.invokeAgent
  generalize first.memory = found at hmemory ⊢
  generalize second.memory = found' at hmemory ⊢
  cases hmemory with
  | none => exact .failure hplain.message
  | some hmemory =>
      obtain ⟨hwrite, hread⟩ := hmemory
      refine h.alloc.bind hplain fun halloc => h.dealloc.bind hplain fun hdealloc =>
        h.run.bind hplain fun hrun => (halloc _).bind fun ptr => ?_
      by_cases hptr : ptr = 0
      · rw [if_pos hptr, if_pos hptr]
        exact .failure hplain.message
      rw [if_neg hptr, if_neg hptr]
      refine (hwrite _ _).bind fun _ => (hrun _ _).bind fun packed => (hdealloc _ _).bind fun _ => ?_
      by_cases hempty : (unpackPtrLen packed).1 = 0 ∨ (unpackPtrLen packed).2 = 0
      · simp only [if_pos hempty]
        exact .failure hplain.message
      simp only [if_neg hempty]
      refine (hread _ _).bind fun buffer => (hdealloc _ _).bind fun _ => ?_
      cases platform.codec.fromSlice "AgentOutput" AgentOutput.decode buffer with
      | ok output => exact .value output
      | error e => exact .failure hplain.message

theorem Alike.session (platform : Platform) (h : Alike c first second) (input : AgentInput) :
    Coupled c (first.session platform input) (second.session platform input) :=
  (h.enter hplain).bind fun _ => h.invokeAgent hplain platform input

end Instance

/-! ### The record and the run -/

/-- The trap behind a failure. -/
def Failure.cause : Failure → Option Trap
  | .trap t => some t
  | .message _ => none

theorem Failure.cause_context (text : String) (failure : Failure) :
    (failure.context text).cause = failure.cause := by
  cases failure <;> rfl

variable (platform : Platform) (start : HostRun)

/-- The store of a watched guest beside the store of the guest itself. -/
structure Watches (store : Store γ) (watched : Store (Watched γ)) : Prop where
  host_eq : store.host = watched.host
  guest_eq : store.guest = watched.guest.guest
  moves_eq : watched.host = (HostRun.machine platform).run start watched.guest.moves

/-- A guest that is being watched has not trapped. One that has failed has the trap of the failure. -/
def watching : Comparison Failure (Store γ) (Store (Watched γ)) :=
  .lockstep (fun store watched => Watches platform start store watched ∧ watched.guest.trap = none)
    fun failure store watched => Watches platform start store watched ∧ watched.guest.trap = failure.cause

theorem watching_plain : Instance.Plain (γ := γ) (watching platform start) where
  message h := ⟨h.1, h.2⟩
  context h := ⟨h.1, h.2.trans (Failure.cause_context _ _).symm⟩

theorem Watches.of_code {α : Type} (program : Program moveSignature (Except Trap α × γ)) {host : HostRun}
    {moves : List GuestMove} (hmoves : host = (HostRun.machine platform).run start moves) :
    let ended := program.run (HostRun.answer platform) host
    let watched := (Watched.code moves none program).run (HostRun.answer platform) host
    ended.result.1 = watched.result.1 ∧
      Watches platform start ⟨ended.state, ended.result.2⟩ ⟨watched.state, watched.result.2⟩ ∧
        watched.result.2.trap = match ended.result.1 with
          | .ok _ => none
          | .error trap => some trap := by
  induction program generalizing host moves with
  | done result =>
      obtain ⟨outcome, guest⟩ := result
      cases outcome with
      | ok a => exact ⟨rfl, ⟨rfl, rfl, hmoves⟩, rfl⟩
      | error trap => exact ⟨rfl, ⟨rfl, rfl, hmoves⟩, rfl⟩
  | ask move next ih =>
      have hnext : (host.step platform move).1 = (HostRun.machine platform).run start (moves ++ [move]) := by
        rw [Machine.run_append, ← hmoves]
        rfl
      exact ih (host.step platform move).2 hnext

theorem watching_ended {α : Type} {outcome : Except Trap α} {store : Store γ} {watched : Store (Watched γ)}
    (hwatches : Watches platform start store watched)
    (htrap : watched.guest.trap = match outcome with
      | .ok _ => none
      | .error trap => some trap) :
    (watching platform start).ended (outcome.mapError Failure.trap) store watched := by
  cases outcome <;> exact ⟨hwatches, htrap⟩

theorem GuestCode.coupled {α : Type} (code : GuestCode γ α) :
    Coupled (watching platform start) (code.inStore platform) (code.watched.inStore platform) where
  left _ := trivial
  right _ := trivial
  both {store watched} hrelated _ := by
    obtain ⟨⟨hhost, hguest, hmoves⟩, htrap⟩ := hrelated
    obtain ⟨host, guest⟩ := store
    obtain ⟨host', guest', moves, trap⟩ := watched
    simp only at hhost hguest hmoves htrap
    subst hhost hguest htrap
    obtain ⟨hresult, hwatches, hended⟩ := Watches.of_code platform start (code guest) hmoves
    exact ⟨congrArg (Except.mapError Failure.trap) hresult, watching_ended platform start hwatches hended⟩

namespace GuestMemory

variable (memory : GuestMemory γ)

theorem write_apply (ptr : UInt32) (bytes : Bytes) (store : Store γ) :
    memory.write ptr bytes store = match writeGuest (some (memory.data store.guest)) ptr bytes with
      | some data => (.ok (), { store with guest := memory.setData store.guest data })
      | none => (.error (outOfBounds.context "writing agent input into guest memory"), store) := by
  unfold write
  rw [Call.bind_apply]
  show (match writeGuest (some (memory.data store.guest)) ptr bytes with
    | some data => _
    | none => _ : GuestCall γ Unit) store = _
  cases writeGuest (some (memory.data store.guest)) ptr bytes <;> rfl

theorem read_apply (ptr len : UInt32) (store : Store γ) :
    memory.read ptr len store = match readGuest (some (memory.data store.guest)) ptr len with
      | some bytes => (.ok bytes, store)
      | none => (.error (outOfBounds.context "reading the agent result from guest memory"), store) := by
  unfold read
  rw [Call.bind_apply]
  show (match readGuest (some (memory.data store.guest)) ptr len with
    | some bytes => _
    | none => _ : GuestCall γ Bytes) store = _
  cases readGuest (some (memory.data store.guest)) ptr len <;> rfl

variable {memory} {store : Store γ} {ptr len : UInt32} {bytes : Bytes}

/-- A write inside the memory. -/
theorem write_of_some {data : Bytes} (h : writeGuest (some (memory.data store.guest)) ptr bytes = some data) :
    memory.write ptr bytes store = (.ok (), { store with guest := memory.setData store.guest data }) := by
  rw [write_apply, h]

/-- A read inside the memory. -/
theorem read_of_some (h : readGuest (some (memory.data store.guest)) ptr len = some bytes) :
    memory.read ptr len store = (.ok bytes, store) := by
  rw [read_apply, h]

variable (memory)

theorem coupled :
    (∀ ptr bytes, Coupled (watching platform start) (memory.write ptr bytes)
      ((Watched.memory memory).write ptr bytes)) ∧
    ∀ ptr len, Coupled (watching platform start) (memory.read ptr len)
      ((Watched.memory memory).read ptr len) := by
  constructor
  · refine fun ptr bytes => ⟨fun _ => trivial, fun _ => trivial, ?_⟩
    rintro ⟨host, guest⟩ ⟨host', guest', moves, trap⟩ ⟨⟨hhost, hguest, hmoves⟩, htrap⟩ _
    simp only at hhost hguest hmoves htrap
    subst hhost hguest htrap
    rw [write_apply, write_apply]
    have hdata : (Watched.memory memory).data ⟨guest, moves, none⟩ = memory.data guest := rfl
    rw [hdata]
    cases writeGuest (some (memory.data guest)) ptr bytes with
    | some data => exact ⟨rfl, ⟨rfl, rfl, hmoves⟩, rfl⟩
    | none => exact ⟨rfl, ⟨rfl, rfl, hmoves⟩, rfl⟩
  · refine fun ptr len => ⟨fun _ => trivial, fun _ => trivial, ?_⟩
    rintro ⟨host, guest⟩ ⟨host', guest', moves, trap⟩ ⟨⟨hhost, hguest, hmoves⟩, htrap⟩ _
    simp only at hhost hguest hmoves htrap
    subst hhost hguest htrap
    rw [read_apply, read_apply]
    have hdata : (Watched.memory memory).data ⟨guest, moves, none⟩ = memory.data guest := rfl
    rw [hdata]
    cases readGuest (some (memory.data guest)) ptr len with
    | some bytes => exact ⟨rfl, ⟨rfl, rfl, hmoves⟩, rfl⟩
    | none => exact ⟨rfl, ⟨rfl, rfl, hmoves⟩, rfl⟩

end GuestMemory

namespace AgentModule

variable (module : AgentModule γ)

/-- A lookup of an export goes the same way in both modules. -/
theorem found {α β : Type} {same : α → β → Prop}
    (name : String) (type : FuncType) {call : α} {call' : β} (h : same call call') :
    Instance.Found same ((module.shape.getTypedFunc name type).map fun _ => call)
      ((module.shape.getTypedFunc name type).map fun _ => call') := by
  unfold ModuleShape.getTypedFunc
  split_ifs
  · exact .found h
  · exact .missing _

theorem linked : Instance.Found (fun _ _ => True) module.shape.link module.shape.link := by
  unfold ModuleShape.link
  cases module.shape.imports.find? fun entry => !ModuleShape.defines entry with
  | none => exact .found trivial
  | some entry => exact .missing _

/-- Modules of one shape are alike when their memories and the code behind their exports are. -/
theorem alike {c : Comparison Failure (Store γ) (Store δ)} (hplain : Instance.Plain c) {module : AgentModule γ}
    {module' : AgentModule δ} (hshape : module'.shape = module.shape)
    (hstart : Coupled c (module.start.inStore platform) (module'.start.inStore platform))
    (hmemory : (∀ ptr bytes, Coupled c (module.memory.write ptr bytes) (module'.memory.write ptr bytes)) ∧
      ∀ ptr len, Coupled c (module.memory.read ptr len) (module'.memory.read ptr len))
    (habi : Coupled c (module.abiVersion.inStore platform) (module'.abiVersion.inStore platform))
    (halloc : ∀ len, Coupled c ((module.alloc len).inStore platform) ((module'.alloc len).inStore platform))
    (hdealloc : ∀ ptr len,
      Coupled c ((module.dealloc ptr len).inStore platform) ((module'.dealloc ptr len).inStore platform))
    (hrun : ∀ ptr len, Coupled c ((module.run ptr len).inStore platform) ((module'.run ptr len).inStore platform)) :
    Instance.Alike c (module.toInstance platform) (module'.toInstance platform) := by
  constructor <;> simp only [toInstance, hshape]
  · exact module.linked.bind hplain fun _ => hstart
  · split_ifs
    · exact .some hmemory
    · exact .none
  · exact module.found "tds_abi_version" _ habi
  · exact module.found "tds_alloc" _ halloc
  · exact module.found "tds_dealloc" _ hdealloc
  · exact module.found "tds_run" _ hrun

theorem alike_watched : Instance.Alike (watching platform start) (module.toInstance platform)
    (module.watched.toInstance platform) :=
  alike platform (watching_plain platform start) rfl (module.start.coupled platform start)
    (module.memory.coupled platform start) (module.abiVersion.coupled platform start)
    (fun len => (module.alloc len).coupled platform start)
    (fun ptr len => (module.dealloc ptr len).coupled platform start)
    fun ptr len => (module.run ptr len).coupled platform start

end AgentModule

/-- A run opens its store with a fresh host. -/
theorem Runtime.opening_eq_some {runtime : Runtime γ} {input clamped : AgentInput} {store : Store γ}
    (h : runtime.opening platform input = some (clamped, store)) :
    ∃ tools, ToolBox.new platform runtime.policy = .ok tools ∧ store = runtime.store tools ∧
      ∃ maxSteps, clamp input.maxSteps 1 runtime.policy.limits.maxSteps = some maxSteps ∧
        clamped = { input with maxSteps := maxSteps } := by
  unfold opening at h
  cases hclamp : clamp input.maxSteps 1 runtime.policy.limits.maxSteps with
  | none =>
      rw [hclamp] at h
      cases h
  | some maxSteps =>
      cases htools : ToolBox.new platform runtime.policy with
      | error e =>
          rw [hclamp, htools] at h
          cases h
      | ok tools =>
          rw [hclamp, htools] at h
          cases h
          exact ⟨tools, rfl, rfl, maxSteps, rfl, rfl⟩

/-- A run that opens no store panics at its number of steps, or cannot make its tool box. -/
theorem Runtime.opening_eq_none {runtime : Runtime γ} {input : AgentInput}
    (h : runtime.opening platform input = none) :
    clamp input.maxSteps 1 runtime.policy.limits.maxSteps = none ∧ runtime.run platform input = .panicked ∨
      ∃ e, ToolBox.new platform runtime.policy = .error e ∧ runtime.run platform input = .err (.message e) := by
  unfold opening at h
  unfold run
  cases hclamp : clamp input.maxSteps 1 runtime.policy.limits.maxSteps with
  | none => exact Or.inl ⟨rfl, rfl⟩
  | some maxSteps =>
      cases htools : ToolBox.new platform runtime.policy with
      | error e => exact Or.inr ⟨e, rfl, rfl⟩
      | ok tools =>
          rw [hclamp, htools] at h
          cases h

/-- A run is its opening, its entry and the invocation of the agent. -/
theorem Runtime.run_eq {runtime : Runtime γ} {input clamped : AgentInput} {opened : Store γ}
    (hopen : runtime.opening platform input = some (clamped, opened)) :
    runtime.run platform input = match runtime.agent.enter opened with
      | (.error failure, _) => .err failure
      | (.ok (), entered) =>
          .ok (runtime.report (runtime.agent.invokeAgent platform clamped entered).1
            (runtime.agent.invokeAgent platform clamped entered).2)
            (runtime.agent.invokeAgent platform clamped entered).1
            (runtime.agent.invokeAgent platform clamped entered).2 := by
  obtain ⟨tools, htools, rfl, maxSteps, hclamp, rfl⟩ := Runtime.opening_eq_some platform hopen
  unfold run Instance.enter
  rw [hclamp, htools]
  simp only
  cases (runtime.agent.instantiate >>= fun _ => runtime.agent.checkAbiVersion) (runtime.store tools) with
  | mk entry entered => cases entry <;> rfl

/-- A number of steps that can be clamped does not make the run panic. -/
theorem Runtime.run_ne_panicked {runtime : Runtime γ} {input : AgentInput} {maxSteps : UInt32}
    (hclamp : clamp input.maxSteps 1 runtime.policy.limits.maxSteps = some maxSteps) :
    runtime.run platform input ≠ .panicked := by
  intro hrun
  cases hopen : runtime.opening platform input with
  | none =>
      rcases opening_eq_none platform hopen with ⟨hnone, _⟩ | ⟨e, _, herror⟩
      · cases hclamp.symm.trans hnone
      · cases hrun.symm.trans herror
  | some entry =>
      obtain ⟨clamped, opened⟩ := entry
      rw [run_eq platform hopen] at hrun
      cases henter : runtime.agent.enter opened with
      | mk outcome entered =>
          rw [henter] at hrun
          cases outcome with
          | error failure => cases hrun
          | ok _ => cases hrun

/-- A report is made from the invocation of an instance that has been opened and entered. -/
theorem Runtime.run_eq_ok {runtime : Runtime γ} {input : AgentInput} {report : RunReport}
    {result : Except Failure AgentOutput} {final : Store γ}
    (h : runtime.run platform input = .ok report result final) :
    ∃ clamped opened entered, runtime.opening platform input = some (clamped, opened) ∧
      runtime.agent.enter opened = (.ok (), entered) ∧
      runtime.agent.invokeAgent platform clamped entered = (result, final) ∧
      report = runtime.report result final := by
  cases hopen : runtime.opening platform input with
  | none =>
      rcases opening_eq_none platform hopen with ⟨_, hrun⟩ | ⟨e, _, hrun⟩
      · cases h.symm.trans hrun
      · cases h.symm.trans hrun
  | some entry =>
      obtain ⟨clamped, opened⟩ := entry
      rw [run_eq platform hopen] at h
      cases henter : runtime.agent.enter opened with
      | mk outcome entered =>
          rw [henter] at h
          cases outcome with
          | error failure => cases h
          | ok _ =>
              cases h
              exact ⟨clamped, opened, entered, rfl, henter, rfl, rfl⟩

/-- The record of a run is that of its session: the moves that have led the host to where it is, and the trap
that the session has failed with. -/
theorem AgentModule.record_eq_some {policy : Policy} {module : AgentModule γ} {fresh : γ} {llm : LlmProvider}
    {input : AgentInput} {watched : Watched γ}
    (h : module.record platform policy fresh llm input = some watched) :
    ∃ clamped tools outcome store,
      (module.toRuntime platform policy fresh llm).opening platform input =
        some (clamped, ⟨.start policy llm tools, fresh⟩) ∧
      (module.toInstance platform).session platform clamped ⟨.start policy llm tools, fresh⟩ =
        (outcome, store) ∧
      store.guest = watched.guest ∧
      store.host = (HostRun.machine platform).run (.start policy llm tools) watched.moves ∧
      watched.trap = match outcome with
        | .ok _ => none
        | .error failure => failure.cause := by
  unfold record Runtime.session at h
  rw [Option.map_map] at h
  obtain ⟨⟨clamped, opened⟩, hopen, hended⟩ := Option.map_eq_some_iff.mp h
  obtain ⟨tools, htools, rfl, maxSteps, hclamp, rfl⟩ := Runtime.opening_eq_some platform hopen
  have hrelated : (watching platform (.start policy llm tools)).related
      (⟨.start policy llm tools, fresh⟩ : Store γ) ⟨.start policy llm tools, ⟨fresh, [], none⟩⟩ :=
    ⟨⟨rfl, rfl, rfl⟩, rfl⟩
  have hopened : (module.toRuntime platform policy fresh llm).opening platform input =
      some ({ input with maxSteps := maxSteps }, ⟨.start policy llm tools, fresh⟩) := by
    unfold Runtime.opening
    show (match clamp input.maxSteps 1 policy.limits.maxSteps, ToolBox.new platform policy with
      | some maxSteps, .ok tools => _
      | _, _ => none) = _
    have hclamp' : clamp input.maxSteps 1 policy.limits.maxSteps = some maxSteps := hclamp
    have htools' : ToolBox.new platform policy = .ok tools := htools
    rw [hclamp', htools']
    rfl
  obtain ⟨hsame, hrelation⟩ := ((module.alike_watched platform (.start policy llm tools)).session
    (watching_plain platform _) platform { input with maxSteps := maxSteps }).both hrelated trivial
  refine ⟨_, tools, _, _, hopened, Prod.mk.eta.symm, ?_⟩
  generalize (module.toInstance platform).session platform { input with maxSteps := maxSteps }
    ⟨.start policy llm tools, fresh⟩ = plain at hrelation ⊢
  have hwatched : ((module.watched.toInstance platform).session platform { input with maxSteps := maxSteps }
    ⟨.start policy llm tools, ⟨fresh, [], none⟩⟩).2.guest = watched := hended
  obtain ⟨outcome, store⟩ := plain
  cases outcome with
  | ok output =>
      obtain ⟨hwatches, htrap⟩ := hrelation
      rw [← hwatched]
      exact ⟨hwatches.guest_eq, hwatches.host_eq.trans hwatches.moves_eq, htrap⟩
  | error failure =>
      obtain ⟨hwatches, htrap⟩ := hrelation
      rw [← hwatched]
      exact ⟨hwatches.guest_eq, hwatches.host_eq.trans hwatches.moves_eq, htrap⟩

end TdsWasm
