import TdsWasm.HostSession
import TdsWasm.HostSteps
import TdsWasm.SecurityShape

/-! What becomes of a trap of the guest. It is reported as the outcome of the run, with the lines logged until
then, unless it comes before the agent is invoked; then it is the error of the run. -/

set_option autoImplicit false

namespace TdsWasm

/-! ### Logs -/

/-- The line that a move logs, when it calls `log` with a range inside its memory. -/
def GuestMove.line (move : GuestMove) : Option LogLine :=
  match move.invocation with
  | .log level ptr len => (readGuest move.memory ptr (min len Caller.maxLogBytes)).map fun bytes =>
      ⟨(LogLevel.fromI32 level).asStr, Text.fromUtf8Lossy bytes⟩
  | _ => none

section Logs

variable (platform : Platform)

theorem dispatch_logs (state : HostState) (history : History) (name : String) (request : Bytes) :
    (dispatch platform state history name request).2.1.logs = state.logs := by
  have hhandled := dispatch_handled platform state history name request
  generalize (dispatch platform state history name request).2.1 = after at hhandled ⊢
  generalize (dispatch platform state history name request).2.2 = events at hhandled
  cases hhandled <;> rfl

theorem Caller.log_logs (caller : Caller) (level : Int32) (ptr len : UInt32) :
    (caller.log level ptr len).data.logs =
      if caller.data.logs.length < maxLogLines then
        caller.data.logs ++ ((readGuest caller.memory ptr (min len maxLogBytes)).map fun bytes =>
          (⟨(LogLevel.fromI32 level).asStr, Text.fromUtf8Lossy bytes⟩ : LogLine)).toList
      else caller.data.logs := by
  unfold log
  cases readGuest caller.memory ptr (min len maxLogBytes) with
  | none =>
      rw [Option.map_none, Option.toList_none, List.append_nil, ite_self]
  | some bytes =>
      simp only [Option.map_some, Option.toList_some]
      split_ifs <;> rfl

theorem Caller.responseRead_logs (caller : Caller) (ptr len : UInt32) :
    (caller.responseRead ptr len).2.data.logs = caller.data.logs := by
  unfold responseRead
  simp only
  split_ifs
  · rfl
  · cases writeGuest caller.memory ptr caller.data.pending <;> rfl

theorem Caller.call_logs (caller : Caller) (namePtr nameLen reqPtr reqLen : UInt32) :
    (caller.call platform namePtr nameLen reqPtr reqLen).2.data.logs = caller.data.logs := by
  rw [call_eq]
  cases caller.receive namePtr nameLen reqPtr reqLen with
  | oversized => rfl
  | rejected code => rfl
  | request name body => exact dispatch_logs platform caller.data caller.history name body

/-- A move keeps its line while there is room. -/
theorem HostRun.logs_step (run : HostRun) (move : GuestMove) :
    ((machine platform).step run move).1.data.logs =
      if run.data.logs.length < Caller.maxLogLines then run.data.logs ++ move.line.toList
      else run.data.logs := by
  obtain ⟨memory, invocation⟩ := move
  cases invocation with
  | log level ptr len => exact (run.caller memory).log_logs level ptr len
  | call namePtr nameLen reqPtr reqLen =>
      have hlogs := (run.caller memory).call_logs platform namePtr nameLen reqPtr reqLen
      have hquiet : (GuestMove.mk memory (.call namePtr nameLen reqPtr reqLen)).line = none := rfl
      rw [hquiet, Option.toList_none, List.append_nil, ite_self]
      exact hlogs
  | responseRead ptr len =>
      have hlogs := (run.caller memory).responseRead_logs ptr len
      have hquiet : (GuestMove.mk memory (.responseRead ptr len)).line = none := rfl
      rw [hquiet, Option.toList_none, List.append_nil, ite_self]
      exact hlogs

/-- The host retains the first lines that the guest has logged. -/
theorem HostRun.logs_run {start : HostRun} (hstart : start.data.logs = []) (moves : List GuestMove) :
    ((machine platform).run start moves).data.logs =
      (moves.filterMap GuestMove.line).take Caller.maxLogLines := by
  induction moves using List.reverseRecOn with
  | nil => exact hstart
  | append_singleton moves move ih =>
      rw [Machine.run_append]
      show ((machine platform).step ((machine platform).run start moves) move).1.data.logs = _
      have hline : [move].filterMap GuestMove.line = move.line.toList := by
        cases hmove : move.line with
        | none => simp [hmove]
        | some line => simp [hmove]
      rw [logs_step, ih, List.filterMap_append, hline, List.length_take]
      by_cases hroom : (moves.filterMap GuestMove.line).length < Caller.maxLogLines
      · have hone : move.line.toList.length ≤ 1 := by cases move.line <;> simp
        rw [if_pos (by omega), List.take_of_length_le hroom.le, List.take_of_length_le]
        rw [List.length_append]
        omega
      · rw [if_neg (by omega), List.take_append_of_le_length (Nat.not_lt.mp hroom)]

end Logs

/-! ### Traps -/

section Traps

variable {γ : Type} (platform : Platform)

/-- Guest code fails by trapping only. -/
theorem GuestCode.inStore_error {α : Type} {code : GuestCode γ α} {store after : Store γ} {failure : Failure}
    (h : code.inStore platform store = (.error failure, after)) : ∃ trap, failure = .trap trap := by
  unfold inStore at h
  cases houtcome : ((code store.guest).run (HostRun.answer platform) store.host).result.1 with
  | ok a =>
      simp only [houtcome] at h
      cases h
  | error trap =>
      simp only [houtcome] at h
      cases h
      exact ⟨trap, rfl⟩

/-- The code that a run executes before it invokes the agent traps: the start function of the module, or
`tds_abi_version` after it. -/
def AgentModule.TrapsOnEntry (module : AgentModule γ) (store : Store γ) : Prop :=
  (∃ trap after, module.start.inStore platform store = (.error (.trap trap), after)) ∨
    ∃ entered trap after, module.start.inStore platform store = (.ok (), entered) ∧
      module.abiVersion.inStore platform entered = (.error (.trap trap), after)

theorem Failure.context_eq_trap {text : String} {failure : Failure} {trap : Trap}
    (h : Failure.trap trap = failure.context text) : failure = .trap trap := by
  cases failure with
  | trap t =>
      cases h
      rfl
  | message cause => cases h

variable {platform} {module : AgentModule γ} {store after : Store γ} {trap : Trap}

namespace AgentModule

/-- The failure to link is none of the guest. -/
theorem link_ne_trap (h : module.shape.link = .error (.trap trap)) : False := by
  have hlink := module.linked
  rw [h] at hlink
  cases hlink

/-- The version check has no other code of the guest to call than `tds_abi_version`. -/
theorem checkAbiVersion_calls {outcome : Except Failure Unit}
    (h : (module.toInstance platform).checkAbiVersion store = (outcome, after)) :
    (∃ text, outcome = .error (.message text)) ∨
      (∃ trap, outcome = .error (.trap trap) ∧
        module.abiVersion.inStore platform store = (.error (.trap trap), after)) ∨
      outcome = .ok () ∧ ∃ version, module.abiVersion.inStore platform store = (.ok version, after) := by
  have hlookup : (module.toInstance platform).abiVersion =
      (module.shape.getTypedFunc "tds_abi_version" ⟨[], [.i32]⟩).map fun _ =>
        module.abiVersion.inStore platform := rfl
  unfold Instance.checkAbiVersion at h
  rw [hlookup, ModuleShape.getTypedFunc] at h
  split_ifs at h with hfunc
  swap
  · cases h
    exact Or.inl ⟨_, rfl⟩
  cases outcome with
  | ok entered =>
      obtain ⟨version, middle, hcall, hcheck⟩ := Call.bind_eq_ok h
      have hmiddle : middle = after := by
        split_ifs at hcheck <;> cases hcheck
        rfl
      subst hmiddle
      exact Or.inr (Or.inr ⟨rfl, version, Call.tryCatch_eq_ok hcall⟩)
  | error failure =>
      rcases Call.bind_eq_error h with hcall | ⟨version, middle, hcall, hcheck⟩
      · obtain ⟨cause, hcause, rfl⟩ := Call.tryCatch_eq_error hcall
        obtain ⟨trap, rfl⟩ := GuestCode.inStore_error platform hcause
        exact Or.inr (Or.inl ⟨trap, rfl, hcause⟩)
      · split_ifs at hcheck <;> cases hcheck
        exact Or.inl ⟨_, rfl⟩

theorem trapsOnEntry_of_enter (h : (module.toInstance platform).enter store = (.error (.trap trap), after)) :
    module.TrapsOnEntry platform store := by
  rcases Call.bind_eq_error h with hstart | ⟨_, entered, hstart, hversion⟩
  · obtain ⟨cause, hcause, hcontext⟩ := Call.tryCatch_eq_error hstart
    cases Failure.context_eq_trap hcontext
    rcases Call.bind_eq_error hcause with hlink | ⟨_, linked, hlink, htrap⟩
    · exact (link_ne_trap (congrArg Prod.fst hlink)).elim
    · cases (congrArg Prod.snd hlink : store = linked)
      exact Or.inl ⟨trap, after, htrap⟩
  · obtain ⟨_, linked, hlink, hentered⟩ := Call.bind_eq_ok (Call.tryCatch_eq_ok hstart)
    cases (congrArg Prod.snd hlink : store = linked)
    rcases checkAbiVersion_calls hversion with ⟨text, hmessage⟩ | ⟨trap, _, htrap⟩ | ⟨hok, _⟩
    · cases hmessage
    · exact Or.inr ⟨entered, trap, after, hentered, htrap⟩
    · cases hok

theorem not_trapsOnEntry_of_enter (h : (module.toInstance platform).enter store = (.ok (), after)) :
    ¬ module.TrapsOnEntry platform store := by
  obtain ⟨_, entered, hstart, hversion⟩ := Call.bind_eq_ok h
  obtain ⟨_, linked, hlink, hentered⟩ := Call.bind_eq_ok (Call.tryCatch_eq_ok hstart)
  cases (congrArg Prod.snd hlink : store = linked)
  rintro (⟨trap, final, htrap⟩ | ⟨entered', trap, final, hentered', htrap⟩)
  · cases hentered.symm.trans htrap
  · cases hentered.symm.trans hentered'
    rcases checkAbiVersion_calls hversion with ⟨text, hmessage⟩ | ⟨trap', herror, _⟩ | ⟨_, version, hcall⟩
    · cases hmessage
    · cases herror
    · cases hcall.symm.trans htrap

end AgentModule

theorem Failure.eq_of_cause {failure : Failure} {trap : Trap} (h : failure.cause = some trap) :
    failure = .trap trap := by
  cases failure with
  | trap t =>
      cases h
      rfl
  | message text => cases h

/-- In a run in which guest code traps, wherever it does, the trap is reported as the outcome, with the lines
logged until then, if and only if it is not the start function or `tds_abi_version` that traps. -/
theorem trap_reported_iff (platform : Platform) (policy : Policy) (module : AgentModule γ) (fresh : γ)
    (llm : LlmProvider) (runtime : Runtime γ)
    (hnew : Runtime.new platform policy module fresh llm = .ok runtime) (input : AgentInput)
    (watched : Watched γ) (hrecord : module.record platform policy fresh llm input = some watched)
    (trap : Trap) (htrap : watched.trap = some trap) :
    (∃ report result store, runtime.run platform input = .ok report result store ∧
      report.output.stop = .error ∧ report.output.answer = describeTrap (.trap trap) ∧
      report.logs = (watched.moves.filterMap GuestMove.line).take Caller.maxLogLines) ↔
    ∀ clamped opened, runtime.opening platform input = some (clamped, opened) →
      ¬ module.TrapsOnEntry platform opened := by
  obtain ⟨_, _, hruntime⟩ := Runtime.of_new hnew
  have hagent : runtime.agent = module.toInstance platform := by rw [hruntime]
  obtain ⟨clamped, tools, outcome, final, hopen, hsession, -, hhost, hcause⟩ :=
    AgentModule.record_eq_some platform hrecord
  rw [show module.toRuntime platform policy fresh llm = runtime from hruntime.symm] at hopen
  rw [Runtime.run_eq platform hopen, hagent]
  unfold Instance.session at hsession
  rw [Call.bind_apply] at hsession
  cases henter : (module.toInstance platform).enter ⟨.start policy llm tools, fresh⟩ with
  | mk entry entered =>
      rw [henter] at hsession
      cases entry with
      | error failure =>
          -- the run ends with the failure, and the failure is the trap
          cases hsession
          have hfailure := Failure.eq_of_cause (hcause.symm.trans htrap)
          subst hfailure
          constructor
          · rintro ⟨report, result, store, hrun, _⟩
            cases hrun
          · intro hquiet
            exact absurd (AgentModule.trapsOnEntry_of_enter henter) (hquiet _ _ hopen)
      | ok entry =>
          have hquiet := AgentModule.not_trapsOnEntry_of_enter henter
          cases outcome with
          | ok output => cases hcause.symm.trans htrap
          | error failure =>
              have hfailure := Failure.eq_of_cause (hcause.symm.trans htrap)
              subst hfailure
              constructor
              · intro _ clamped' opened hopen'
                cases hopen.symm.trans hopen'
                exact hquiet
              · intro _
                have hinvoked : (module.toInstance platform).invokeAgent platform clamped entered =
                    (.error (.trap trap), final) := hsession
                have hstart : (HostRun.start policy llm tools).data.logs = [] := rfl
                have hlogs := HostRun.logs_run platform hstart watched.moves
                rw [← hhost] at hlogs
                refine ⟨_, _, _, rfl, ?_⟩
                rw [hinvoked]
                exact ⟨rfl, rfl, hlogs⟩

end Traps

/-! ### Modules that trap -/

/-- A module whose `tds_alloc` logs the start of its memory and then traps. -/
def allocTraps : AgentModule Unit :=
  { inertModule abiShape with
    alloc := fun _ guest => .ask ⟨some [72, 105], .log 1 0 2⟩ fun _ => .done (.error .unreachableCodeReached, guest) }

/-- A module whose start function traps. -/
def startTraps : AgentModule Unit :=
  { inertModule abiShape with start := fun guest => .done (.error .unreachableCodeReached, guest) }

def trapInput : AgentInput := ⟨"task", none, 1⟩

theorem trap_reported_alloc :
    ∃ report result store, (offlineRuntime allocTraps).run .offline trapInput = .ok report result store ∧
      report.output.stop = .error ∧ report.output.answer = describeTrap (.trap .unreachableCodeReached) ∧
      report.logs = [⟨"info", "Hi"⟩] :=
  (trap_reported_iff .offline .default allocTraps () _ (offlineRuntime allocTraps) rfl trapInput _ rfl
    .unreachableCodeReached rfl).mpr (by
      rintro clamped opened - (⟨trap, after, htrap⟩ | ⟨entered, trap, after, -, htrap⟩)
      · cases htrap
      · cases htrap)

/-- The runtime accepts the module, and its run fails with the trap. -/
theorem start_trap_lost :
    Runtime.new .offline .default startTraps () (offlineRuntime startTraps).llm =
        .ok (offlineRuntime startTraps) ∧
      (startTraps.record .offline .default () (offlineRuntime startTraps).llm trapInput).bind Watched.trap =
        some .unreachableCodeReached ∧
      (offlineRuntime startTraps).run .offline trapInput = .err (.trap .unreachableCodeReached) :=
  ⟨rfl, rfl, rfl⟩

end TdsWasm
