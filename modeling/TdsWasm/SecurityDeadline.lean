import TdsWasm.HostAttempts
import TdsWasm.HostClock
import TdsWasm.SecuritySpend

/-! When model requests are begun. The epoch deadline keeps the guest from calling the host late, but the host is
not interrupted: it sends a request again after every wait that the upstream has asked for. -/

set_option autoImplicit false

namespace TdsWasm

/-! ### One completion -/

namespace AnthropicProvider

variable (provider : AnthropicProvider) (history : History) (http : ModelRequest) (timing : Timing)

/-- The record when the attempt of this number is made. -/
def pastAt (n : Nat) : History := history ++ (provider.doneBefore history http n).map .model

/-- How long the answers of the upstream take that are retried before the attempt of this number, with the redirects
that the client follows and the waits that they call for. -/
def spent (n : Nat) : Nat :=
  ∑ i ∈ Finset.range n,
    (timing.reached (provider.pastAt history http i) ((provider.exchangeAt history http i).hops.length + 1) +
      ((provider.outcomeAt history http i).wait (i + 1) * nanosPerMilli +
        timing.oversleep (provider.pastAt history http i ++ [.model (.send http (provider.exchangeAt history http i))])))

/-- In the time that is left, the upstream lets the client come to the last request of every attempt that it leads to:
the answers before it, the waits between them and the redirects before it do not take longer. -/
def Affordable (left : Nat) : Prop :=
  ∀ n, provider.Attempted history http n →
    provider.spent history http timing n +
      timing.reached (provider.pastAt history http n) (provider.exchangeAt history http n).hops.length ≤ left

/-- When the requests of the attempt of this number begin, the completion being asked for now. -/
def attemptTimes (now n : Nat) : List Nat :=
  (timing.onsets (provider.pastAt history http n) (.model (.send http (provider.exchangeAt history http n)))).map
    (now + provider.spent history http timing n + ·)

/-- When the requests of a completion begin that is asked for now. -/
abbrev sendTimes (now : Nat) (effects : List ModelEffect) : List Nat :=
  timing.pace.begun timing.onsets history now (effects.map .model)

variable {provider history http timing}

theorem doneBefore_succ (n : Nat) : (provider.doneBefore history http (n + 1)).map HostEvent.model =
    (provider.doneBefore history http n).map .model ++ [.model (.send http (provider.exchangeAt history http n)),
      .model (.sleep ((provider.outcomeAt history http n).wait (n + 1)))] := by
  rw [doneBefore, List.map_append]
  rfl

theorem lasts_doneBefore (n : Nat) : timing.pace.lasts history ((provider.doneBefore history http n).map .model) =
    provider.spent history http timing n := by
  induction n with
  | zero => rfl
  | succ n ih =>
      rw [doneBefore_succ, Pace.lasts_append, ih, spent, spent, Finset.sum_range_succ, Pace.lasts, Pace.lasts,
        Pace.lasts, add_zero, ← Exchange.length_methods .post]
      rfl

theorem sendTimes_doneBefore (now n : Nat) : sendTimes history timing now (provider.doneBefore history http n) =
    (List.range n).flatMap (provider.attemptTimes history http timing now) := by
  induction n with
  | zero => rfl
  | succ n ih =>
      unfold sendTimes at ih ⊢
      rw [doneBefore_succ, Pace.begun_append, ih, lasts_doneBefore, List.range_succ, List.flatMap_append,
        List.flatMap_singleton]
      apply congrArg
      exact List.append_nil _

/-- The requests of a completion begin at its attempts, one after the other. -/
theorem sendTimes_complete {platform : Platform} {request : LlmRequest} {n : Nat} (now : Nat)
    (hattempted : provider.Attempted history (provider.httpRequest request) n)
    (hlast : n < provider.config.maxRetries.toNat →
      ¬ (provider.outcomeAt history (provider.httpRequest request) n).Transient) :
    sendTimes history timing now (provider.complete platform history request).2 =
      (List.range (n + 1)).flatMap (provider.attemptTimes history (provider.httpRequest request) timing now) := by
  have hdone := @sendTimes_doneBefore provider history (provider.httpRequest request) timing now n
  unfold sendTimes at hdone ⊢
  rw [complete, completeLoop_concluded hattempted hlast, List.map_append, Pace.begun_append, hdone, lasts_doneBefore,
    List.range_succ, List.flatMap_append, List.flatMap_singleton]
  apply congrArg
  exact List.append_nil _

theorem mem_attemptTimes {now n time : Nat} : time ∈ provider.attemptTimes history http timing now n ↔
    ∃ number ≤ (provider.exchangeAt history http n).hops.length, time =
      now + provider.spent history http timing n + timing.reached (provider.pastAt history http n) number := by
  rw [attemptTimes, Timing.onsets, Exchange.length_methods, List.map_map, List.mem_map]
  constructor
  · rintro ⟨number, hmem, rfl⟩
    exact ⟨number, Nat.le_of_lt_succ (List.mem_range.mp hmem), rfl⟩
  · rintro ⟨number, hle, rfl⟩
    exact ⟨number, List.mem_range.mpr (Nat.lt_succ_of_le hle), rfl⟩

/-- A completion begins its requests by some time exactly when it is asked for by then, and the upstream leaves it the
time. -/
theorem sendTimes_le_iff (platform : Platform) (request : LlmRequest) (now bound : Nat) :
    (∀ time ∈ sendTimes history timing now (provider.complete platform history request).2, time ≤ bound) ↔
      now ≤ bound ∧ provider.Affordable history (provider.httpRequest request) timing (bound - now) := by
  obtain ⟨last, hattempted, hlast⟩ := exists_last_attempt provider history (provider.httpRequest request)
  rw [sendTimes_complete now hattempted hlast, List.forall_mem_flatMap]
  constructor
  · intro h
    have hreach : ∀ n, provider.Attempted history (provider.httpRequest request) n → ∀ number,
        number ≤ (provider.exchangeAt history (provider.httpRequest request) n).hops.length →
        now + provider.spent history (provider.httpRequest request) timing n +
          timing.reached (provider.pastAt history (provider.httpRequest request) n) number ≤ bound :=
      fun n hn number hle => h n (List.mem_range.mpr (Nat.lt_succ_of_le (hn.le_last hlast))) _
        (mem_attemptTimes.mpr ⟨number, hle, rfl⟩)
    have hfirst := hreach 0 ⟨Nat.zero_le _, nofun⟩ 0 (Nat.zero_le _)
    refine ⟨by omega, fun n hn => ?_⟩
    have hn := hreach n hn _ le_rfl
    omega
  · rintro ⟨hnow, hafford⟩ n hmem time htime
    obtain ⟨number, hle, rfl⟩ := mem_attemptTimes.mp htime
    have hn := hafford n (hattempted.of_le (Nat.le_of_lt_succ (List.mem_range.mp hmem)))
    have hreached := timing.reached_mono (provider.pastAt history (provider.httpRequest request) n) hle
    omega

end AnthropicProvider

/-! ### One call -/

/-- The completion that a move asks for, if the host takes it up. -/
def HostRun.requested (platform : Platform) (run : HostRun) (move : GuestMove) : Option LlmRequest :=
  match run.receive move with
  | some (.request name body) =>
      if name = Cap.llmComplete ∧ run.data.llmCalls < run.data.policy.limits.maxSteps then
        (platform.codec.fromSlice "LlmRequest" LlmRequest.decode body).toOption
      else none
  | _ => none

theorem HostRun.requested_eq_some {platform : Platform} {run : HostRun} {move : GuestMove} {request : LlmRequest} :
    run.requested platform move = some request ↔ ∃ body, run.receive move = some (.request Cap.llmComplete body) ∧
      run.data.llmCalls < run.data.policy.limits.maxSteps ∧
      platform.codec.fromSlice "LlmRequest" LlmRequest.decode body = .ok request := by
  unfold requested
  constructor
  · intro h
    split at h
    · rename_i name body hreceive
      split_ifs at h with hturn
      obtain ⟨rfl, hturns⟩ := hturn
      cases hread : platform.codec.fromSlice "LlmRequest" LlmRequest.decode body with
      | error e =>
          rw [hread] at h
          cases h
      | ok read =>
          rw [hread] at h
          cases h
          exact ⟨body, hreceive, hturns, hread⟩
    · cases h
  · rintro ⟨body, hreceive, hturns, hread⟩
    simp only [hreceive, true_and, if_pos hturns, hread]
    rfl

namespace TimedRun

variable (platform : Platform) (timing : Timing) (ticker : Ticker) (run : TimedRun) (stretch : Stretch)

/-- What a call adds to the record: the completion that it asks for, or nothing that is sent to the model. -/
theorem events_cases :
    (∃ request, run.host.requested platform stretch.move = some request ∧ run.events platform stretch =
      (run.host.data.llm.complete run.host.history request).2.map .model ++
        [.completed request (run.host.data.llm.complete run.host.history request).1]) ∨
    run.host.requested platform stretch.move = none ∧
      ∀ event ∈ run.events platform stretch, ∀ past, timing.onsets past event = [] := by
  have hmoved := HostRun.step_moved platform run.host stretch.move
  change HostRun.Moved platform run.host stretch.move (run.host.step platform stretch.move).1 at hmoved
  have hnone : (∀ request, run.host.requested platform stretch.move ≠ some request) →
      run.host.requested platform stretch.move = none := Option.eq_none_iff_forall_ne_some.mpr
  unfold events
  generalize (run.host.step platform stretch.move).1 = next at hmoved ⊢
  cases hmoved with
  | quiet pending logs hreceive =>
      refine Or.inr ⟨hnone fun request h => ?_, ?_⟩
      · obtain ⟨body, hreceived, _⟩ := HostRun.requested_eq_some.mp h
        exact hreceive _ _ hreceived
      · rw [List.drop_length]
        exact nofun
  | request name body hreceive state events pending hhandled =>
      rw [List.drop_left]
      cases hhandled with
      | quiet name hinvoke hcomplete =>
          refine Or.inr ⟨hnone fun request h => ?_, nofun⟩
          obtain ⟨body', hreceived, hturns, hread⟩ := HostRun.requested_eq_some.mp h
          cases hreceive.symm.trans hreceived
          exact hcomplete rfl hturns request hread
      | invoked req hread =>
          refine Or.inr ⟨hnone fun request h => ?_, ?_⟩
          · obtain ⟨body', hreceived, _⟩ := HostRun.requested_eq_some.mp h
            have hname := hreceive.symm.trans hreceived
            simp only [Option.some.injEq, Received.request.injEq] at hname
            exact absurd hname.1 (by decide)
          · intro event hmem
            rw [List.mem_append, List.mem_singleton] at hmem
            rcases hmem with hmem | rfl
            · obtain ⟨url, exchange, rfl⟩ := ToolBox.get_of_invoke platform _ _ _ _ event hmem
              exact fun _ => rfl
            · exact fun _ => rfl
      | completed req hturns hread =>
          exact Or.inl ⟨req, HostRun.requested_eq_some.mpr ⟨body, hreceive, hturns, hread⟩, rfl⟩

/-- The guest and the upstream leave a completion its time. Guest code that would ask for it after the budget goes
through an epoch check after the deadline, and a guest that is not stopped asks for it early enough for the upstream:
what is left of the budget covers the answers that are retried, the waits after them and the redirects. -/
structure InTime (provider : AnthropicProvider) (request : LlmRequest) : Prop where
  asked : run.host.data.policy.limits.budget < run.called stretch →
    ∃ check ∈ stretch.checks, ticker.expired run.host.data.policy.limits (run.now + check) = true
  afforded : (∀ check ∈ stretch.checks, ticker.expired run.host.data.policy.limits (run.now + check) = false) →
    provider.Affordable run.host.history (provider.httpRequest request) timing
      (run.host.data.policy.limits.budget - run.called stretch)

variable {platform timing ticker run stretch}

theorem passes_iff : run.passes ticker stretch = true ↔ run.stopped = false ∧ ∀ check ∈ stretch.checks,
    ticker.expired run.host.data.policy.limits (run.now + check) = false := by
  unfold passes
  rw [Bool.and_eq_true, List.all_eq_true]
  simp only [Bool.not_eq_true']

theorem begins_of_requested {provider : AnthropicProvider} {request : LlmRequest}
    (hllm : run.host.data.llm = provider.toProvider platform) (hpasses : run.passes ticker stretch = true)
    (hrequested : run.host.requested platform stretch.move = some request) :
    run.begins platform timing ticker stretch = AnthropicProvider.sendTimes run.host.history timing
      (run.called stretch) (provider.complete platform run.host.history request).2 := by
  rcases events_cases platform timing run stretch with ⟨request', hrequested', hevents⟩ | ⟨hnone, _⟩
  · cases hrequested.symm.trans hrequested'
    have hcompleted : ∀ answer, ∀ event ∈ [HostEvent.completed request answer], ∀ past,
        timing.onsets past event = [] := by
      intro answer event hmem past
      rw [List.mem_singleton.mp hmem]
      rfl
    rw [begins, if_pos hpasses, hevents, hllm, Pace.begun_append, Pace.begun_of_none _ (hcompleted _),
      List.append_nil]
    rfl
  · cases hrequested.symm.trans hnone

theorem begins_of_not_requested (hrequested : run.host.requested platform stretch.move = none) :
    run.begins platform timing ticker stretch = [] := by
  rcases events_cases platform timing run stretch with ⟨request, hsome, _⟩ | ⟨_, hquiet⟩
  · cases hrequested.symm.trans hsome
  · rw [begins, Pace.begun_of_none _ hquiet, ite_self]

variable (platform timing ticker run stretch)

/-- A call begins its requests within the budget exactly when the completion that it asks for is left its time. -/
theorem begins_le_iff {provider : AnthropicProvider} (hllm : run.host.data.llm = provider.toProvider platform) :
    (∀ time ∈ run.begins platform timing ticker stretch, time ≤ run.host.data.policy.limits.budget) ↔
      ∀ request, run.stopped = false → run.host.requested platform stretch.move = some request →
        run.InTime timing ticker stretch provider request := by
  cases hrequested : run.host.requested platform stretch.move with
  | none =>
      rw [begins_of_not_requested hrequested]
      exact ⟨fun _ _ _ => nofun, fun _ => nofun⟩
  | some request =>
      by_cases hpasses : run.passes ticker stretch = true
      · obtain ⟨hrunning, hchecks⟩ := passes_iff.mp hpasses
        rw [begins_of_requested hllm hpasses hrequested, AnthropicProvider.sendTimes_le_iff]
        constructor
        · rintro ⟨hcalled, hafford⟩ request' _ hsame
          cases hsame
          exact ⟨fun hlate => absurd hcalled (Nat.not_le.mpr hlate), fun _ => hafford⟩
        · intro h
          obtain ⟨hasked, hafford⟩ := h request hrunning rfl
          refine ⟨Nat.not_lt.mp fun hlate => ?_, hafford hchecks⟩
          obtain ⟨check, hmem, hexpired⟩ := hasked hlate
          rw [hchecks check hmem] at hexpired
          cases hexpired
      · rw [begins, if_neg hpasses]
        refine ⟨fun _ request' hrunning _ => ?_, fun _ => nofun⟩
        -- a guest that has not been stopped before is stopped by one of its checks
        have hstopped : ¬ ∀ check ∈ stretch.checks,
            ticker.expired run.host.data.policy.limits (run.now + check) = false := fun hchecks =>
          hpasses (passes_iff.mpr ⟨hrunning, hchecks⟩)
        refine ⟨fun _ => ?_, fun hchecks => absurd hchecks hstopped⟩
        simpa only [not_forall, Bool.not_eq_false, exists_prop] using hstopped

end TimedRun

/-! ### Runs -/

/-- Every epoch check from the budget on stops the guest. A run begins its model requests within the budget exactly when
every completion that its guest asks for is left its time: the guest does not get past the budget without an epoch
check, and the upstream takes no longer for what comes before a request than is left of the budget. -/
theorem sends_within_budget_iff (platform : Platform) (policy : Policy) (provider : AnthropicProvider)
    (tools : ToolBox) (timing : Timing) (ticker : Ticker) (stretches : List Stretch) :
    let machine := TimedRun.machine platform timing ticker
    let start := TimedRun.start policy (provider.toProvider platform) tools
    (∀ now, policy.limits.budget ≤ now → ticker.expired policy.limits now = true) ∧
      ((∀ time ∈ (machine.run start stretches).sends, time ≤ policy.limits.budget) ↔
        ∀ moment ∈ machine.moments start stretches, ∀ request, moment.before.stopped = false →
          moment.before.host.requested platform moment.input.move = some request →
          moment.before.InTime timing ticker moment.input provider request) := by
  intro machine start
  refine ⟨fun now => ticker.expired_of_budget_le, ?_⟩
  have hcounted : ∀ moment ∈ machine.moments start stretches,
      Counted policy (provider.toProvider platform) moment.before.host := by
    intro moment hmem
    obtain ⟨moves, hhost⟩ := TimedRun.host_of_mem platform timing ticker start hmem
    rw [hhost]
    exact counted_run platform policy (provider.toProvider platform) tools moves
  have hsends : (machine.run start stretches).sends =
      (machine.moments start stretches).flatMap fun moment =>
        moment.before.begins platform timing ticker moment.input :=
    (TimedRun.sends_run platform timing ticker start stretches).trans (List.nil_append _)
  rw [hsends, List.forall_mem_flatMap]
  refine forall₂_congr fun moment hmem => ?_
  rw [← (hcounted moment hmem).policy_eq]
  exact moment.before.begins_le_iff platform timing ticker moment.input (hcounted moment hmem).llm_eq

/-- An endpoint that is unavailable and asks to be tried again after an hour. -/
def busyEndpoint : HttpClient ModelRequest defaultRedirects :=
  .constant ⟨[], by decide, .ok ⟨503, [("retry-after", Text.utf8 "3600")], [], none, ""⟩⟩

def busyPlatform : Platform :=
  .scripted ⟨"https", some "example.com", "https://example.com/"⟩ .unreachable busyEndpoint

/-- A guest that asks for a completion at once, right after an epoch check. -/
def promptStretch : Stretch :=
  ⟨0, [0], by decide, .request Cap.llmComplete (Text.utf8 "\x7b\"messages\":[]\x7d")⟩

/-- The second request goes out an hour after the deadline was set, for two minutes of budget. -/
theorem sends_after_budget_busy :
    Policy.default.validate busyPlatform = .ok () ∧
      AnthropicProvider.new busyPlatform Policy.default.llm = .ok ⟨.default, "key", busyEndpoint⟩ ∧
      ¬ ∀ time ∈ ((TimedRun.machine busyPlatform ⟨fun _ _ => 0, fun _ => 0⟩ ⟨0, by decide⟩).run
        (TimedRun.start .default (AnthropicProvider.toProvider busyPlatform ⟨.default, "key", busyEndpoint⟩)
          ⟨.default, .unreachable, .empty⟩) [promptStretch]).sends,
        time ≤ Policy.default.limits.budget :=
  ⟨rfl, rfl, by decide +kernel⟩

end TdsWasm
