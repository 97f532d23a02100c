import Mathlib.Algebra.Order.BigOperators.Group.Finset
import TdsWasm.HostSteps
import TdsWasm.LibClock

/-! A run with a clock. Time passes in guest code, in HTTP requests and in the sleeps of the retry loop. The epoch
counter advances by itself, and stops guest code only, at the checks that the engine has put into it. All times
are nanoseconds since `Runtime::run` has set the deadline. -/

set_option autoImplicit false

namespace TdsWasm

/-! ### Epochs -/

/-- How often the epoch counter advances, in milliseconds. -/
def epochTick : UInt64 := 10

def nanosPerMilli : Nat := 1000000

/-- The deadline of a run, in ticks from now. -/
def Limits.ticks (limits : Limits) : UInt64 := max (limits.wallClockMs / epochTick) 1

/-- The wall-clock budget, rounded up to whole ticks. -/
def Limits.budget (limits : Limits) : Nat :=
  max ((limits.wallClockMs.toNat + epochTick.toNat - 1) / epochTick.toNat) 1 * (epochTick.toNat * nanosPerMilli)

/-- The thread that advances the epoch counter, with the time since its last tick when the deadline is set. -/
structure Ticker where
  phase : Nat
  phase_lt : phase < epochTick.toNat * nanosPerMilli

namespace Ticker

variable (ticker : Ticker) (limits : Limits)

/-- How far the counter has advanced since the deadline was set. -/
def epoch (now : Nat) : Nat := (ticker.phase + now) / (epochTick.toNat * nanosPerMilli)

/-- An epoch check at this time stops the guest. -/
def expired (now : Nat) : Bool := limits.ticks.toNat ≤ ticker.epoch now

end Ticker

theorem Limits.toNat_ticks (limits : Limits) :
    limits.ticks.toNat = max (limits.wallClockMs.toNat / epochTick.toNat) 1 := by
  show (if limits.wallClockMs / epochTick ≤ 1 then (1 : UInt64) else limits.wallClockMs / epochTick).toNat = _
  have hdiv : (limits.wallClockMs / epochTick).toNat = limits.wallClockMs.toNat / epochTick.toNat :=
    UInt64.toNat_div _ _
  have hone : (1 : UInt64).toNat = 1 := rfl
  split_ifs with hle
  · have hnat := UInt64.le_iff_toNat_le.mp hle
    rw [hdiv, hone] at hnat
    exact (Nat.max_eq_right hnat).symm
  · rw [UInt64.not_le, UInt64.lt_iff_toNat_lt, hdiv, hone] at hle
    rw [hdiv]
    exact (Nat.max_eq_left hle.le).symm

/-- The deadline does not come after the budget. -/
theorem Ticker.expired_of_budget_le (ticker : Ticker) {limits : Limits} {now : Nat} (h : limits.budget ≤ now) :
    ticker.expired limits now = true := by
  have htick : 0 < epochTick.toNat * nanosPerMilli := by decide
  have hwall : limits.wallClockMs.toNat / epochTick.toNat ≤
      (limits.wallClockMs.toNat + epochTick.toNat - 1) / epochTick.toNat := by
    apply Nat.div_le_div_right
    have hten : epochTick.toNat = 10 := rfl
    omega
  apply decide_eq_true
  rw [epoch, Nat.le_div_iff_mul_le htick, Limits.toNat_ticks]
  calc max (limits.wallClockMs.toNat / epochTick.toNat) 1 * (epochTick.toNat * nanosPerMilli)
      ≤ limits.budget := Nat.mul_le_mul_right _ (max_le_max_right 1 hwall)
    _ ≤ now := h
    _ ≤ ticker.phase + now := Nat.le_add_left _ _

/-! ### Durations -/

/-- How long the world takes: for the requests of a send that is begun after a record, the one that the send is given
and those by which its redirects are followed, and beyond what has been asked for in a sleep. -/
structure Timing where
  request : History → Nat → Nat
  oversleep : History → Nat

namespace Timing

variable (timing : Timing)

/-- When a send comes to its request of this number, counted from its begin. -/
def reached (past : History) (number : Nat) : Nat := ∑ i ∈ Finset.range number, timing.request past i

theorem reached_mono (past : History) {first second : Nat} (hle : first ≤ second) :
    timing.reached past first ≤ timing.reached past second :=
  Finset.sum_le_sum_of_subset (Finset.range_mono hle)

/-- How long an entry of the record has taken. -/
def pace : Pace HostEvent Nat := fun past event =>
  match event with
  | .get _ _ => timing.request past 0
  | .model (.send _ exchange) => timing.reached past (Exchange.methods .post exchange.hops).length
  | .model (.sleep milliseconds) => milliseconds * nanosPerMilli + timing.oversleep past
  | .completed _ _ => 0
  | .invoked _ _ => 0

/-- When the requests begin that an entry has put on the wire for the model. -/
def onsets : History → HostEvent → List Nat := fun past event =>
  match event with
  | .model (.send _ exchange) => (List.range (Exchange.methods .post exchange.hops).length).map (timing.reached past)
  | _ => []

end Timing

/-! ### Runs -/

/-- Guest code between two host functions: how long it takes up to the next call, and when it goes through the
epoch checks on its way. -/
structure Stretch where
  length : Nat
  checks : List Nat
  checks_le : ∀ check ∈ checks, check ≤ length
  move : GuestMove

/-- A host with a clock, and the times at which requests of `complete` have begun. -/
structure TimedRun where
  host : HostRun
  now : Nat
  stopped : Bool
  sends : List Nat

namespace TimedRun

/-- A run whose deadline has just been set. -/
def start (policy : Policy) (llm : LlmProvider) (tools : ToolBox) : TimedRun := ⟨.start policy llm tools, 0, false, []⟩

variable (platform : Platform) (timing : Timing) (ticker : Ticker) (run : TimedRun) (stretch : Stretch)

/-- The guest gets to the end of the stretch. -/
def passes : Bool :=
  !run.stopped && stretch.checks.all fun check => !ticker.expired run.host.data.policy.limits (run.now + check)

/-- When the guest calls the host, if it gets there. -/
def called : Nat := run.now + stretch.length

/-- What a call of the host adds to the record. -/
def events : List HostEvent :=
  (run.host.step platform stretch.move).1.history.drop run.host.history.length

/-- The times at which the call begins requests to the model. -/
def begins : List Nat :=
  if run.passes ticker stretch then
    timing.pace.begun timing.onsets run.host.history (run.called stretch) (run.events platform stretch)
  else []

/-- The guest runs until it is stopped or calls the host, which is not interrupted. -/
def step : TimedRun × Option HostReply :=
  if run.passes ticker stretch then
    let (host, reply) := run.host.step platform stretch.move
    (⟨host, run.called stretch + timing.pace.lasts run.host.history (run.events platform stretch), false,
      run.sends ++ run.begins platform timing ticker stretch⟩, some reply)
  else ({ run with stopped := true }, none)

def machine : Machine TimedRun Stretch (Option HostReply) := ⟨step platform timing ticker⟩

variable {run stretch}

theorem step_of_passes (h : run.passes ticker stretch = true) :
    (run.step platform timing ticker stretch).1 =
      ⟨(run.host.step platform stretch.move).1,
        run.called stretch + timing.pace.lasts run.host.history (run.events platform stretch), false,
        run.sends ++ run.begins platform timing ticker stretch⟩ := by
  rw [step, if_pos h]

theorem step_of_stopped (h : ¬ run.passes ticker stretch = true) :
    (run.step platform timing ticker stretch).1 = { run with stopped := true } := by
  rw [step, if_neg h]

variable (run stretch)

/-- The requests of a run are those that its calls have begun. -/
theorem sends_step : (run.step platform timing ticker stretch).1.sends =
    run.sends ++ run.begins platform timing ticker stretch := by
  by_cases h : run.passes ticker stretch = true
  · rw [step_of_passes platform timing ticker h]
  · rw [step_of_stopped platform timing ticker h, begins, if_neg h, List.append_nil]

theorem sends_run (stretches : List Stretch) : ((machine platform timing ticker).run run stretches).sends =
    run.sends ++ ((machine platform timing ticker).moments run stretches).flatMap fun moment =>
      moment.before.begins platform timing ticker moment.input := by
  induction stretches generalizing run with
  | nil => exact (List.append_nil _).symm
  | cons stretch rest ih =>
      show ((machine platform timing ticker).run (run.step platform timing ticker stretch).1 rest).sends = _
      rw [ih, sends_step, List.append_assoc]
      rfl

theorem run_of_stopped (h : run.stopped = true) (stretches : List Stretch) :
    ((machine platform timing ticker).run run stretches).host = run.host := by
  induction stretches generalizing run with
  | nil => rfl
  | cons stretch rest ih =>
      have hstop : ¬ run.passes ticker stretch = true := by simp [passes, h]
      show ((machine platform timing ticker).run (run.step platform timing ticker stretch).1 rest).host = _
      rw [step_of_stopped platform timing ticker hstop]
      exact ih _ rfl

/-- Without its clock, a timed run is a run: the moves are those of its stretches, until it is stopped. -/
theorem host_run (stretches : List Stretch) : ∃ moves, moves <+: stretches.map Stretch.move ∧
    ((machine platform timing ticker).run run stretches).host =
      (HostRun.machine platform).run run.host moves := by
  induction stretches generalizing run with
  | nil => exact ⟨[], List.prefix_rfl, rfl⟩
  | cons stretch rest ih =>
      by_cases hpasses : run.passes ticker stretch = true
      · obtain ⟨moves, hmoves, hhost⟩ := ih (run.step platform timing ticker stretch).1
        refine ⟨stretch.move :: moves, ?_, hhost.trans ?_⟩
        · rw [List.map_cons, List.cons_prefix_cons]
          exact ⟨rfl, hmoves⟩
        · rw [step_of_passes platform timing ticker hpasses]
          rfl
      · refine ⟨[], List.nil_prefix, ?_⟩
        show ((machine platform timing ticker).run (run.step platform timing ticker stretch).1 rest).host = _
        rw [step_of_stopped platform timing ticker hpasses]
        exact run_of_stopped platform timing ticker _ rfl rest

/-- At every moment of a timed run the host is where a run of some moves has left it. -/
theorem host_of_mem {stretches : List Stretch} {moment : Machine.Moment TimedRun Stretch (Option HostReply)}
    (hmem : moment ∈ (machine platform timing ticker).moments run stretches) :
    ∃ moves, moment.before.host = (HostRun.machine platform).run run.host moves := by
  obtain ⟨past, hbefore⟩ := (machine platform timing ticker).before_of_mem hmem
  obtain ⟨moves, _, hhost⟩ := host_run platform timing ticker run past
  exact ⟨moves, hbefore ▸ hhost⟩

end TimedRun

end TdsWasm
