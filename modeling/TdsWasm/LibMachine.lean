import Mathlib.Data.List.Induction

/-! Deterministic machines that take an input, move and give an output; their finite runs, and the
induction rules for what holds along a run. -/

set_option autoImplicit false

structure Machine (σ ι ω : Type) where
  step : σ → ι → σ × ω

namespace Machine

/-- One step of a run with the state on either side of it. -/
structure Moment (σ ι ω : Type) where
  before : σ
  input : ι
  output : ω
  after : σ

variable {σ ι ω : Type} (machine : Machine σ ι ω)

def moment (state : σ) (input : ι) : Moment σ ι ω :=
  ⟨state, input, (machine.step state input).2, (machine.step state input).1⟩

def run (state : σ) : List ι → σ
  | [] => state
  | input :: rest => run (machine.step state input).1 rest

def moments (state : σ) : List ι → List (Moment σ ι ω)
  | [] => []
  | input :: rest => machine.moment state input :: moments (machine.step state input).1 rest

@[simp] theorem moment_before (state : σ) (input : ι) :
    (machine.moment state input).before = state := rfl

@[simp] theorem moment_input (state : σ) (input : ι) :
    (machine.moment state input).input = input := rfl

@[simp] theorem moment_output (state : σ) (input : ι) :
    (machine.moment state input).output = (machine.step state input).2 := rfl

@[simp] theorem moment_after (state : σ) (input : ι) :
    (machine.moment state input).after = (machine.step state input).1 := rfl

theorem run_append (state : σ) (first second : List ι) :
    machine.run state (first ++ second) = machine.run (machine.run state first) second := by
  induction first generalizing state with
  | nil => rfl
  | cons input rest ih => exact ih _

theorem moments_append (state : σ) (first second : List ι) :
    machine.moments state (first ++ second) =
      machine.moments state first ++ machine.moments (machine.run state first) second := by
  induction first generalizing state with
  | nil => rfl
  | cons input rest ih => simp only [List.cons_append, moments, run, ih]

/-- A property of the past and the present that every step carries on holds after every run. -/
theorem history_induction {motive : List (Moment σ ι ω) → σ → Prop} {start : σ}
    (hstart : motive [] start)
    (hstep : ∀ past state input, motive past state →
      motive (past ++ [machine.moment state input]) (machine.step state input).1)
    (inputs : List ι) : motive (machine.moments start inputs) (machine.run start inputs) := by
  induction inputs using List.reverseRecOn with
  | nil => exact hstart
  | append_singleton rest input ih =>
      rw [moments_append, run_append]
      exact hstep _ _ input ih

/-- An invariant of the step is an invariant of every run. -/
theorem run_invariant {motive : σ → Prop}
    (hstep : ∀ state input, motive state → motive (machine.step state input).1) {start : σ}
    (hstart : motive start) (inputs : List ι) : motive (machine.run start inputs) :=
  machine.history_induction (motive := fun _ state => motive state) hstart
    (fun _ state input h => hstep state input h) inputs

/-- Every moment of a run is a step from a state that satisfies the invariant. -/
theorem moment_of_mem {motive : σ → Prop}
    (hstep : ∀ state input, motive state → motive (machine.step state input).1) {start : σ}
    (hstart : motive start) {inputs : List ι} {m : Moment σ ι ω}
    (hmem : m ∈ machine.moments start inputs) :
    motive m.before ∧ m = machine.moment m.before m.input := by
  induction inputs generalizing start with
  | nil => simp [moments] at hmem
  | cons input rest ih =>
      rcases List.mem_cons.mp hmem with rfl | hmem
      · exact ⟨hstart, rfl⟩
      · exact ih (hstep start input hstart) hmem

/-- Every moment of a run starts where a run of fewer inputs ends. -/
theorem before_of_mem {start : σ} {inputs : List ι} {m : Moment σ ι ω} (hmem : m ∈ machine.moments start inputs) :
    ∃ past, m.before = machine.run start past := by
  induction inputs generalizing start with
  | nil => simp [moments] at hmem
  | cons input rest ih =>
      rcases List.mem_cons.mp hmem with rfl | hmem
      · exact ⟨[], rfl⟩
      · obtain ⟨past, hbefore⟩ := ih hmem
        exact ⟨input :: past, hbefore⟩

end Machine
