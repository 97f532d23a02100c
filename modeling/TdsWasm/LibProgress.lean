import TdsWasm.LibMachine
import Mathlib.Order.Nat

/-! Machines that run forever, under a schedule that says which input comes when. What the machine is led to when an
input keeps coming. -/

set_option autoImplicit false

namespace Machine

variable {σ ι ω : Type} (machine : Machine σ ι ω) (start : σ) (schedule : Nat → ι)

/-- The state at each time. -/
def path : Nat → σ
  | 0 => start
  | time + 1 => (machine.step (path time) (schedule time)).1

/-- The inputs before a time. -/
def inputsUntil (schedule : Nat → ι) (time : Nat) : List ι := (List.range time).map schedule

/-- Up to any time it is a finite run. -/
theorem path_eq_run (time : Nat) :
    machine.path start schedule time = machine.run start (inputsUntil schedule time) := by
  induction time with
  | zero => rfl
  | succ time ih =>
      unfold inputsUntil at ih ⊢
      rw [List.range_succ, List.map_append, run_append, ← ih]
      rfl

/-- The input keeps coming. -/
def Recurs (schedule : Nat → ι) (input : ι) : Prop := ∀ time, ∃ later, time ≤ later ∧ schedule later = input

/-- What every step keeps, it keeps forever. -/
theorem path_keeps {p : σ → Prop} (hstep : ∀ state input, p state → p (machine.step state input).1) {time later : Nat}
    (hle : time ≤ later) (h : p (machine.path start schedule time)) : p (machine.path start schedule later) := by
  induction later, hle using Nat.le_induction with
  | base => exact h
  | succ later _ ih => exact hstep _ _ ih

/-- Whenever the one holds, the other holds then or later. -/
def LeadsTo (p q : σ → Prop) : Prop :=
  ∀ time, p (machine.path start schedule time) → ∃ later, time ≤ later ∧ q (machine.path start schedule later)

variable {machine start schedule}

namespace LeadsTo

variable {p q r : σ → Prop}

theorem of_imp (h : ∀ state, p state → q state) : machine.LeadsTo start schedule p q :=
  fun time hp => ⟨time, Nat.le_refl time, h _ hp⟩

theorem trans (hfirst : machine.LeadsTo start schedule p q) (hsecond : machine.LeadsTo start schedule q r) :
    machine.LeadsTo start schedule p r := by
  intro time hp
  obtain ⟨middle, hmiddle, hq⟩ := hfirst time hp
  obtain ⟨later, hlater, hr⟩ := hsecond middle hq
  exact ⟨later, hmiddle.trans hlater, hr⟩

theorem or {p' : σ → Prop} (hp : machine.LeadsTo start schedule p q) (hp' : machine.LeadsTo start schedule p' q) :
    machine.LeadsTo start schedule (fun state => p state ∨ p' state) q :=
  fun time h => h.elim (hp time) (hp' time)

theorem of_exists {β : Type} {p : β → σ → Prop} (h : ∀ b, machine.LeadsTo start schedule (p b) q) :
    machine.LeadsTo start schedule (fun state => ∃ b, p b state) q :=
  fun time ⟨b, hp⟩ => h b time hp

/-- What holds until an input comes, and makes that input do something, comes to it when the input keeps coming. -/
theorem of_recurs {input : ι} (hrecurs : Recurs schedule input)
    (hwaits : ∀ state other, p state → p (machine.step state other).1 ∨ q (machine.step state other).1)
    (hdoes : ∀ state, p state → q (machine.step state input).1) : machine.LeadsTo start schedule p q := by
  intro time hp
  obtain ⟨later, hle, hinput⟩ := hrecurs time
  -- until the input comes, it is waited for, or the goal has been reached before
  have hwait : ∀ next, time ≤ next → next ≤ later → p (machine.path start schedule next) ∨
      ∃ sooner, time ≤ sooner ∧ q (machine.path start schedule sooner) := by
    intro next hnext
    induction next, hnext using Nat.le_induction with
    | base => exact fun _ => Or.inl hp
    | succ next hnext ih =>
        intro hlater
        rcases ih (Nat.le_of_succ_le hlater) with hstill | hreached
        · rcases hwaits _ (schedule next) hstill with hp | hq
          · exact Or.inl hp
          · exact Or.inr ⟨next + 1, Nat.le_succ_of_le hnext, hq⟩
        · exact Or.inr hreached
  rcases hwait later hle (Nat.le_refl later) with hstill | hreached
  · have hq := hdoes _ hstill
    rw [← hinput] at hq
    exact ⟨later + 1, Nat.le_succ_of_le hle, hq⟩
  · exact hreached

/-- A rank that keeps falling until the goal is reached. -/
theorem of_rank (rank : σ → Nat) (h : ∀ bound, machine.LeadsTo start schedule (fun state => p state ∧ rank state = bound)
    fun state => q state ∨ p state ∧ rank state < bound) : machine.LeadsTo start schedule p q := by
  intro time hp
  generalize hrank : rank (machine.path start schedule time) = bound
  induction bound using Nat.strong_induction_on generalizing time with
  | _ bound ih =>
      obtain ⟨middle, hmiddle, hq | ⟨hstill, hless⟩⟩ := h bound time ⟨hp, hrank⟩
      · exact ⟨middle, hmiddle, hq⟩
      · obtain ⟨later, hlater, hq⟩ := ih _ hless middle hstill rfl
        exact ⟨later, hmiddle.trans hlater, hq⟩

/-- What each of several is led to and keeps, all of them are led to. -/
theorem forall_lt {p : Nat → σ → Prop} (hstep : ∀ n state input, p n state → p n (machine.step state input).1)
    {goal : σ → Prop} {count : Nat} (h : ∀ n, n < count → machine.LeadsTo start schedule goal (p n)) :
    machine.LeadsTo start schedule goal fun state => ∀ n, n < count → p n state := by
  intro time hgoal
  induction count with
  | zero => exact ⟨time, Nat.le_refl time, nofun⟩
  | succ count ih =>
      obtain ⟨middle, hmiddle, hbelow⟩ := ih fun n hn => h n (Nat.lt_succ_of_lt hn)
      obtain ⟨last, hlast, hown⟩ := h count (Nat.lt_succ_self count) time hgoal
      refine ⟨max middle last, hmiddle.trans (Nat.le_max_left _ _), fun n hn => ?_⟩
      rcases Nat.lt_succ_iff_lt_or_eq.mp hn with hlt | rfl
      · exact machine.path_keeps start schedule (hstep n) (Nat.le_max_left _ _) (hbelow n hlt)
      · exact machine.path_keeps start schedule (hstep n) (Nat.le_max_right _ _) hown

end LeadsTo

end Machine
