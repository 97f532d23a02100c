import TdsWasm.HostTicker
import TdsWasm.LibProgress

/-! What holds of a runtime in the service, in whatever order its parties take their steps. Its ticker works as long as
anyone holds the runtime, so that no guest runs without a deadline that comes; and when the last handle is let go the
thread is told to stop and ends before the runtime is gone. -/

set_option autoImplicit false

namespace TdsWasm

/-- The advance that the thread makes before it looks at the flag again. -/
def TickerThread.due : TickerThread → Nat
  | .loading => 0
  | .sleeping => 1
  | .waking => 1
  | .ended => 0

/-- How far the thread is in a round. -/
def TickerThread.steps : TickerThread → Nat
  | .loading => 0
  | .sleeping => 1
  | .waking => 2
  | .ended => 0

theorem TickerThread.steps_le (thread : TickerThread) : thread.steps ≤ 2 := by cases thread <;> decide

namespace Lifetime

variable {life next : Lifetime} {move : LifetimeMove}

/-! ### The invariant -/

structure Sound (life : Lifetime) : Prop where
  held_iff : life.phase = .held ↔ 0 < life.holders
  stop_iff : life.tickerStop = true ↔ life.phase = .joining ∨ life.phase = .dropped
  ended : life.thread = .ended → life.tickerStop = true
  dropped : life.phase = .dropped → life.thread = .ended

/-- The runtime is held, and its ticker works. -/
structure Working (life : Lifetime) : Prop where
  phase : life.phase = .held
  tickerStop : life.tickerStop = false
  thread : life.thread ≠ .ended

theorem Sound.working (h : life.Sound) (hheld : 0 < life.holders) : life.Working := by
  have hphase := h.held_iff.mpr hheld
  have hstop : life.tickerStop ≠ true := fun hstop => by
    rcases h.stop_iff.mp hstop with hjoining | hdropped
    · cases hphase.symm.trans hjoining
    · cases hphase.symm.trans hdropped
  exact ⟨hphase, Bool.eq_false_iff.mpr hstop, fun hended => hstop (h.ended hended)⟩

/-- A working runtime is as it should be as long as anyone holds it. -/
theorem Working.sound (h : life.Working) (hheld : 0 < life.holders) : life.Sound where
  held_iff := iff_of_true h.phase hheld
  stop_iff := by
    rw [h.tickerStop, h.phase]
    exact ⟨nofun, nofun⟩
  ended hended := absurd hended h.thread
  dropped hdropped := by cases h.phase.symm.trans hdropped

theorem Working.letGo (h : life.Working) : life.letGo.Sound := by
  unfold Lifetime.letGo
  split_ifs with hnone
  · constructor
    · exact ⟨nofun, fun hheld => absurd hnone (Nat.pos_iff_ne_zero.mp hheld)⟩
    · show life.tickerStop = true ↔ _
      rw [h.tickerStop]
      exact ⟨nofun, nofun⟩
    · exact fun hended => absurd hended h.thread
    · exact nofun
  · exact h.sound (Nat.pos_of_ne_zero hnone)

section Requests

variable {request : Nat} {own : RequestPhase}

/-- Whoever is there holds the runtime. -/
theorem holders_pos (h : life.requests[request]? = some own) (hholds : own.holds = true) : 0 < life.holders :=
  Nat.add_pos_right _ (List.countP_pos_iff.mpr ⟨own, List.mem_of_getElem? h, hholds⟩)

/-- A request that goes on keeps its handle. -/
theorem holders_setRequest {phase : RequestPhase} (h : life.requests[request]? = some own)
    (hholds : own.holds = true) (hphase : phase.holds = true) :
    (life.setRequest request phase).holders = life.holders := by
  obtain ⟨hlt, hown⟩ := List.getElem?_eq_some_iff.mp h
  have hpos : 0 < life.requests.countP RequestPhase.holds :=
    List.countP_pos_iff.mpr ⟨own, List.mem_of_getElem? h, hholds⟩
  show life.handles + (life.requests.set request phase).countP RequestPhase.holds = _
  rw [List.countP_set hlt, hown, hholds, hphase, if_pos rfl, Nat.sub_add_cancel hpos]
  rfl

end Requests

theorem sound_new (limits : Limits) : (new limits).Sound where
  held_iff := iff_of_true rfl (Nat.lt_succ_self 0)
  stop_iff := ⟨nofun, nofun⟩
  ended := nofun
  dropped := nofun

/-- The ticker, the flag and the dropping aside, a move keeps the invariant if it keeps the handles in use. -/
theorem Sound.of_holders (h : life.Sound) (hthread : next.thread = life.thread)
    (hstop : next.tickerStop = life.tickerStop) (hphase : next.phase = life.phase)
    (hholders : 0 < next.holders ↔ 0 < life.holders) : next.Sound where
  held_iff := by rw [hphase, hholders, h.held_iff]
  stop_iff := by rw [hstop, hphase, h.stop_iff]
  ended := by
    rw [hthread, hstop]
    exact h.ended
  dropped := by
    rw [hthread, hphase]
    exact h.dropped

theorem Sound.moved (h : life.Sound) (hmoved : life.Moved move next) : next.Sound := by
  cases hmoved with
  | idle => exact h
  | load hthread =>
      refine ⟨h.held_iff, h.stop_iff, fun hended => ?_, fun hdropped => ?_⟩
      · by_contra hstop
        simp only [if_neg hstop] at hended
        cases hended
      · cases hthread.symm.trans (h.dropped hdropped)
  | wake hthread => exact ⟨h.held_iff, h.stop_iff, nofun, fun hdropped => by cases hthread.symm.trans (h.dropped hdropped)⟩
  | advance hthread =>
      exact ⟨h.held_iff, h.stop_iff, nofun, fun hdropped => by cases hthread.symm.trans (h.dropped hdropped)⟩
  | clone hhandles =>
      refine h.of_holders rfl rfl rfl (iff_of_true ?_ ?_)
      · exact Nat.add_pos_left (Nat.succ_pos _) _
      · exact Nat.add_pos_left hhandles _
  | accept hhandles =>
      refine h.of_holders rfl rfl rfl (iff_of_true ?_ ?_)
      · exact Nat.add_pos_left hhandles _
      · exact Nat.add_pos_left hhandles _
  | enter request hwaiting => exact h.of_holders rfl rfl rfl (by rw [holders_setRequest hwaiting rfl rfl])
  | interrupt request deadline hrunning => exact h.of_holders rfl rfl rfl (by rw [holders_setRequest hrunning rfl rfl])
  | leave request own hown hholds =>
      have hworking := h.working (holders_pos hown (decide_eq_true hholds))
      exact Working.letGo ⟨hworking.phase, hworking.tickerStop, hworking.thread⟩
  | release handles hhandles =>
      have hworking := h.working (Nat.add_pos_left (by omega) _)
      exact Working.letGo ⟨hworking.phase, hworking.tickerStop, hworking.thread⟩
  | stop hphase =>
      refine ⟨⟨nofun, fun hheld => ?_⟩, iff_of_true rfl (Or.inl rfl), fun _ => rfl, nofun⟩
      cases hphase.symm.trans (h.held_iff.mpr hheld)
  | join hphase hended =>
      refine ⟨⟨nofun, fun hheld => ?_⟩, iff_of_true (h.ended hended) (Or.inr rfl), fun _ => h.ended hended,
        fun _ => hended⟩
      cases hphase.symm.trans (h.held_iff.mpr hheld)

theorem Sound.step (h : life.Sound) (move : LifetimeMove) : (life.step move).Sound := h.moved (life.step_moved move)

theorem Sound.run (h : life.Sound) (moves : List LifetimeMove) : (machine.run life moves).Sound :=
  machine.run_invariant (motive := Sound) (fun _ move h => h.step move) h moves

/-! ### The end of the thread -/

/-- A thread that has been told to stop advances the counter no further than it was about to. -/
theorem stopped_step (hstop : life.tickerStop = true) (move : LifetimeMove) :
    (life.step move).tickerStop = true ∧
      (life.step move).epoch + (life.step move).thread.due = life.epoch + life.thread.due := by
  have hmoved := life.step_moved move
  generalize life.step move = next at hmoved ⊢
  cases hmoved with
  | idle => exact ⟨hstop, rfl⟩
  | load hthread =>
      refine ⟨hstop, ?_⟩
      rw [hthread, if_pos hstop]
      rfl
  | wake hthread =>
      refine ⟨hstop, ?_⟩
      rw [hthread]
      rfl
  | advance hthread =>
      refine ⟨hstop, ?_⟩
      rw [hthread]
      rfl
  | leave request own hown hholds =>
      rw [letGo_eq]
      exact ⟨hstop, rfl⟩
  | release handles hhandles =>
      rw [letGo_eq]
      exact ⟨hstop, rfl⟩
  | stop hphase => exact ⟨rfl, rfl⟩
  | clone | accept | enter | interrupt | join => exact ⟨hstop, rfl⟩

theorem stopped_run (hstop : life.tickerStop = true) (moves : List LifetimeMove) :
    (machine.run life moves).tickerStop = true ∧
      (machine.run life moves).epoch + (machine.run life moves).thread.due = life.epoch + life.thread.due :=
  machine.run_invariant
    (motive := fun state => state.tickerStop = true ∧ state.epoch + state.thread.due = life.epoch + life.thread.due)
    (fun _ move h => ⟨(stopped_step h.1 move).1, (stopped_step h.1 move).2.trans h.2⟩) ⟨hstop, rfl⟩ moves

/-- A thread that has ended does nothing more. -/
theorem ended_step (hended : life.thread = .ended) (move : LifetimeMove) :
    (life.step move).thread = .ended ∧ (life.step move).epoch = life.epoch := by
  have hmoved := life.step_moved move
  generalize life.step move = next at hmoved ⊢
  cases hmoved with
  | load hthread => cases hthread.symm.trans hended
  | wake hthread => cases hthread.symm.trans hended
  | advance hthread => cases hthread.symm.trans hended
  | leave request own hown hholds =>
      rw [letGo_eq]
      exact ⟨hended, rfl⟩
  | release handles hhandles =>
      rw [letGo_eq]
      exact ⟨hended, rfl⟩
  | idle | clone | accept | enter | interrupt | stop | join => exact ⟨hended, rfl⟩

theorem ended_run (hended : life.thread = .ended) (moves : List LifetimeMove) :
    (machine.run life moves).thread = .ended ∧ (machine.run life moves).epoch = life.epoch :=
  machine.run_invariant (motive := fun state => state.thread = .ended ∧ state.epoch = life.epoch)
    (fun _ move h => ⟨(ended_step h.1 move).1, (ended_step h.1 move).2.trans h.2⟩) ⟨hended, rfl⟩ moves

/-- When nobody holds the runtime, only its thread and its dropping go on. -/
theorem Sound.step_of_unheld (h : life.Sound) (hphase : life.phase ≠ .held) (htick : move ≠ .tick) (hdrop : move ≠ .drop) :
    life.step move = life := by
  have hnone : ¬ 0 < life.holders := fun hheld => hphase (h.held_iff.mpr hheld)
  have hfinished : ∀ {request : Nat} {own : RequestPhase}, life.requests[request]? = some own → own ≠ .finished → False :=
    fun hown hholds => hnone (holders_pos hown (decide_eq_true hholds))
  have hmoved := life.step_moved move
  generalize life.step move = next at hmoved ⊢
  cases hmoved with
  | idle => rfl
  | load | wake | advance => exact absurd rfl htick
  | clone hhandles => exact absurd (Nat.add_pos_left hhandles _) hnone
  | accept hhandles => exact absurd (Nat.add_pos_left hhandles _) hnone
  | enter request hwaiting => exact (hfinished hwaiting nofun).elim
  | interrupt request deadline hrunning => exact (hfinished hrunning nofun).elim
  | leave request own hown hholds => exact (hfinished hown hholds).elim
  | release handles hhandles => exact absurd (Nat.add_pos_left (by omega) _) hnone
  | stop | join => exact absurd rfl hdrop

/-- Nothing moves once the runtime has been dropped. -/
theorem Sound.step_of_dropped (h : life.Sound) (hdropped : life.phase = .dropped) (move : LifetimeMove) :
    life.step move = life := by
  by_cases htick : move = .tick
  · subst htick
    show life.tick = life
    unfold tick
    rw [h.dropped hdropped]
  by_cases hdrop : move = .drop
  · subst hdrop
    show life.drop = life
    unfold drop
    rw [hdropped]
  apply h.step_of_unheld _ htick hdrop
  rw [hdropped]
  exact nofun

theorem Sound.run_of_dropped (h : life.Sound) (hdropped : life.phase = .dropped) (moves : List LifetimeMove) :
    machine.run life moves = life :=
  machine.run_invariant (motive := fun state => state = life)
    (fun state move heq => by
      subst heq
      exact h.step_of_dropped hdropped move) rfl moves

/-- **The runtime and its ticker.** In whatever order the parties take their steps: while anyone holds the runtime its
ticker has not been told to stop and has not ended; a ticker that has been told to stop advances the counter once more
at most, and not at all once it has ended; and a runtime is gone only when its thread has ended and nobody holds it, and
nothing of it moves from then on. -/
theorem ticker_lifetime (limits : Limits) (moves more : List LifetimeMove) :
    let life := machine.run (new limits) moves
    let later := machine.run life more
    (0 < life.holders → life.Working) ∧
    (life.tickerStop = true → later.tickerStop = true ∧ later.epoch ≤ life.epoch + 1) ∧
    (life.thread = .ended → later.thread = .ended ∧ later.epoch = life.epoch) ∧
    (life.phase = .dropped → life.thread = .ended ∧ life.holders = 0 ∧ later = life) := by
  have hsound := (sound_new limits).run moves
  refine ⟨hsound.working, fun hstop => ?_, fun hended => ?_, fun hdropped => ?_⟩
  · obtain ⟨hstill, hepoch⟩ := stopped_run hstop more
    have hdue : (machine.run (new limits) moves).thread.due ≤ 1 := by
      cases (machine.run (new limits) moves).thread <;> decide
    exact ⟨hstill, by omega⟩
  · exact ended_run hended more
  · have hnone : ¬ 0 < (machine.run (new limits) moves).holders := fun hheld => by
      cases hdropped.symm.trans (hsound.held_iff.mpr hheld)
    exact ⟨hsound.dropped hdropped, Nat.eq_zero_of_not_pos hnone, hsound.run_of_dropped hdropped more⟩

/-! ### Deadlines -/

/-- What a move does to one request. -/
inductive Turned (life : Lifetime) (request : Nat) : LifetimeMove → RequestPhase → RequestPhase → Prop where
  | stay (move : LifetimeMove) (own : RequestPhase) : Turned life request move own own
  | enter : Turned life request (.enter request) .waiting (.running (life.epoch + life.limits.ticks.toNat))
  | interrupt (deadline : Nat) (hdue : deadline ≤ life.epoch) :
      Turned life request (.check request) (.running deadline) .interrupted
  | leave (own : RequestPhase) (hown : own ≠ .finished) : Turned life request (.leave request) own .finished

section Requests

variable {request : Nat} {own : RequestPhase}

theorem getElem?_setRequest (h : life.requests[request]? = some own) (other : Nat) (phase : RequestPhase) :
    (life.setRequest other phase).requests[request]? = some (if other = request then phase else own) := by
  show (life.requests.set other phase)[request]? = _
  rw [List.getElem?_set]
  split_ifs with hsame hlt
  · rfl
  · exact absurd (hsame ▸ (List.getElem?_eq_some_iff.mp h).1) hlt
  · exact h

theorem request_step (h : life.requests[request]? = some own) (move : LifetimeMove) :
    ∃ phase, (life.step move).requests[request]? = some phase ∧ life.Turned request move own phase := by
  have hmoved := life.step_moved move
  generalize life.step move = next at hmoved ⊢
  cases hmoved with
  | idle | load | wake | advance | clone | stop | join => exact ⟨own, h, .stay _ _⟩
  | accept hhandles =>
      refine ⟨own, ?_, .stay _ _⟩
      rw [List.getElem?_append_left (List.getElem?_eq_some_iff.mp h).1]
      exact h
  | enter other hwaiting =>
      refine ⟨_, getElem?_setRequest h other _, ?_⟩
      split_ifs with hsame
      · subst hsame
        cases h.symm.trans hwaiting
        exact .enter
      · exact .stay _ _
  | interrupt other deadline hrunning hdue =>
      refine ⟨_, getElem?_setRequest h other _, ?_⟩
      split_ifs with hsame
      · subst hsame
        cases h.symm.trans hrunning
        exact .interrupt deadline hdue
      · exact .stay _ _
  | leave other phase hown hholds =>
      rw [letGo_eq]
      refine ⟨_, getElem?_setRequest h other _, ?_⟩
      split_ifs with hsame
      · subst hsame
        cases h.symm.trans hown
        exact .leave own hholds
      · exact .stay _ _
  | release handles hhandles =>
      rw [letGo_eq]
      exact ⟨own, h, .stay _ _⟩

/-- A request whose guest is no longer running. -/
def Stopped (life : Lifetime) (request : Nat) : Prop :=
  life.requests[request]? = some .interrupted ∨ life.requests[request]? = some .finished

/-- A request that is finished stays so. -/
theorem finished_keeps (h : life.requests[request]? = some .finished) (move : LifetimeMove) :
    (life.step move).requests[request]? = some .finished := by
  obtain ⟨phase, hphase, hturned⟩ := request_step h move
  cases hturned with
  | stay => exact hphase
  | leave _ hown => exact absurd rfl hown

theorem stopped_keeps (h : life.Stopped request) (move : LifetimeMove) : (life.step move).Stopped request := by
  rcases h with h | h
  · obtain ⟨phase, hphase, hturned⟩ := request_step h move
    cases hturned with
    | stay => exact Or.inl hphase
    | leave => exact Or.inr hphase
  · exact Or.inr (finished_keeps h move)

/-- A running request keeps its deadline until it stops. -/
theorem running_step {deadline : Nat} (h : life.requests[request]? = some (.running deadline)) (move : LifetimeMove) :
    (life.step move).requests[request]? = some (.running deadline) ∨ (life.step move).Stopped request := by
  obtain ⟨phase, hphase, hturned⟩ := request_step h move
  cases hturned with
  | stay => exact Or.inl hphase
  | interrupt => exact Or.inr (Or.inl hphase)
  | leave => exact Or.inr (Or.inr hphase)

end Requests

/-- All steps of the thread so far. -/
def turns (life : Lifetime) : Nat := 3 * life.epoch + life.thread.steps

/-- Only the thread's own steps count. -/
theorem turns_of_ne (hmove : move ≠ .tick) : (life.step move).turns = life.turns := by
  have hmoved := life.step_moved move
  generalize life.step move = next at hmoved ⊢
  cases hmoved with
  | load | wake | advance => exact absurd rfl hmove
  | leave request own hown hholds =>
      rw [letGo_eq]
      rfl
  | release handles hhandles =>
      rw [letGo_eq]
      rfl
  | idle | clone | accept | enter | interrupt | stop | join => rfl

/-- A ticker that works takes every step for which it has its turn. -/
theorem turns_tick (h : life.Working) : (life.step .tick).turns = life.turns + 1 := by
  obtain ⟨_, hstop, hthread⟩ := h
  show life.tick.turns = life.turns + 1
  unfold tick
  split
  case h_1 hloading =>
    unfold turns
    rw [hloading, hstop]
    rfl
  case h_2 hsleeping =>
    unfold turns
    rw [hsleeping]
    rfl
  case h_3 hwaking =>
    unfold turns
    rw [hwaking]
    show 3 * (life.epoch + 1) = 3 * life.epoch + 2 + 1
    omega
  case h_4 hended => exact absurd hended hthread

theorem turns_step (h : life.Working) (move : LifetimeMove) :
    (life.step move).turns = life.turns + [move].count .tick := by
  by_cases hmove : move = .tick
  · rw [hmove, turns_tick h]
    rfl
  · rw [turns_of_ne hmove, List.count_singleton, if_neg (by simpa using hmove), Nat.add_zero]

/-- While a request runs, the ticker takes every step for which it has its turn. -/
theorem turns_run {request deadline : Nat} (hsound : life.Sound)
    (h : life.requests[request]? = some (.running deadline)) {moves : List LifetimeMove} {last : Nat}
    (hlast : (machine.run life moves).requests[request]? = some (.running last)) :
    last = deadline ∧ (machine.run life moves).turns = life.turns + moves.count .tick := by
  induction moves generalizing life with
  | nil =>
      cases h.symm.trans hlast
      exact ⟨rfl, rfl⟩
  | cons move rest ih =>
      rcases running_step h move with hstill | hstopped
      · obtain ⟨hsame, hturns⟩ := ih (hsound.step move) hstill hlast
        refine ⟨hsame, hturns.trans ?_⟩
        rw [turns_step (hsound.working (holders_pos h rfl)), Nat.add_assoc, ← List.count_append, List.singleton_append]
      · have hkept : (machine.run (life.step move) rest).Stopped request :=
          machine.run_invariant (motive := fun state => state.Stopped request)
            (fun _ other h => stopped_keeps h other) hstopped rest
        rcases hkept with hinterrupted | hfinished
        · cases hlast.symm.trans hinterrupted
        · cases hlast.symm.trans hfinished

/-- An epoch check stops a guest exactly when the deadline has come. -/
theorem check_running {request deadline : Nat} (h : life.requests[request]? = some (.running deadline)) :
    (life.check request).requests[request]? = some .interrupted ↔ deadline ≤ life.epoch := by
  unfold check
  rw [h]
  show (if deadline ≤ life.epoch then life.setRequest request .interrupted else life).requests[request]? = _ ↔ _
  split_ifs with hdue
  · rw [getElem?_setRequest h, if_pos rfl]
    exact iff_of_true rfl hdue
  · rw [h]
    exact iff_of_false nofun hdue

theorem limits_step (life : Lifetime) (move : LifetimeMove) : (life.step move).limits = life.limits := by
  have hmoved := life.step_moved move
  generalize life.step move = next at hmoved ⊢
  cases hmoved with
  | leave request own hown hholds =>
      rw [letGo_eq]
      rfl
  | release => rw [letGo_eq]
  | idle | load | wake | advance | clone | accept | enter | interrupt | stop | join => rfl

theorem limits_run (limits : Limits) (moves : List LifetimeMove) : (machine.run (new limits) moves).limits = limits :=
  machine.run_invariant (motive := fun state => state.limits = limits)
    (fun state move h => (limits_step state move).trans h) rfl moves

/-- **When a guest is interrupted.** Whatever else happens meanwhile, an epoch check stops a guest that is still running
if and only if the ticker thread has had the turns for as many rounds as the wall-clock budget has ticks, those of the
round included that it was in when the deadline was set. -/
theorem check_interrupts_iff (limits : Limits) (before between : List LifetimeMove) (request last : Nat)
    (hwaiting : (machine.run (new limits) before).requests[request]? = some .waiting)
    (hrunning : (machine.run (new limits) (before ++ .enter request :: between)).requests[request]? =
      some (.running last)) :
    ((machine.run (new limits) (before ++ .enter request :: between)).check request).requests[request]? =
        some .interrupted ↔
      3 * limits.ticks.toNat ≤
        (machine.run (new limits) before).thread.steps + between.count .tick := by
  have hsound := (sound_new limits).run before
  have hlimits := limits_run limits before
  rw [Machine.run_append] at hrunning ⊢
  generalize machine.run (new limits) before = life at *
  have henter : life.enter request = life.setRequest request (.running (life.epoch + limits.ticks.toNat)) := by
    unfold enter
    rw [hwaiting, hlimits]
  have hentered : (life.step (.enter request)).requests[request]? =
      some (.running (life.epoch + limits.ticks.toNat)) := by
    show (life.enter request).requests[request]? = _
    rw [henter, getElem?_setRequest hwaiting, if_pos rfl]
  have hstart : (life.step (.enter request)).turns = life.turns := turns_of_ne nofun
  obtain ⟨rfl, hturns⟩ := turns_run (hsound.step _) hentered hrunning
  rw [check_running hrunning]
  rw [hstart] at hturns
  change (machine.run (life.step (.enter request)) between).turns = _ at hturns
  show _ ≤ (machine.run (life.step (.enter request)) between).epoch ↔ _
  have hsteps := TickerThread.steps_le (machine.run (life.step (.enter request)) between).thread
  unfold turns at hturns
  omega

/-- A check that comes after two rounds and before three does not stop a guest of two ticks; after three it does. -/
theorem check_interrupts_two_ticks :
    let limits : Limits := { Limits.default with wallClockMs := 20 }
    ((machine.run (new limits) ([.accept, .tick] ++ .enter 0 :: [.tick, .tick, .tick, .tick, .tick])).check 0).requests[0]? =
      some .interrupted :=
  (check_interrupts_iff { Limits.default with wallClockMs := 20 } [.accept, .tick]
    [.tick, .tick, .tick, .tick, .tick] 0 2 rfl rfl).mpr (by decide)

/-! ### The end of the service -/

section Shutdown

variable {limits : Limits} {schedule : Nat → LifetimeMove}

/-- Under the schedule, everyone who can go on has a turn again: the ticker thread, whoever drops the runtime, and of
these many requests those that wait for a thread, those whose guests run, which go through epoch checks, and those
whose guests have been interrupted, which come to their end. -/
structure Fair (limits : Limits) (schedule : Nat → LifetimeMove) (count : Nat) : Prop where
  tick : Machine.Recurs schedule .tick
  drop : Machine.Recurs schedule .drop
  enter : ∀ request, request < count → Machine.Recurs schedule (.enter request)
  check : ∀ request, request < count → Machine.Recurs schedule (.check request)
  leave : ∀ request, request < count → machine.LeadsTo (new limits) schedule
    (fun life => life.requests[request]? = some .interrupted) fun life => life.requests[request]? = some .finished

/-- A request that runs up to a deadline in a sound runtime. -/
def RunsTo (request deadline : Nat) (life : Lifetime) : Prop :=
  life.Sound ∧ life.requests[request]? = some (.running deadline)

theorem runsTo_step {request deadline : Nat} (h : life.RunsTo request deadline) (move : LifetimeMove) :
    (life.step move).RunsTo request deadline ∨ (life.step move).Stopped request :=
  (running_step h.2 move).imp (fun hstill => ⟨h.1.step move, hstill⟩) id

theorem epoch_le_step (life : Lifetime) (move : LifetimeMove) : life.epoch ≤ (life.step move).epoch := by
  have hmoved := life.step_moved move
  generalize life.step move = next at hmoved ⊢
  cases hmoved with
  | advance => exact Nat.le_succ _
  | leave request own hown hholds =>
      rw [letGo_eq]
      exact Nat.le_refl _
  | release => rw [letGo_eq]
  | idle | load | wake | clone | accept | enter | interrupt | stop | join => exact Nat.le_refl _

/-- The deadline of a running request comes, unless it stops before. -/
theorem deadline_comes (htick : Machine.Recurs schedule .tick) (request deadline : Nat) :
    machine.LeadsTo (new limits) schedule (RunsTo request deadline)
      fun life => life.Stopped request ∨ life.RunsTo request deadline ∧ deadline ≤ life.epoch := by
  apply Machine.LeadsTo.of_rank fun life => 3 * deadline - life.turns
  intro bound
  apply Machine.LeadsTo.of_recurs htick
  · intro life move ⟨hruns, hrank⟩
    rcases runsTo_step hruns move with hstill | hstopped
    · have hturns := turns_step (hruns.1.working (holders_pos hruns.2 rfl)) move
      rcases Nat.lt_or_ge (3 * deadline - (life.step move).turns) bound with hless | hge
      · exact Or.inr (Or.inr ⟨hstill, hless⟩)
      · have hle : 3 * deadline - (life.step move).turns ≤ bound := by omega
        exact Or.inl ⟨hstill, Nat.le_antisymm hle hge⟩
    · exact Or.inr (Or.inl (Or.inl hstopped))
  · intro life ⟨hruns, hrank⟩
    rcases runsTo_step hruns .tick with hstill | hstopped
    · have hturns := turns_tick (hruns.1.working (holders_pos hruns.2 rfl))
      have hsteps := TickerThread.steps_le (life.step .tick).thread
      rcases Nat.lt_or_ge (life.step .tick).epoch deadline with hbefore | hdue
      · refine Or.inr ⟨hstill, ?_⟩
        show 3 * deadline - (life.step .tick).turns < bound
        have hle : (life.step .tick).turns ≤ 3 * (life.step .tick).epoch + 2 := Nat.add_le_add_left hsteps _
        omega
      · exact Or.inl (Or.inr ⟨hstill, hdue⟩)
    · exact Or.inl (Or.inl hstopped)

variable {count : Nat} (hfair : Fair limits schedule count) {request : Nat} (hrequest : request < count)

include hfair hrequest

/-- A guest that runs is interrupted, unless its request is finished before. -/
theorem running_stops (deadline : Nat) :
    machine.LeadsTo (new limits) schedule (RunsTo request deadline) fun life => life.Stopped request := by
  apply (deadline_comes hfair.tick request deadline).trans
  apply Machine.LeadsTo.or (.of_imp fun _ h => h)
  apply Machine.LeadsTo.of_recurs (hfair.check request hrequest)
  · intro life move ⟨hruns, hdue⟩
    exact (runsTo_step hruns move).imp (fun hstill => ⟨hstill, hdue.trans (epoch_le_step life move)⟩) id
  · intro life ⟨hruns, hdue⟩
    exact Or.inl ((check_running hruns.2).mpr hdue)

/-- A request that waits gets its thread, unless it is turned away. -/
theorem waiting_enters : machine.LeadsTo (new limits) schedule
    (fun life => life.Sound ∧ life.requests[request]? = some .waiting)
    fun life => (∃ deadline, life.RunsTo request deadline) ∨ life.Stopped request := by
  apply Machine.LeadsTo.of_recurs (hfair.enter request hrequest)
  · intro life move ⟨hsound, hwaiting⟩
    obtain ⟨phase, hphase, hturned⟩ := request_step hwaiting move
    cases hturned with
    | stay => exact Or.inl ⟨hsound.step move, hphase⟩
    | enter => exact Or.inr (Or.inl ⟨_, hsound.step (.enter request), hphase⟩)
    | leave => exact Or.inr (Or.inr (Or.inr hphase))
  · intro life ⟨hsound, hwaiting⟩
    refine Or.inl ⟨life.epoch + life.limits.ticks.toNat, hsound.step (.enter request), ?_⟩
    show (life.enter request).requests[request]? = _
    unfold enter
    rw [hwaiting]
    exact (getElem?_setRequest hwaiting request _).trans (congrArg some (if_pos rfl))

/-- Every request comes to its end. -/
theorem request_ends : machine.LeadsTo (new limits) schedule
    (fun life => life.Sound ∧ request < life.requests.length) fun life => life.requests[request]? = some .finished := by
  have hstopped : machine.LeadsTo (new limits) schedule (fun life => life.Stopped request)
      fun life => life.requests[request]? = some .finished :=
    (hfair.leave request hrequest).or (.of_imp fun _ h => h)
  have hruns : machine.LeadsTo (new limits) schedule (fun life => ∃ deadline, life.RunsTo request deadline)
      fun life => life.requests[request]? = some .finished :=
    .of_exists fun deadline => (running_stops hfair hrequest deadline).trans hstopped
  have hwaits := (waiting_enters hfair hrequest).trans (hruns.or hstopped)
  apply (Machine.LeadsTo.of_imp _).trans (hwaits.or (hruns.or hstopped))
  intro life ⟨hsound, hlt⟩
  cases hown : life.requests[request] with
  | waiting => exact Or.inl ⟨hsound, hown ▸ List.getElem?_eq_getElem hlt⟩
  | running deadline => exact Or.inr (Or.inl ⟨deadline, hsound, hown ▸ List.getElem?_eq_getElem hlt⟩)
  | interrupted => exact Or.inr (Or.inr (Or.inl (hown ▸ List.getElem?_eq_getElem hlt)))
  | finished => exact Or.inr (Or.inr (Or.inr (hown ▸ List.getElem?_eq_getElem hlt)))

omit hfair hrequest

/-! ### Dropping -/

/-- Without a handle there are no further requests. -/
theorem unhandled_step (hhandles : life.handles = 0) (move : LifetimeMove) :
    (life.step move).handles = 0 ∧ (life.step move).requests.length = life.requests.length := by
  have hmoved := life.step_moved move
  generalize life.step move = next at hmoved ⊢
  cases hmoved with
  | clone hsome => exact absurd hhandles (Nat.pos_iff_ne_zero.mp hsome)
  | accept hsome => exact absurd hhandles (Nat.pos_iff_ne_zero.mp hsome)
  | enter request hwaiting => exact ⟨hhandles, List.length_set⟩
  | interrupt request deadline hrunning => exact ⟨hhandles, List.length_set⟩
  | leave request own hown hholds =>
      rw [letGo_eq]
      exact ⟨hhandles, List.length_set⟩
  | release handles hsome => cases hhandles.symm.trans hsome
  | idle | load | wake | advance | stop | join => exact ⟨hhandles, rfl⟩

/-- What a thread still has to do when it has been told to stop. -/
def remaining : TickerThread → Nat
  | .ended => 0
  | .loading => 1
  | .waking => 2
  | .sleeping => 3

/-- The thread has been told to stop and is waited for. -/
def Joining (life : Lifetime) : Prop := life.Sound ∧ life.phase = .joining

theorem joining_tick (h : life.Joining) :
    (life.step .tick).Joining ∧ remaining (life.step .tick).thread = remaining life.thread - 1 := by
  have hstop : life.tickerStop = true := h.1.stop_iff.mpr (Or.inl h.2)
  refine ⟨⟨h.1.step .tick, ?_⟩, ?_⟩
  · show life.tick.phase = _
    unfold tick
    split <;> exact h.2
  · show remaining life.tick.thread = _
    unfold tick
    split
    case h_1 hthread =>
      rw [hthread, hstop]
      rfl
    case h_2 hthread =>
      rw [hthread]
      rfl
    case h_3 hthread =>
      rw [hthread]
      rfl
    case h_4 hthread =>
      rw [hthread]
      rfl

theorem joining_drop (h : life.Joining) :
    life.step .drop = if life.thread = .ended then { life with phase := .dropped } else life := by
  show life.drop = _
  unfold drop
  rw [h.2]

/-- While the thread is waited for, only its end is of consequence. -/
theorem joining_other (h : life.Joining) (hmove : move ≠ .tick) :
    life.step move = life ∨ (life.step move).Sound ∧ (life.step move).phase = .dropped := by
  by_cases hdrop : move = .drop
  · subst hdrop
    by_cases hended : life.thread = .ended
    · refine Or.inr ⟨h.1.step .drop, ?_⟩
      rw [joining_drop h, if_pos hended]
    · exact Or.inl ((joining_drop h).trans (if_neg hended))
  · refine Or.inl (h.1.step_of_unheld ?_ hmove hdrop)
    rw [h.2]
    exact nofun

/-- A thread that has been told to stop ends. -/
theorem joining_ends (htick : Machine.Recurs schedule .tick) :
    machine.LeadsTo (new limits) schedule Joining
      fun life => (life.Joining ∧ life.thread = .ended) ∨ life.Sound ∧ life.phase = .dropped := by
  apply Machine.LeadsTo.of_rank fun life => remaining life.thread
  intro bound
  apply Machine.LeadsTo.of_recurs htick
  · intro life move ⟨hjoining, hrank⟩
    by_cases hmove : move = .tick
    · subst hmove
      obtain ⟨hstill, hless⟩ := joining_tick hjoining
      rcases Nat.lt_or_ge (remaining (life.step .tick).thread) bound with hbelow | hge
      · exact Or.inr (Or.inr ⟨hstill, hbelow⟩)
      · have hle : remaining (life.step .tick).thread ≤ bound := by omega
        exact Or.inl ⟨hstill, Nat.le_antisymm hle hge⟩
    · rcases joining_other hjoining hmove with hsame | hdropped
      · rw [← hsame] at hjoining hrank
        exact Or.inl ⟨hjoining, hrank⟩
      · exact Or.inr (Or.inl (Or.inr hdropped))
  · intro life ⟨hjoining, hrank⟩
    obtain ⟨hstill, hless⟩ := joining_tick hjoining
    rcases Nat.lt_or_ge (remaining (life.step .tick).thread) bound with hbelow | hge
    · exact Or.inr ⟨hstill, hbelow⟩
    · have hzero : remaining (life.step .tick).thread = 0 := by omega
      refine Or.inl (Or.inl ⟨hstill, ?_⟩)
      show (life.step .tick).thread = .ended
      generalize (life.step .tick).thread = thread at hzero ⊢
      cases thread with
      | ended => rfl
      | loading | waking | sleeping => cases hzero

/-- And then the runtime is gone. -/
theorem joining_dropped (htick : Machine.Recurs schedule .tick) (hdrop : Machine.Recurs schedule .drop) :
    machine.LeadsTo (new limits) schedule Joining fun life => life.Sound ∧ life.phase = .dropped := by
  apply (joining_ends htick).trans
  apply Machine.LeadsTo.or _ (.of_imp fun _ h => h)
  apply Machine.LeadsTo.of_recurs hdrop
  · intro life move ⟨hjoining, hended⟩
    by_cases hmove : move = .tick
    · subst hmove
      exact Or.inl ⟨(joining_tick hjoining).1, (ended_step hended .tick).1⟩
    · rcases joining_other hjoining hmove with hsame | hdropped
      · rw [← hsame] at hjoining hended
        exact Or.inl ⟨hjoining, hended⟩
      · exact Or.inr hdropped
  · intro life ⟨hjoining, hended⟩
    refine ⟨hjoining.1.step .drop, ?_⟩
    show (life.step .drop).phase = .dropped
    rw [joining_drop hjoining, if_pos hended]

theorem dropping_drop (hphase : life.phase = .dropping) : (life.step .drop).phase = .joining := by
  show life.drop.phase = _
  unfold drop
  rw [hphase]

/-- Without a holder the dropping goes on by its own steps only. -/
theorem phase_of_ne (hsound : life.Sound) (hphase : life.phase ≠ .held) (hmove : move ≠ .drop) :
    (life.step move).phase = life.phase := by
  by_cases htick : move = .tick
  · subst htick
    show life.tick.phase = _
    unfold tick
    split <;> rfl
  · rw [hsound.step_of_unheld hphase htick hmove]

/-- A runtime that nobody holds is dropped. -/
theorem unheld_dropped (htick : Machine.Recurs schedule .tick) (hdrop : Machine.Recurs schedule .drop) :
    machine.LeadsTo (new limits) schedule (fun life => life.Sound ∧ life.phase ≠ .held)
      fun life => life.Sound ∧ life.phase = .dropped := by
  have hstarts : machine.LeadsTo (new limits) schedule (fun life => life.Sound ∧ life.phase = .dropping) Joining := by
    apply Machine.LeadsTo.of_recurs hdrop
    · intro life move ⟨hsound, hphase⟩
      by_cases hmove : move = .drop
      · subst hmove
        exact Or.inr ⟨hsound.step .drop, dropping_drop hphase⟩
      · exact Or.inl ⟨hsound.step move, (phase_of_ne hsound (hphase ▸ nofun) hmove).trans hphase⟩
    · intro life ⟨hsound, hphase⟩
      exact ⟨hsound.step .drop, dropping_drop hphase⟩
  have hjoins : machine.LeadsTo (new limits) schedule Joining fun life => life.Sound ∧ life.phase = .dropped :=
    joining_dropped htick hdrop
  apply (Machine.LeadsTo.of_imp _).trans ((hstarts.trans hjoins).or (hjoins.or (.of_imp fun _ h => h)))
  intro life ⟨hsound, hunheld⟩
  cases hphase : life.phase with
  | held => exact absurd hphase hunheld
  | dropping => exact Or.inl ⟨hsound, rfl⟩
  | joining => exact Or.inr (Or.inl ⟨hsound, hphase⟩)
  | dropped => exact Or.inr (Or.inr ⟨hsound, rfl⟩)

theorem all_finished (h : ∀ request, request < life.requests.length → life.requests[request]? = some .finished) :
    ∀ request ∈ life.requests, request = .finished := by
  intro request hmem
  obtain ⟨index, hlt, hindex⟩ := List.mem_iff_getElem.mp hmem
  have hfinished := h index hlt
  rw [List.getElem?_eq_getElem hlt, hindex] at hfinished
  exact Option.some.inj hfinished

/-- **The service comes to its end.** Once every handle outside of the requests has been let go, and everyone who can go
on has a turn again, then every request comes to its end, guests that would never return included; the last of them
drops the runtime, its thread ends, and from then on nothing moves. -/
theorem service_ends (limits : Limits) (schedule : Nat → LifetimeMove) (released : Nat)
    (hreleased : (machine.path (new limits) schedule released).handles = 0)
    (hfair : Fair limits schedule (machine.path (new limits) schedule released).requests.length) :
    ∃ time, released ≤ time ∧ ∀ later, time ≤ later →
      let life := machine.path (new limits) schedule later
      life = machine.path (new limits) schedule time ∧ life.phase = .dropped ∧ life.thread = .ended ∧
        life.requests.length = (machine.path (new limits) schedule released).requests.length ∧
        ∀ request ∈ life.requests, request = .finished := by
  have hsound : ∀ time, (machine.path (new limits) schedule time).Sound := by
    intro time
    rw [machine.path_eq_run]
    exact (sound_new limits).run _
  generalize hcount : (machine.path (new limits) schedule released).requests.length = count at hfair
  have hkeeps : ∀ later, released ≤ later → (machine.path (new limits) schedule later).handles = 0 ∧
      (machine.path (new limits) schedule later).requests.length = count := by
    intro later hle
    apply machine.path_keeps (new limits) schedule
      (p := fun life => life.handles = 0 ∧ life.requests.length = count) _ hle ⟨hreleased, hcount⟩
    exact fun life move h => ⟨(unhandled_step h.1 move).1, (unhandled_step h.1 move).2.trans h.2⟩
  -- every request that there is comes to its end
  have hends : ∀ request, request < count → machine.LeadsTo (new limits) schedule
      (fun life => life.Sound ∧ count ≤ life.requests.length) fun life => life.requests[request]? = some .finished := by
    intro request hrequest
    apply (Machine.LeadsTo.of_imp _).trans (request_ends hfair hrequest)
    exact fun life h => ⟨h.1, hrequest.trans_le h.2⟩
  obtain ⟨last, hlast, hfinished⟩ := Machine.LeadsTo.forall_lt (fun request life move h => finished_keeps h move) hends released
    ⟨hsound released, hcount.ge⟩
  have hall : ∀ request ∈ (machine.path (new limits) schedule last).requests, request = .finished :=
    all_finished fun request hrequest => hfinished request (hrequest.trans_eq (hkeeps last hlast).2)
  -- so that nobody holds the runtime any more
  have hunheld : (machine.path (new limits) schedule last).phase ≠ .held := by
    intro hheld
    have hholders := (hsound last).held_iff.mp hheld
    unfold holders at hholders
    rw [(hkeeps last hlast).1, Nat.zero_add] at hholders
    obtain ⟨request, hmem, hholds⟩ := List.countP_pos_iff.mp hholders
    exact of_decide_eq_true hholds (hall request hmem)
  obtain ⟨time, htime, hfinal, hdropped⟩ := unheld_dropped hfair.tick hfair.drop last ⟨hsound last, hunheld⟩
  refine ⟨time, hlast.trans htime, fun later hlater => ?_⟩
  have hsame : machine.path (new limits) schedule later = machine.path (new limits) schedule time :=
    machine.path_keeps (new limits) schedule (p := fun life => life = machine.path (new limits) schedule time)
      (fun life move heq => by
        rw [heq]
        exact hfinal.step_of_dropped hdropped move) hlater rfl
  simp only [hsame]
  obtain ⟨_, hlength⟩ := hkeeps time (hlast.trans htime)
  refine ⟨trivial, hdropped, hfinal.dropped hdropped, hlength, all_finished fun request hrequest => ?_⟩
  exact machine.path_keeps (new limits) schedule (p := fun life => life.requests[request]? = some .finished)
    (fun life move h => finished_keeps h move) htime (hfinished request (hrequest.trans_eq hlength))

end Shutdown

/-! ### A guest that never returns -/

/-- A request is taken up and begins, the server lets go of the runtime, and then everyone has a turn in each round. -/
def runaway : Nat → LifetimeMove
  | 0 => .accept
  | 1 => .enter 0
  | 2 => .release
  | n + 3 =>
      List.get [.tick, .tick, .tick, .check 0, .enter 0, .leave 0, .drop] ⟨n % 7, Nat.mod_lt n (by decide)⟩

theorem runaway_recurs (slot : Nat) (h : slot < 7) : Machine.Recurs runaway (runaway (slot + 3)) := by
  intro time
  refine ⟨7 * time + slot + 3, by omega, ?_⟩
  unfold runaway
  simp only [Nat.mul_add_mod]

/-- An interrupted request that has its turn again comes to its end. -/
theorem interrupted_leaves {limits : Limits} {schedule : Nat → LifetimeMove} {request : Nat}
    (hrecurs : Machine.Recurs schedule (.leave request)) : machine.LeadsTo (new limits) schedule
      (fun life => life.requests[request]? = some .interrupted) fun life => life.requests[request]? = some .finished := by
  apply Machine.LeadsTo.of_recurs hrecurs
  · intro life move hinterrupted
    obtain ⟨phase, hphase, hturned⟩ := request_step hinterrupted move
    cases hturned with
    | stay => exact Or.inl hphase
    | leave => exact Or.inr hphase
  · intro life hinterrupted
    show (life.leave request).requests[request]? = _
    unfold leave
    rw [hinterrupted]
    show (life.setRequest request .finished).letGo.requests[request]? = _
    rw [letGo_eq]
    exact (getElem?_setRequest hinterrupted request _).trans (congrArg some (if_pos rfl))

theorem fair_runaway (limits : Limits) : Fair limits runaway 1 where
  tick := runaway_recurs 0 (by decide)
  drop := runaway_recurs 6 (by decide)
  enter request hrequest := by
    rw [Nat.lt_one_iff.mp hrequest]
    exact runaway_recurs 4 (by decide)
  check request hrequest := by
    rw [Nat.lt_one_iff.mp hrequest]
    exact runaway_recurs 3 (by decide)
  leave request hrequest := by
    rw [Nat.lt_one_iff.mp hrequest]
    exact interrupted_leaves (runaway_recurs 5 (by decide))

/-- With one tick for its run, the guest is interrupted in the first round. -/
theorem service_ends_runaway :
    (machine.path (new { Limits.default with wallClockMs := 10 }) runaway 7).requests = [.interrupted] ∧
      ∃ time, 3 ≤ time ∧ ∀ later, time ≤ later →
        (machine.path (new { Limits.default with wallClockMs := 10 }) runaway later).phase = .dropped := by
  obtain ⟨time, hle, hends⟩ := service_ends { Limits.default with wallClockMs := 10 } runaway 3 rfl (fair_runaway _)
  exact ⟨by decide, time, hle, fun later hlater => (hends later hlater).2.1⟩

end Lifetime

end TdsWasm
