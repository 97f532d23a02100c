import TdsWasm.HostClock

/-! The life of a runtime in the service: the thread that advances the epoch counter (`Runtime::new`), the requests
that hold the runtime while they are served (`run_handler`), and what is done when the last handle is let go
(`Drop for Runtime`). The parties take their steps one at a time, in any order. -/

set_option autoImplicit false

namespace TdsWasm

/-! ### Parties -/

/-- Where the ticker thread is in its loop. -/
inductive TickerThread where
  /-- It is about to look at `ticker_stop`. -/
  | loading
  | sleeping
  /-- It has slept and is about to advance the counter. -/
  | waking
  | ended
  deriving DecidableEq

/-- Where a request is: it waits for a thread of its own, its agent runs up to a deadline, its guest code has been
interrupted, or it has let go of the runtime. -/
inductive RequestPhase where
  | waiting
  | running (deadline : Nat)
  | interrupted
  | finished
  deriving DecidableEq

def RequestPhase.holds (request : RequestPhase) : Bool := request ≠ .finished

/-- Where the runtime is on its way to being dropped. -/
inductive DropPhase where
  | held
  /-- The last handle is gone, and `ticker_stop` is about to be set. -/
  | dropping
  /-- The ticker thread is waited for. -/
  | joining
  | dropped
  deriving DecidableEq

/-- A runtime with its ticker, and all that hold it. The counter of the engine starts with the engine. -/
structure Lifetime where
  limits : Limits
  thread : TickerThread
  tickerStop : Bool
  epoch : Nat
  /-- The handles that no request holds. -/
  handles : Nat
  requests : List RequestPhase
  phase : DropPhase

inductive LifetimeMove where
  /-- The ticker thread takes a step. -/
  | tick
  /-- A handle is cloned from one that no request holds. -/
  | clone
  /-- A request comes in and gets a handle. -/
  | accept
  /-- A request gets its thread and sets its deadline. -/
  | enter (request : Nat)
  /-- The guest code of a request goes through an epoch check. -/
  | check (request : Nat)
  /-- A request has its report or its error, or is turned away, and lets go of its handle. -/
  | leave (request : Nat)
  /-- A handle that no request holds is let go. -/
  | release
  /-- Whoever has let go of the last handle takes a step. -/
  | drop
  deriving DecidableEq

namespace Lifetime

/-! ### Steps -/

/-- `Runtime::new` has spawned the thread, and its caller has the only handle. -/
def new (limits : Limits) : Lifetime := ⟨limits, .loading, false, 0, 1, [], .held⟩

variable (life : Lifetime)

def holders : Nat := life.handles + life.requests.countP RequestPhase.holds

def tick : Lifetime :=
  match life.thread with
  | .loading => { life with thread := if life.tickerStop then .ended else .sleeping }
  | .sleeping => { life with thread := .waking }
  | .waking => { life with thread := .loading, epoch := life.epoch + 1 }
  | .ended => life

def setRequest (request : Nat) (phase : RequestPhase) : Lifetime :=
  { life with requests := life.requests.set request phase }

/-- A handle has been let go. With the last one the runtime is dropped. -/
def letGo : Lifetime := if life.holders = 0 then { life with phase := .dropping } else life

/-- `set_epoch_deadline`, at the beginning of the run of a request. -/
def enter (request : Nat) : Lifetime :=
  match life.requests[request]? with
  | some .waiting => life.setRequest request (.running (life.epoch + life.limits.ticks.toNat))
  | _ => life

/-- An epoch check traps once the counter has come to the deadline. -/
def check (request : Nat) : Lifetime :=
  match life.requests[request]? with
  | some (.running deadline) => if deadline ≤ life.epoch then life.setRequest request .interrupted else life
  | _ => life

def leave (request : Nat) : Lifetime :=
  match life.requests[request]? with
  | none => life
  | some .finished => life
  | some _ => (life.setRequest request .finished).letGo

def release : Lifetime :=
  match life.handles with
  | 0 => life
  | handles + 1 => letGo { life with handles := handles }

/-- `Drop for Runtime`: set the flag, then wait for the thread. -/
def drop : Lifetime :=
  match life.phase with
  | .held => life
  | .dropping => { life with tickerStop := true, phase := .joining }
  | .joining => if life.thread = .ended then { life with phase := .dropped } else life
  | .dropped => life

def step : LifetimeMove → Lifetime
  | .tick => life.tick
  | .clone => if 0 < life.handles then { life with handles := life.handles + 1 } else life
  | .accept => if 0 < life.handles then { life with requests := life.requests ++ [.waiting] } else life
  | .enter request => life.enter request
  | .check request => life.check request
  | .leave request => life.leave request
  | .release => life.release
  | .drop => life.drop

def machine : Machine Lifetime LifetimeMove Unit := ⟨fun life move => (life.step move, ())⟩

/-! ### What a step can do -/

/-- What a move does, with what it needs. -/
inductive Moved : LifetimeMove → Lifetime → Prop where
  | idle (move : LifetimeMove) : Moved move life
  | load (h : life.thread = .loading) :
      Moved .tick { life with thread := if life.tickerStop then .ended else .sleeping }
  | wake (h : life.thread = .sleeping) : Moved .tick { life with thread := .waking }
  | advance (h : life.thread = .waking) : Moved .tick { life with thread := .loading, epoch := life.epoch + 1 }
  | clone (h : 0 < life.handles) : Moved .clone { life with handles := life.handles + 1 }
  | accept (h : 0 < life.handles) : Moved .accept { life with requests := life.requests ++ [.waiting] }
  | enter (request : Nat) (h : life.requests[request]? = some .waiting) :
      Moved (.enter request) (life.setRequest request (.running (life.epoch + life.limits.ticks.toNat)))
  | interrupt (request deadline : Nat) (h : life.requests[request]? = some (.running deadline))
      (hdue : deadline ≤ life.epoch) : Moved (.check request) (life.setRequest request .interrupted)
  | leave (request : Nat) (own : RequestPhase) (h : life.requests[request]? = some own) (hown : own ≠ .finished) :
      Moved (.leave request) (life.setRequest request .finished).letGo
  | release (handles : Nat) (h : life.handles = handles + 1) :
      Moved .release (letGo { life with handles := handles })
  | stop (h : life.phase = .dropping) : Moved .drop { life with tickerStop := true, phase := .joining }
  | join (h : life.phase = .joining) (hended : life.thread = .ended) : Moved .drop { life with phase := .dropped }

theorem step_moved (move : LifetimeMove) : life.Moved move (life.step move) := by
  cases move with
  | tick =>
      show life.Moved .tick life.tick
      unfold tick
      split
      case h_1 hthread => exact .load hthread
      case h_2 hthread => exact .wake hthread
      case h_3 hthread => exact .advance hthread
      case h_4 => exact .idle _
  | clone =>
      unfold step
      split_ifs with h
      · exact .clone h
      · exact .idle _
  | accept =>
      unfold step
      split_ifs with h
      · exact .accept h
      · exact .idle _
  | enter request =>
      show life.Moved (.enter request) (life.enter request)
      unfold enter
      split
      case h_1 hrequest => exact .enter request hrequest
      case h_2 => exact .idle _
  | check request =>
      show life.Moved (.check request) (life.check request)
      unfold check
      split
      case h_1 deadline hrequest =>
        split_ifs with hdue
        · exact .interrupt request deadline hrequest hdue
        · exact .idle _
      case h_2 => exact .idle _
  | leave request =>
      show life.Moved (.leave request) (life.leave request)
      unfold leave
      split
      case h_1 => exact .idle _
      case h_2 => exact .idle _
      case h_3 own hfinished hrequest => exact .leave request own hrequest hfinished
  | release =>
      show life.Moved .release life.release
      unfold release
      split
      case h_1 => exact .idle _
      case h_2 handles hhandles => exact .release handles hhandles
  | drop =>
      show life.Moved .drop life.drop
      unfold drop
      split
      case h_1 => exact .idle _
      case h_2 hphase => exact .stop hphase
      case h_3 hphase =>
        split_ifs with hended
        · exact .join hphase hended
        · exact .idle _
      case h_4 => exact .idle _

theorem letGo_eq : life.letGo = { life with phase := if life.holders = 0 then .dropping else life.phase } := by
  unfold letGo
  split_ifs <;> rfl

end Lifetime

end TdsWasm
