import TdsWasm.HostWorld

/-! The HTTP service (`main.rs`): what a client posts, the handlers, what they reply, and the service with all
the runs that are under way in it. Every run has a blocking thread of its own, so that their questions come in
any order. -/

set_option autoImplicit false

namespace TdsWasm

open Decode

variable {γ : Type}

/-! ### Requests and replies -/

structure RunRequest where
  task : String
  context : Option String
  maxSteps : UInt32

def defaultSteps : UInt32 := 4

namespace RunRequest

def decode (levels : Nat) (j : Json) : Option RunRequest :=
  record ["task", "context", "max_steps"] levels j fun _ fields => do
    let task ← required "task" string fields
    let context ← defaulted "context" none (option string) fields
    let maxSteps ← defaulted "max_steps" defaultSteps u32 fields
    return ⟨task, context, maxSteps⟩

def input (request : RunRequest) : AgentInput := ⟨request.task, request.context, request.maxSteps⟩

/-- A request that `run_handler` turns down by itself. -/
@[irreducible] def blank (request : RunRequest) : Bool := (Text.trim request.task).isEmpty

end RunRequest

/-- Why a request has come to no report: the blocking task has panicked, or the run has failed. -/
inductive Fault where
  | panicked
  | failed (failure : Failure)

/-- The replies of `run_handler`. -/
inductive Reply where
  | report (report : RunReport)
  | badRequest (error : String)
  | internal (fault : Fault)

namespace Reply

def status : Reply → Nat
  | report _ => 200
  | badRequest _ => 400
  | internal _ => 500

end Reply

def RunResult.reply : RunResult γ → Reply
  | .panicked => .internal .panicked
  | .err failure => .internal (.failed failure)
  | .ok report _ _ => .report report

def LogLine.encode (line : LogLine) : Json := .obj [("level", .str line.level), ("message", .str line.message)]

/-- The report as JSON, with what the host has measured of the run. -/
def RunReport.encode (report : RunReport) (durationMs fuelUsed : Nat) : Json :=
  .obj [("output", report.output.encode), ("model", .str report.model),
    ("duration_ms", .num (Numeral.ofNat durationMs)), ("fuel_used", .num (Numeral.ofNat fuelUsed)),
    ("logs", .arr (report.logs.map LogLine.encode))]

/-! ### Handlers -/

section Handlers

variable (platform : Platform)

/-- `run_handler` under a runtime that runs this request alone. -/
def Runtime.runHandler (runtime : Runtime γ) (request : RunRequest) : Reply :=
  if request.blank then .badRequest "task must not be empty"
  else (runtime.run platform request.input).reply

/-- `run_handler`, one question at a time. -/
def Shared.runHandler (shared : Shared γ) (request : RunRequest) : WorldProgram Reply :=
  if request.blank then pure (.badRequest "task must not be empty")
  else RunResult.reply <$> shared.run platform request.input

variable {platform} {request : RunRequest}

theorem Runtime.runHandler_blank {runtime : Runtime γ} (h : request.blank = true) :
    runtime.runHandler platform request = .badRequest "task must not be empty" := if_pos h

theorem Runtime.runHandler_run {runtime : Runtime γ} (h : request.blank = false) :
    runtime.runHandler platform request = (runtime.run platform request.input).reply := by
  unfold runHandler
  rw [h]
  rfl

theorem Shared.runHandler_blank {shared : Shared γ} (h : request.blank = true) :
    shared.runHandler platform request = pure (.badRequest "task must not be empty") := if_pos h

theorem Shared.runHandler_run {shared : Shared γ} (h : request.blank = false) :
    shared.runHandler platform request = RunResult.reply <$> shared.run platform request.input := by
  unfold runHandler
  rw [h]
  rfl

/-- The handler keeps what the runs keep. -/
theorem Shared.runHandler_keeps {κ : Type} {shared : Shared γ} {ledger : Program.Ledger worldSignature κ}
    {inv : HostRun → κ → Prop} (hkept : Kept platform shared.llm ledger inv) {k : κ}
    (hstart : ∀ tools, ToolBox.new platform shared.policy = .ok tools → inv (shared.store tools).host k)
    (request : RunRequest) : (shared.runHandler platform request).Keeps ledger (fun _ _ => True) k := by
  cases hblank : request.blank with
  | true =>
      rw [runHandler_blank hblank]
      exact trivial
  | false =>
      rw [runHandler_run hblank]
      exact (Shared.run_keeps hkept hstart request.input).map fun _ _ _ => trivial

end Handlers

/-! ### The service -/

/-- What happens to the service: a request arrives, or one of the runs has its turn. -/
inductive ServiceMove where
  | post (request : RunRequest)
  | turn (run : Nat)

/-- The requests that have been posted, in order. -/
def posted (moves : List ServiceMove) : List RunRequest :=
  moves.filterMap fun
    | .post request => some request
    | .turn _ => none

namespace Shared

variable (platform : Platform) (shared : Shared γ)

def poolMove : ServiceMove → Pool.Move worldSignature Reply
  | .post request => .start (shared.runHandler platform request)
  | .turn run => .turn run

theorem started_poolMoves (moves : List ServiceMove) :
    Pool.started (moves.map (shared.poolMove platform)) = (posted moves).map (shared.runHandler platform) := by
  induction moves with
  | nil => rfl
  | cons move rest ih =>
      cases move with
      | post request => exact congrArg (List.cons _) ih
      | turn run => exact ih

variable {σ : Type} (world : Nat → worldSignature.Handler σ)

/-- The service after these moves. The world outside answers from a state of its own and may know which run
asks. -/
def serve (outside : σ) (moves : List ServiceMove) : Pool worldSignature σ Reply :=
  (Pool.machine world).run ⟨outside, []⟩ (moves.map (shared.poolMove platform))

/-- All that the runs have asked and been answered by then. -/
def served (outside : σ) (moves : List ServiceMove) : List (Nat × worldSignature.Event) :=
  Pool.record world ⟨outside, []⟩ (moves.map (shared.poolMove platform))

/-- The reply to a request, once there is one. -/
def reply (outside : σ) (moves : List ServiceMove) (run : Nat) : Option Reply :=
  match (shared.serve platform world outside moves).threads[run]? with
  | some (.done reply) => some reply
  | _ => none

end Shared

end TdsWasm
