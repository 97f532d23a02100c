import TdsWasm.BridgeWorld
import TdsWasm.HostServe
import TdsWasm.SecurityKeyRuns

/-! Runs of one service do not meet. Whatever other runs are under way, and in whatever order they come to ask,
the reply to a request is that of a runtime which runs this request alone in a world that gives the same
answers; so two requests that are answered alike get the same reply, and every request gets its reply when
its turn keeps coming. -/

set_option autoImplicit false

namespace TdsWasm

open Program (eval_bind eval_map)

variable {γ : Type}

/-! ### What a run asks -/

namespace Stepwise

variable (platform : Platform)

/-- The host functions enter what they ask. -/
theorem kept_growing (llm : WorldProvider) : Kept platform llm growing fun run low => low ≤ run.history.length where
  quiet _ _ h := h
  invoked {run low} req h := by
    have hinvoke : (invoke platform run.data.tools run.history req.name req.input).Keeps growing
        (fun answered low => low ≤ run.history.length + (answered.2.2.length + 1)) low :=
      invoke_keeps platform (fun _ events low => low ≤ run.history.length + (events.length + 1)) run.data.tools
        req.name req.input (fun _ => Nat.le_trans h (Nat.le_add_right _ _)) (fun _ _ => ⟨h, fun _ => Nat.le_succ _⟩)
        fun _ => ⟨h, Nat.le_refl _⟩
    apply hinvoke.mono
    intro answered low hle
    show low ≤ (run.history ++ (answered.2.2 ++ [HostEvent.invoked req answered.1])).length
    rw [List.length_append, List.length_append]
    exact hle
  completed {run low} req h _ := by
    apply (llm.entered run.history req h).mono
    intro answered low hle
    show low ≤ (run.history ++ (answered.2.map HostEvent.model ++ [HostEvent.completed req answered.1])).length
    rw [List.length_append, List.length_append, List.length_map]
    exact Nat.le_trans hle (Nat.add_le_add_left (Nat.le_add_right _ _) _)

end Stepwise

/-- A module that asks for the time when it starts. -/
def asksTime : AgentModule Unit :=
  { inertModule abiShape with
    start := fun guest => .ask (.request Cap.toolInvoke (Text.utf8 "\x7b\"name\":\"now\",\"input\":null\x7d"))
      fun _ => .done (.ok (), guest) }

def timeService : Shared Unit := ⟨.default, Stepwise.mock .offline, asksTime, ()⟩

/-- A world whose clock goes on with every question. -/
def ticking : Nat → worldSignature.Handler Nat := fun _ hour question =>
  (match question with
    | ⟨_, .now⟩ => some (toString hour)
    | other => World.silent other, hour + 1)

namespace Shared

variable (platform : Platform) (shared : Shared γ)

/-- A run never asks with the same record twice. -/
theorem runHandler_growing (request : RunRequest) :
    (shared.runHandler platform request).Keeps growing (fun _ _ => True) 0 :=
  runHandler_keeps (Stepwise.kept_growing platform shared.llm) (fun _ _ => Nat.zero_le _) request

/-- In a world that has one answer to each question, the handler is the one of the runtime alone. -/
theorem runHandler_eval (world : World) (request : RunRequest) :
    (shared.runHandler platform request).eval world =
      (shared.toRuntime platform world).runHandler (world.platform platform) request := by
  cases hblank : request.blank with
  | true =>
      rw [runHandler_blank hblank, Runtime.runHandler_blank hblank]
      rfl
  | false =>
      rw [runHandler_run hblank, Runtime.runHandler_run hblank, eval_map, run_eval]
      cases (shared.run platform request.input).eval world <;> rfl

/-! ### The service -/

section Service

variable {σ : Type} {world : Nat → worldSignature.Handler σ} {outside : σ} {moves : List ServiceMove} {run : Nat}
  {request : RunRequest} {reply : Reply}

variable (world outside)

/-- The handler of a posted request is left with its thread, after what the run has been answered. -/
theorem leaves_of_posted (hposted : (posted moves)[run]? = some request) :
    ∃ rest, (shared.serve platform world outside moves).threads[run]? = some rest ∧
      (shared.runHandler platform request).Leaves (Pool.own run (shared.served platform world outside moves)) rest := by
  have htracks := Pool.tracks world outside (moves.map (shared.poolMove platform))
  rw [started_poolMoves] at htracks
  exact htracks.leaves (by rw [List.getElem?_map, hposted]; rfl)

variable {platform shared world outside}

theorem leaves_of_reply (hposted : (posted moves)[run]? = some request)
    (hreply : shared.reply platform world outside moves run = some reply) :
    (shared.runHandler platform request).Leaves (Pool.own run (shared.served platform world outside moves))
      (.done reply) := by
  obtain ⟨rest, hrest, hleaves⟩ := leaves_of_posted platform shared world outside hposted
  unfold Shared.reply at hreply
  rw [hrest] at hreply
  cases rest with
  | done result =>
      cases hreply
      exact hleaves
  | ask op next => cases hreply

/-- Some world gives one answer to each question and the answers that the run got. -/
theorem exists_alone {trace : List worldSignature.Event} {rest : Program worldSignature Reply}
    (hleaves : (shared.runHandler platform request).Leaves trace rest) :
    ∃ alone : World, ∀ event ∈ trace, alone event.op = event.answer :=
  Program.exists_answer _ (Program.Ledger.ne_of_ascending (hleaves.admits (shared.runHandler_growing platform request)))
    World.silent

/-- In such a world the runtime alone comes to the same reply. -/
theorem runHandler_alone {trace : List worldSignature.Event} {alone : World}
    (hleaves : (shared.runHandler platform request).Leaves trace (.done reply))
    (halone : ∀ event ∈ trace, alone event.op = event.answer) :
    (shared.toRuntime platform alone).runHandler (alone.platform platform) request = reply := by
  rw [← runHandler_eval]
  exact hleaves.eval_eq halone

/-- **Runs do not meet.** At any time, and whatever else the service runs, what a run has asked so far is what a
runtime asks first that runs the request alone, in some world that gives it the same answers; and the reply, once
there is one, is the reply of that runtime. -/
theorem served_alone (hposted : (posted moves)[run]? = some request) : ∃ alone : World,
    Pool.own run (shared.served platform world outside moves) <+: (shared.runHandler platform request).asked alone ∧
    ∀ reply, shared.reply platform world outside moves run = some reply →
      (shared.toRuntime platform alone).runHandler (alone.platform platform) request = reply := by
  obtain ⟨rest, _, hleaves⟩ := leaves_of_posted platform shared world outside hposted
  obtain ⟨alone, halone⟩ := exists_alone hleaves
  refine ⟨alone, ?_, fun reply hreply => runHandler_alone (leaves_of_reply hposted hreply) halone⟩
  rw [hleaves.asked_eq halone]
  exact List.prefix_append _ _

/-- Two requests, of which the second one is told the time first. -/
def overtaken : List ServiceMove := [.post ⟨"first", none, 1⟩, .post ⟨"second", none, 1⟩, .turn 1, .turn 0]

theorem served_alone_overtaken : ∃ alone : World,
    Pool.own 0 (timeService.served .offline ticking 9 overtaken) <+:
        (timeService.runHandler .offline ⟨"first", none, 1⟩).asked alone ∧
      ∀ reply, timeService.reply .offline ticking 9 overtaken 0 = some reply →
        (timeService.toRuntime .offline alone).runHandler (alone.platform .offline) ⟨"first", none, 1⟩ = reply :=
  served_alone rfl

end Service

end Shared

end TdsWasm
