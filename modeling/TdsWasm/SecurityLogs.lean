import TdsWasm.LibLossy
import TdsWasm.SecurityMemory
import TdsWasm.SecurityTrap

/-! What the host retains of a chatty guest: the first lines whose range lay inside guest memory, each cut to its
first bytes, whatever the guest calls in between. No run fills more memory with them than these bounds allow. -/

set_option autoImplicit false

namespace TdsWasm

/-- What `filterMap` keeps answers, one by one, to the elements that have a value. -/
theorem forall₂_filter_filterMap {α β : Type} {f : α → Option β} {p : α → Bool}
    (hp : ∀ a, p a = (f a).isSome) (as : List α) :
    List.Forall₂ (fun a b => f a = some b) (as.filter p) (as.filterMap f) := by
  induction as with
  | nil => exact .nil
  | cons a as ih =>
      cases hf : f a with
      | none =>
          have ha : p a = false := by rw [hp, hf, Option.isSome_none]
          rw [List.filterMap_cons_none hf, List.filter_cons_of_neg (by simp [ha])]
          exact ih
      | some b =>
          have ha : p a = true := by rw [hp, hf, Option.isSome_some]
          rw [List.filterMap_cons_some hf, List.filter_cons_of_pos ha]
          exact .cons hf ih

/-! ### Lines -/

/-- The name of a level. Any value that stands for none is informational. -/
def levelName (level : Int32) : String :=
  if level = 0 then "debug" else if level = 2 then "warn" else if level = 3 then "error" else "info"

/-- The host normalises a level to the name it is known by. -/
theorem asStr_fromI32 (level : Int32) : (LogLevel.fromI32 level).asStr = levelName level := by
  unfold LogLevel.fromI32 levelName
  split_ifs <;> rfl

theorem maxLogBytes_eq : Caller.maxLogBytes = 8192 := by decide

namespace GuestMove

/-- The move calls `log` with a range that lies, once clamped to 8192 bytes, inside its memory. -/
def Accepted (move : GuestMove) : Prop :=
  ∃ level ptr len, move.invocation = .log level ptr len ∧ InRange move.memory ptr (min len 8192)

/-- The line that the host makes of an accepted call: the name of the level, and the text of the bytes in the
clamped range. -/
inductive Logs (move : GuestMove) : LogLine → Prop where
  | line (level : Int32) (ptr len : UInt32) (bytes : Bytes) (hcall : move.invocation = .log level ptr len)
      (hsees : Sees move.memory ptr (min len 8192) bytes) :
      Logs move ⟨levelName level, Text.fromUtf8Lossy bytes⟩

theorem logs_of_line {move : GuestMove} {line : LogLine} (h : move.line = some line) : move.Logs line := by
  unfold GuestMove.line at h
  split at h
  · next level ptr len hcall =>
      rw [maxLogBytes_eq] at h
      obtain ⟨bytes, hread, rfl⟩ := Option.map_eq_some_iff.mp h
      rw [asStr_fromI32]
      exact .line level ptr len bytes hcall (readGuest_eq_some_iff.mp hread)
  · cases h

theorem accepted_iff (move : GuestMove) : move.Accepted ↔ move.line.isSome := by
  unfold Accepted GuestMove.line
  cases hcall : move.invocation with
  | log level ptr len =>
      rw [Option.isSome_map, maxLogBytes_eq]
      constructor
      · rintro ⟨_, _, _, heq, hrange⟩
        cases heq
        obtain ⟨bytes, hread⟩ := readGuest_of_inRange hrange
        rw [hread, Option.isSome_some]
      · intro hread
        refine ⟨level, ptr, len, rfl, ?_⟩
        by_contra hrange
        rw [readGuest_of_not_inRange hrange] at hread
        cases hread
  | call namePtr nameLen reqPtr reqLen => exact ⟨(fun ⟨_, _, _, heq, _⟩ => nomatch heq), nofun⟩
  | responseRead ptr len => exact ⟨(fun ⟨_, _, _, heq, _⟩ => nomatch heq), nofun⟩

instance (move : GuestMove) : Decidable move.Accepted := decidable_of_iff _ move.accepted_iff.symm

theorem Logs.message_le {move : GuestMove} {line : LogLine} (h : move.Logs line) :
    line.message.utf8ByteSize ≤ 3 * 8192 := by
  obtain ⟨level, ptr, len, bytes, -, hlen, -⟩ := h
  have hclamp : bytes.length ≤ 8192 := by
    rw [hlen, Word.toNat_min]
    exact min_le_right _ _
  calc (Text.fromUtf8Lossy bytes).utf8ByteSize ≤ 3 * bytes.length := Text.utf8ByteSize_fromUtf8Lossy_le bytes
    _ ≤ 3 * 8192 := Nat.mul_le_mul_left 3 hclamp

end GuestMove

/-- The bytes that the messages of these lines take. -/
def messageBytes : List LogLine → Nat
  | [] => 0
  | line :: rest => line.message.utf8ByteSize + messageBytes rest

theorem messageBytes_le {moves : List GuestMove} {logs : List LogLine} (h : List.Forall₂ GuestMove.Logs moves logs) :
    messageBytes logs ≤ logs.length * (3 * 8192) := by
  induction h with
  | nil => exact le_rfl
  | @cons move line moves logs hline _ ih =>
      have hmessage := hline.message_le
      calc messageBytes (line :: logs) = line.message.utf8ByteSize + messageBytes logs := rfl
        _ ≤ 3 * 8192 + logs.length * (3 * 8192) := Nat.add_le_add hmessage ih
        _ = (line :: logs).length * (3 * 8192) := by
          rw [List.length_cons, Nat.succ_mul logs.length, Nat.add_comm]

/-! ### Runs -/

section Runs

variable (platform : Platform)

/-- The retained lines are those of the first accepted calls. -/
theorem HostRun.logs_forall₂ {start : HostRun} (hstart : start.data.logs = []) (moves : List GuestMove) :
    List.Forall₂ GuestMove.Logs ((moves.filter fun move => decide move.Accepted).take Caller.maxLogLines)
      ((machine platform).run start moves).data.logs := by
  rw [logs_run platform hstart]
  apply List.forall₂_take
  apply List.Forall₂.imp fun _ _ => GuestMove.logs_of_line
  apply forall₂_filter_filterMap
  intro move
  rw [decide_eq_decide.mpr move.accepted_iff, Bool.decide_coe]

/-- A move that logs nothing leaves the lines as they are. -/
theorem HostRun.logs_quiet (run : HostRun) (move : GuestMove)
    (hquiet : ∀ level ptr len, move.invocation ≠ .log level ptr len) :
    ((machine platform).step run move).1.data.logs = run.data.logs := by
  have hline : move.line = none := by
    rw [← Option.not_isSome_iff_eq_none, ← move.accepted_iff]
    rintro ⟨level, ptr, len, hcall, -⟩
    exact hquiet level ptr len hcall
  rw [logs_step, hline, Option.toList_none, List.append_nil, ite_self]

/-- In every state that a run of any guest reaches, the retained logs are the lines of the first 512 accepted
calls, in order, and the messages take at most 512 * 3 * 8192 bytes. -/
theorem logs_retained (policy : Policy) (llm : LlmProvider) (tools : ToolBox) (moves : List GuestMove) :
    let run := (HostRun.machine platform).run (.start policy llm tools) moves
    let accepted := moves.filter fun move => decide move.Accepted
    List.Forall₂ GuestMove.Logs (accepted.take 512) run.data.logs ∧
      run.data.logs.length = min 512 accepted.length ∧ messageBytes run.data.logs ≤ 512 * 3 * 8192 ∧
      ∀ move, (∀ level ptr len, move.invocation ≠ .log level ptr len) →
        ((HostRun.machine platform).step run move).1.data.logs = run.data.logs := by
  intro run accepted
  have hlines : List.Forall₂ GuestMove.Logs (accepted.take 512) run.data.logs :=
    HostRun.logs_forall₂ platform rfl moves
  have hlength : run.data.logs.length = min 512 accepted.length := by
    rw [← hlines.length_eq, List.length_take]
  refine ⟨hlines, hlength, ?_, HostRun.logs_quiet platform run⟩
  calc messageBytes run.data.logs ≤ run.data.logs.length * (3 * 8192) := messageBytes_le hlines
    _ ≤ 512 * (3 * 8192) := by
      rw [hlength]
      exact Nat.mul_le_mul_right _ (min_le_left _ _)

end Runs

end TdsWasm
