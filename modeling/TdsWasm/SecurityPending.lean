import TdsWasm.HostSteps

/-! Whose response a guest reads. The waiting response is the one of the latest call as long as no
call is rejected while a response waits: a rejected call leaves the older response where it is. -/

set_option autoImplicit false

namespace TdsWasm

variable (platform : Platform)

namespace HostRun

/-- Whether a move is a call, and the response that this call produced, if it produced one. -/
def answered (m : HostMoment) : Option (Option Bytes) :=
  match m.input.invocation with
  | .call namePtr nameLen reqPtr reqLen =>
      let caller := m.before.caller m.input.memory
      some (caller.response platform reqLen (caller.receive namePtr nameLen reqPtr reqLen))
  | _ => none

/-- The response of the latest call of a past, if there was a call and it produced one. -/
def latest (past : List HostMoment) : Option (Option Bytes) :=
  past.reverse.findSome? (answered platform)

theorem latest_append (past : List HostMoment) (m : HostMoment) :
    latest platform (past ++ [m]) = (answered platform m).or (latest platform past) := by
  rw [latest, List.reverse_append, List.reverse_singleton, List.singleton_append, List.findSome?_cons]
  cases answered platform m <;> rfl

/-- What a move does to the waiting response. -/
theorem pending_step (run : HostRun) (move : GuestMove) :
    let m := (machine platform).moment run move
    (∀ response, answered platform m = some (some response) → m.after.data.pending = response) ∧
    (answered platform m = some none → m.after.data.pending = run.data.pending) ∧
    (answered platform m = none → m.after.data.pending = run.data.pending ∨ m.after.data.pending = []) := by
  obtain ⟨memory, invocation⟩ := move
  cases invocation with
  | log level ptr len =>
      refine ⟨fun response h => ?_, fun h => ?_, fun _ => Or.inl ?_⟩
      · cases h
      · cases h
      · show ((run.caller memory).log level ptr len).data.pending = _
        obtain ⟨logs, hlog⟩ := (run.caller memory).log_eq level ptr len
        rw [hlog]
        rfl
  | call namePtr nameLen reqPtr reqLen =>
      intro m
      have hanswered : answered platform m = some ((run.caller memory).response platform reqLen
          ((run.caller memory).receive namePtr nameLen reqPtr reqLen)) := rfl
      have hafter : m.after.data.pending =
          ((run.caller memory).call platform namePtr nameLen reqPtr reqLen).2.data.pending := rfl
      rw [hanswered, hafter, Caller.call_eq]
      cases (run.caller memory).receive namePtr nameLen reqPtr reqLen with
      | oversized => exact ⟨fun response h => Option.some.inj (Option.some.inj h), nofun, nofun⟩
      | rejected code => exact ⟨nofun, fun _ => rfl, nofun⟩
      | request name body => exact ⟨fun response h => Option.some.inj (Option.some.inj h), nofun, nofun⟩
  | responseRead ptr len =>
      have hread : ((run.caller memory).responseRead ptr len).2.data.pending = run.data.pending ∨
          ((run.caller memory).responseRead ptr len).2.data.pending = [] := by
        unfold Caller.responseRead
        simp only
        split_ifs
        · exact Or.inl rfl
        · cases writeGuest (run.caller memory).memory ptr (run.caller memory).data.pending with
          | none => exact Or.inr rfl
          | some memory' => exact Or.inr rfl
      exact ⟨nofun, nofun, fun _ => hread⟩

/-- The move is a call that is rejected without a response. -/
def Rejected (m : HostMoment) : Prop := ∃ code, m.before.receive m.input = some (.rejected code)

theorem rejected_of_answered {m : HostMoment} (h : answered platform m = some none) : Rejected m := by
  unfold answered at h
  unfold Rejected receive
  cases hinvocation : m.input.invocation with
  | log level ptr len =>
      rw [hinvocation] at h
      cases h
  | responseRead ptr len =>
      rw [hinvocation] at h
      cases h
  | call namePtr nameLen reqPtr reqLen =>
      simp only [hinvocation, Option.some.injEq] at h ⊢
      cases hreceive : (m.before.caller m.input.memory).receive namePtr nameLen reqPtr reqLen with
      | rejected code => exact ⟨code, rfl⟩
      | oversized =>
          rw [hreceive] at h
          cases h
      | request name body =>
          rw [hreceive] at h
          cases h

/-- As long as no call is rejected while a response waits, what waits is the latest response. -/
theorem pending_latest (start : HostRun) (hstart : start.data.pending = []) (moves : List GuestMove) :
    (∀ m ∈ (machine platform).moments start moves, Rejected m → m.before.data.pending = []) →
      ((machine platform).run start moves).data.pending = [] ∨
        latest platform ((machine platform).moments start moves) =
          some (some ((machine platform).run start moves).data.pending) := by
  refine (machine platform).history_induction
    (motive := fun past run => (∀ m ∈ past, Rejected m → m.before.data.pending = []) →
      run.data.pending = [] ∨ latest platform past = some (some run.data.pending))
    (fun _ => Or.inl hstart) (fun past run move ih hclean => ?_) moves
  have hpast := ih fun m hm => hclean m (List.mem_append_left _ hm)
  obtain ⟨hresponse, hrejected, hother⟩ := pending_step platform run move
  rw [latest_append]
  cases hanswered : answered platform ((machine platform).moment run move) with
  | none =>
      rcases hother hanswered with hsame | hempty
      · rw [Machine.moment_after] at hsame
        rw [hsame]
        exact hpast
      · exact Or.inl hempty
  | some answer =>
      cases answer with
      | some response =>
          have hpending := hresponse response hanswered
          rw [Machine.moment_after] at hpending
          rw [hpending]
          exact Or.inr rfl
      | none =>
          have hpending := hrejected hanswered
          rw [Machine.moment_after] at hpending
          rw [hpending]
          refine Or.inl (hclean _ (List.mem_append_right _ (List.mem_singleton.mpr rfl))
            (rejected_of_answered platform hanswered))

end HostRun

/-- A response read is the response to the latest call, in every run in which no call is rejected
while a response waits. -/
theorem read_latest (policy : Policy) (llm : LlmProvider) (tools : ToolBox) (moves : List GuestMove)
    (hclean : ∀ m ∈ (HostRun.machine platform).moments (.start policy llm tools) moves,
      HostRun.Rejected m → m.before.data.pending = [])
    (memory : Option Bytes) (ptr len : UInt32) (hlen : 0 < len.toNat) :
    let run := (HostRun.machine platform).run (.start policy llm tools) moves
    let reply := ((HostRun.machine platform).step run ⟨memory, .responseRead ptr len⟩).2
    ∀ value, reply.value = some value → value.toInt = len.toNat →
      ∃ response, HostRun.latest platform
          ((HostRun.machine platform).moments (.start policy llm tools) moves) = some (some response) ∧
        readGuest reply.memory ptr len = some response := by
  intro run reply value hvalue hint
  have hread : ((run.caller memory).responseRead ptr len).1.toInt = len.toNat := by
    rw [← hint, ← Option.some.inj hvalue]
    rfl
  obtain ⟨hpending, after, hwrite⟩ := Caller.responseRead_eq_len hread
  have hmemory : reply.memory = some after := by
    show ((run.caller memory).responseRead ptr len).2.memory = _
    rw [Caller.responseRead_of_write hpending hwrite]
  rcases HostRun.pending_latest platform (.start policy llm tools) rfl moves hclean with hempty | hlatest
  · have hzero : (run.caller memory).data.pending = [] := hempty
    rw [hzero] at hpending
    exact absurd hpending.symm (by simpa using hlen.ne')
  · refine ⟨run.data.pending, hlatest, ?_⟩
    rw [hmemory]
    exact readGuest_writeGuest hwrite hpending.symm

def stillPlatform : Platform :=
  .scripted ⟨"https", some "example.com", "https://example.com/"⟩ .unreachable .unreachable

def stillStart : HostRun :=
  .start .default (.constant (.error (.upstream "down"))) ⟨.default, .unreachable, .empty⟩

/-- A guest that asks for a capability the host does not have. -/
def askedMove : GuestMove := .request "clock" []

/-- A guest that passes a bad pointer. -/
def badMove : GuestMove := ⟨some [], .call 0 5 5 0⟩

/-- A call is rejected while nothing waits, and the response to the next one is read. -/
theorem read_latest_asked :
    ∃ response, HostRun.latest stillPlatform
        ((HostRun.machine stillPlatform).moments stillStart [badMove, askedMove]) = some (some response) ∧
      readGuest ((HostRun.machine stillPlatform).step
        ((HostRun.machine stillPlatform).run stillStart [badMove, askedMove])
        ⟨some (List.replicate 100 0), .responseRead 0 89⟩).2.memory 0 89 = some response :=
  read_latest stillPlatform .default (.constant (.error (.upstream "down")))
    ⟨.default, .unreachable, .empty⟩ [badMove, askedMove]
    (by
      intro m hm _
      rw [Machine.moments, Machine.moments, Machine.moments, List.mem_cons, List.mem_singleton] at hm
      rcases hm with rfl | rfl <;> rfl)
    (some (List.replicate 100 0)) 0 89 (by decide) 89 (by decide +kernel) (by decide)

theorem read_stale_rejected :
    ((HostRun.machine stillPlatform).step
        ((HostRun.machine stillPlatform).run stillStart [askedMove, badMove])
        ⟨some (List.replicate 100 0), .responseRead 0 89⟩).2.value = some 89 ∧
      HostRun.latest stillPlatform
        ((HostRun.machine stillPlatform).moments stillStart [askedMove, badMove]) = some none :=
  ⟨by decide +kernel, by decide +kernel⟩

end TdsWasm
