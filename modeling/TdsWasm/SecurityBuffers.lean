import TdsWasm.HostSession
import TdsWasm.HostSteps
import TdsWasm.SecurityShape

/-! The buffers that the host allocates for lengths that the guest supplies. A range of guest memory is copied
once it is known to lie inside; the buffer for the result of a run is there before anything is checked. -/

set_option autoImplicit false

namespace TdsWasm

/-- The size of a buffer, and of the memory of the guest when the buffer was allocated. -/
structure Buffer where
  size : Nat
  memory : Nat
  deriving DecidableEq

def Buffer.Fits (buffer : Buffer) : Prop := buffer.size ≤ buffer.memory

instance (buffer : Buffer) : Decidable buffer.Fits := inferInstanceAs (Decidable (_ ≤ _))

/-! ### Host functions -/

/-- What `read_guest` allocates: the copy of a range, when there is one. -/
def readGuestBuffers (memory : Option Bytes) (ptr len : UInt32) : List Buffer :=
  (readGuest memory ptr len).toList.map fun bytes => ⟨bytes.length, (memory.getD []).length⟩

namespace Caller

/-- The line, after its length is cut down. -/
def logBuffers (caller : Caller) (ptr len : UInt32) : List Buffer :=
  readGuestBuffers caller.memory ptr (min len maxLogBytes)

/-- The name and then the request, unless the lengths exceed the limits or the name cannot be read. -/
def callBuffers (caller : Caller) (namePtr nameLen reqPtr reqLen : UInt32) : List Buffer :=
  if caller.data.policy.limits.maxRequestBytes < reqLen.toNat ∨ 256 < nameLen then []
  else
    match readGuest caller.memory namePtr nameLen with
    | none => []
    | some _ =>
        readGuestBuffers caller.memory namePtr nameLen ++ readGuestBuffers caller.memory reqPtr reqLen

end Caller

/-- What a host function allocates. The response that `response_read` hands over is there already. -/
def HostMoment.buffers (m : HostMoment) : List Buffer :=
  match m.input.invocation with
  | .log _ ptr len => (m.before.caller m.input.memory).logBuffers ptr len
  | .call namePtr nameLen reqPtr reqLen =>
      (m.before.caller m.input.memory).callBuffers namePtr nameLen reqPtr reqLen
  | .responseRead _ _ => []

/-- A copy of a range fits the memory that it is a range of. -/
theorem readGuestBuffers_fit {memory : Option Bytes} {ptr len : UInt32} :
    ∀ buffer ∈ readGuestBuffers memory ptr len, buffer.Fits := by
  intro buffer hmem
  obtain ⟨bytes, hbytes, rfl⟩ := List.mem_map.mp hmem
  cases memory with
  | none => cases hbytes
  | some data =>
      rw [Option.mem_toList, readGuest, Option.bind_some] at hbytes
      split_ifs at hbytes with hinside
      · cases hbytes
        show ((data.drop ptr.toNat).take len.toNat).length ≤ data.length
        rw [List.length_take, List.length_drop]
        omega

theorem HostMoment.buffers_fit (m : HostMoment) : ∀ buffer ∈ m.buffers, buffer.Fits := by
  unfold buffers
  cases m.input.invocation with
  | log level ptr len => exact readGuestBuffers_fit
  | call namePtr nameLen reqPtr reqLen =>
      simp only [Caller.callBuffers]
      split_ifs
      · exact fun buffer hmem => nomatch hmem
      cases readGuest (m.before.caller m.input.memory).memory namePtr nameLen with
      | none => exact fun buffer hmem => nomatch hmem
      | some name =>
          intro buffer hmem
          rcases List.mem_append.mp hmem with hmem | hmem
          · exact readGuestBuffers_fit buffer hmem
          · exact readGuestBuffers_fit buffer hmem
  | responseRead ptr len => exact fun buffer hmem => nomatch hmem

/-! ### The result of a run -/

section Results

variable {γ : Type} (platform : Platform)

namespace Instance

/-- What `vec![0u8; out_len]` allocates for a result that is neither null nor empty. -/
def resultBuffers (memory : GuestMemory γ) (packed : UInt64) (guest : γ) : List Buffer :=
  let (outPtr, outLen) := unpackPtrLen packed
  if outPtr = 0 ∨ outLen = 0 then [] else [⟨outLen.toNat, (memory.data guest).length⟩]

end Instance

variable (policy : Policy) (module : AgentModule γ) (fresh : γ) (llm : LlmProvider) (input : AgentInput)

/-- The buffers that a run allocates: those of the host functions in the order of the calls, and then that for
the result. -/
def AgentModule.buffers : List Buffer :=
  match (module.toRuntime platform policy fresh llm).opening platform input with
  | none => []
  | some (clamped, opened) =>
      let moves := ((module.record platform policy fresh llm input).map Watched.moves).getD []
      ((HostRun.machine platform).moments opened.host moves).flatMap HostMoment.buffers ++
        match ((module.toInstance platform).enter >>= fun _ =>
            (module.toInstance platform).runAgent platform clamped) opened with
        | (.ok packed, returned) => Instance.resultBuffers module.memory packed returned.guest
        | (.error _, _) => []

/-- Every buffer that a run allocates for a length that the guest supplies fits the memory of the guest if and
only if the result that the guest returns is null or empty, or no longer than its memory. -/
theorem buffers_fit_iff :
    (∀ buffer ∈ module.buffers platform policy fresh llm input, buffer.Fits) ↔
    ∀ clamped opened packed returned,
      (module.toRuntime platform policy fresh llm).opening platform input = some (clamped, opened) →
      ((module.toInstance platform).enter >>= fun _ => (module.toInstance platform).runAgent platform clamped)
        opened = (.ok packed, returned) →
      (unpackPtrLen packed).1 = 0 ∨ (unpackPtrLen packed).2 = 0 ∨
        (unpackPtrLen packed).2.toNat ≤ (module.memory.data returned.guest).length := by
  unfold AgentModule.buffers
  cases hopen : (module.toRuntime platform policy fresh llm).opening platform input with
  | none =>
      refine iff_of_true (fun buffer hmem => nomatch hmem) ?_
      intro clamped opened packed returned hopened
      cases hopened
  | some entry =>
      obtain ⟨clamped, opened⟩ := entry
      -- what the host functions allocate fits anyway
      have hmoments : ∀ moves, ∀ buffer ∈
          ((HostRun.machine platform).moments opened.host moves).flatMap HostMoment.buffers, buffer.Fits := by
        intro moves buffer hmem
        obtain ⟨m, _, hbuffer⟩ := List.mem_flatMap.mp hmem
        exact HostMoment.buffers_fit m buffer hbuffer
      simp only
      rw [List.forall_mem_append, and_iff_right (hmoments _)]
      cases hreturn : ((module.toInstance platform).enter >>= fun _ =>
          (module.toInstance platform).runAgent platform clamped) opened with
      | mk outcome returned =>
          cases outcome with
          | error failure =>
              refine iff_of_true (fun buffer hmem => nomatch hmem) ?_
              intro clamped' opened' packed returned' hopened hreturned
              cases hopened
              cases hreturn.symm.trans hreturned
          | ok packed =>
              simp only [Instance.resultBuffers]
              constructor
              · intro hfit clamped' opened' packed' returned' hopened hreturned
                cases hopened
                cases hreturn.symm.trans hreturned
                rw [← or_assoc, or_iff_not_imp_left]
                intro hempty
                rw [if_neg hempty] at hfit
                exact hfit _ (List.mem_singleton_self _)
              · intro hbound buffer hmem
                split_ifs at hmem with hempty
                · cases hmem
                · rw [List.mem_singleton.mp hmem]
                  rcases hbound _ _ _ _ rfl hreturn with hptr | hlen | hle
                  · exact absurd (Or.inl hptr) hempty
                  · exact absurd (Or.inr hlen) hempty
                  · exact hle

end Results

/-! ### A module that returns too long a length -/

/-- A module with one page of memory whose `tds_run` returns the length 2³² - 1 at the address 1. -/
def longResult : AgentModule Bytes where
  shape := abiShape
  memory := ⟨id, fun _ data => data⟩
  start guest := .done (.ok (), guest)
  abiVersion guest := .done (.ok abiVersion, guest)
  alloc _ guest := .done (.ok 1, guest)
  dealloc _ _ guest := .done (.ok (), guest)
  run _ _ guest := .done (.ok 0x1ffffffff, guest)

def longResultLlm : LlmProvider := .constant (.error (.upstream "down"))

def longResultInput : AgentInput := ⟨"task", none, 1⟩

/-- The module answers whatever the host has put into its memory. -/
theorem longResult_returns {host : HostRun} {data after : Bytes}
    (hwrite : writeGuest (some data) 1 (Platform.offline.codec.toVec longResultInput.encode) = some after) :
    ((longResult.toInstance .offline).enter >>= fun _ =>
        (longResult.toInstance .offline).runAgent .offline longResultInput) ⟨host, data⟩ =
      (.ok 0x1ffffffff, ⟨host, after⟩) := by
  have hmemory : (longResult.toInstance .offline).memory = some longResult.memory := rfl
  have hwritten : longResult.memory.write 1 (Platform.offline.codec.toVec longResultInput.encode) ⟨host, data⟩ =
      (.ok (), ⟨host, after⟩) := GuestMemory.write_of_some hwrite
  rw [Call.bind_apply]
  show (longResult.toInstance .offline).runAgent .offline longResultInput ⟨host, data⟩ = _
  unfold Instance.runAgent
  rw [hmemory]
  show (longResult.memory.write 1 (Platform.offline.codec.toVec longResultInput.encode) >>= fun _ => _ :
    GuestCall Bytes UInt64) ⟨host, data⟩ = _
  rw [Call.bind_apply, hwritten]
  rfl

theorem longResult_buffers {data after : Bytes}
    (hwrite : writeGuest (some data) 1 (Platform.offline.codec.toVec longResultInput.encode) = some after) :
    ⟨2 ^ 32 - 1, after.length⟩ ∈ longResult.buffers .offline .default data longResultLlm longResultInput := by
  have hopen : (longResult.toRuntime .offline .default data longResultLlm).opening .offline longResultInput =
      some (longResultInput, ⟨.start .default longResultLlm ⟨.default, .unreachable, .empty⟩, data⟩) := rfl
  unfold AgentModule.buffers
  rw [hopen]
  apply List.mem_append_right
  rw [longResult_returns hwrite]
  exact List.mem_singleton_self _

/-- The module is accepted, and a run of it allocates 2³² - 1 bytes for a memory of 65536. -/
theorem buffers_exceed_memory :
    Runtime.new .offline .default longResult (List.replicate 65536 0) longResultLlm =
        .ok (longResult.toRuntime .offline .default (List.replicate 65536 0) longResultLlm) ∧
      ∃ buffer ∈ longResult.buffers .offline .default (List.replicate 65536 0) longResultLlm longResultInput,
        ¬ buffer.Fits ∧ buffer = ⟨2 ^ 32 - 1, 65536⟩ := by
  have hroom : (1 : UInt32).toNat + (Platform.offline.codec.toVec longResultInput.encode).length ≤ 65536 := by
    decide +kernel
  obtain ⟨after, hwrite, hlength⟩ : ∃ after, writeGuest (some (List.replicate 65536 0)) 1
      (Platform.offline.codec.toVec longResultInput.encode) = some after ∧ after.length = 65536 := by
    rw [writeGuest, Option.bind_some, if_pos (by rw [List.length_replicate]; exact hroom)]
    refine ⟨_, rfl, ?_⟩
    rw [List.length_append, List.length_append, List.length_take, List.length_drop, List.length_replicate]
    omega
  have hbuffer := longResult_buffers hwrite
  rw [hlength] at hbuffer
  exact ⟨rfl, ⟨2 ^ 32 - 1, 65536⟩, hbuffer, by decide, rfl⟩

end TdsWasm
