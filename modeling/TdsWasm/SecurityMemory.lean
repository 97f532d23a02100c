import TdsWasm.LibCells
import TdsWasm.SecurityReturn

/-! What the host functions do to guest memory, byte by byte. `log` and `call` read the ranges they are given
and write nothing; `response_read` writes the range it is given, when the waiting response fills it. No range
that leaves the memory is read or written. A call over one of its size limits is refused before its ranges are
looked at. -/

set_option autoImplicit false

namespace TdsWasm

/-! ### Ranges -/

/-- The bytes of the range, which lies inside the memory. -/
def Sees (memory : Option Bytes) (ptr len : UInt32) (bytes : Bytes) : Prop :=
  bytes.length = len.toNat ∧ ∃ data, memory = some data ∧ Cells.Holds data ptr.toNat bytes

/-- The memory after a write of these bytes over the range. -/
def Rewritten (before after : Option Bytes) (ptr : UInt32) (bytes : Bytes) : Prop :=
  ∃ old new, before = some old ∧ after = some new ∧ Cells.Overwritten old new ptr.toNat bytes

theorem readGuest_eq_some_iff {memory : Option Bytes} {ptr len : UInt32} {bytes : Bytes} :
    readGuest memory ptr len = some bytes ↔ Sees memory ptr len bytes := by
  unfold readGuest Sees
  cases memory with
  | none => exact ⟨nofun, fun ⟨_, _, h, _⟩ => nomatch h⟩
  | some data =>
      rw [Option.bind_some]
      constructor
      · intro h
        split_ifs at h with hinside
        obtain rfl := Option.some.inj h
        have hlen : ((data.drop ptr.toNat).take len.toNat).length = len.toNat := by
          rw [List.length_take, List.length_drop]
          omega
        refine ⟨hlen, data, rfl, ?_⟩
        rw [Cells.holds_iff, hlen]
        exact ⟨hinside, rfl⟩
      · rintro ⟨hlen, _, hdata, hholds⟩
        obtain rfl := Option.some.inj hdata
        rw [Cells.holds_iff, hlen] at hholds
        rw [if_pos hholds.1, hholds.2]

/-- A range is read exactly when it lies inside the memory. -/
theorem readGuest_of_inRange {memory : Option Bytes} {ptr len : UInt32} (h : InRange memory ptr len) :
    ∃ bytes, readGuest memory ptr len = some bytes := by
  obtain ⟨data, rfl, hinside⟩ := h
  exact ⟨_, if_pos hinside⟩

theorem readGuest_of_not_inRange {memory : Option Bytes} {ptr len : UInt32} (h : ¬ InRange memory ptr len) :
    readGuest memory ptr len = none := by
  cases memory with
  | none => rfl
  | some data => exact if_neg fun hinside => h ⟨data, rfl, hinside⟩

theorem rewritten_of_writeGuest {before : Option Bytes} {after : Bytes} {ptr : UInt32} {bytes : Bytes}
    (h : writeGuest before ptr bytes = some after) : Rewritten before (some after) ptr bytes := by
  unfold writeGuest at h
  cases before with
  | none => cases h
  | some old =>
      rw [Option.bind_some] at h
      split_ifs at h with hinside
      obtain rfl := Option.some.inj h
      exact ⟨old, _, rfl, rfl, Cells.overwritten_splice hinside⟩

/-! ### Host functions -/

namespace Caller

variable (platform : Platform) (caller : Caller)

/-- The line of a guest at this level, kept while there is room for it. -/
def record (level : Int32) (bytes : Bytes) : Caller :=
  if caller.data.logs.length < maxLogLines then
    { caller with data := { caller.data with
      logs := caller.data.logs ++ [⟨(LogLevel.fromI32 level).asStr, Text.fromUtf8Lossy bytes⟩] } }
  else caller

/-- What a call makes of the bytes of its name and of its request. -/
def serve (nameBytes reqBytes : Bytes) : Int32 × Caller :=
  match Text.fromUtf8 nameBytes with
  | none => (ErrorCode.badRequest, caller)
  | some name =>
      let (response, state, events) := dispatch platform caller.data caller.history name reqBytes
      (Int32.ofNat response.length,
        { caller with
          data := { state with pending := response }
          history := caller.history ++ events })

/-- The answer to a call that is over one of its size limits. -/
def refusal (reqLen : UInt32) : Bytes :=
  platform.codec.toVec (.obj [("err", .obj [("kind", .str "invalid"),
    ("message", .str ("capability request of " ++ toString reqLen.toNat ++ " bytes exceeds the " ++
      toString caller.data.policy.limits.maxRequestBytes ++ " byte limit"))])])

/-- `log` reads its clamped range, or does nothing. -/
structure LogTouches (level : Int32) (ptr len : UInt32) : Prop where
  memory : (caller.log level ptr len).memory = caller.memory
  inside : InRange caller.memory ptr (min len maxLogBytes) →
    ∃ bytes, Sees caller.memory ptr (min len maxLogBytes) bytes ∧ caller.log level ptr len = caller.record level bytes
  outside : ¬ InRange caller.memory ptr (min len maxLogBytes) → caller.log level ptr len = caller

/-- `call` reads both its ranges, or gives back that a pointer is bad. Over a size limit it reads neither: the refusal
is what waits then, and its length is given back. -/
structure CallTouches (namePtr nameLen reqPtr reqLen : UInt32) : Prop where
  memory : (caller.call platform namePtr nameLen reqPtr reqLen).2.memory = caller.memory
  inside : reqLen.toNat ≤ caller.data.policy.limits.maxRequestBytes → nameLen ≤ 256 →
    InRange caller.memory namePtr nameLen → InRange caller.memory reqPtr reqLen →
    ∃ nameBytes reqBytes, Sees caller.memory namePtr nameLen nameBytes ∧ Sees caller.memory reqPtr reqLen reqBytes ∧
      caller.call platform namePtr nameLen reqPtr reqLen = caller.serve platform nameBytes reqBytes
  outside : reqLen.toNat ≤ caller.data.policy.limits.maxRequestBytes → nameLen ≤ 256 →
    ¬ (InRange caller.memory namePtr nameLen ∧ InRange caller.memory reqPtr reqLen) →
    caller.call platform namePtr nameLen reqPtr reqLen = (ErrorCode.badPointer, caller)
  refused : caller.data.policy.limits.maxRequestBytes < reqLen.toNat ∨ 256 < nameLen →
    caller.call platform namePtr nameLen reqPtr reqLen =
      (Int32.ofNat (caller.refusal platform reqLen).length,
        { caller with data := { caller.data with pending := caller.refusal platform reqLen } })

/-- `response_read` writes the waiting response over its range, or leaves the memory as it is. -/
structure ReadTouches (ptr len : UInt32) : Prop where
  rewritten : (caller.responseRead ptr len).2.memory ≠ caller.memory →
    (caller.responseRead ptr len).1 = Int32.ofNat len.toNat ∧
      caller.data.pending.length = len.toNat ∧ InRange caller.memory ptr len
  returned : len.toNat < 2 ^ 31 → ((caller.responseRead ptr len).1.toInt = len.toNat ↔
    caller.data.pending.length = len.toNat ∧ InRange caller.memory ptr len)
  written : caller.data.pending.length = len.toNat → InRange caller.memory ptr len →
    Rewritten caller.memory (caller.responseRead ptr len).2.memory ptr caller.data.pending

variable {platform caller}

theorem logTouches (level : Int32) (ptr len : UInt32) : caller.LogTouches level ptr len where
  memory := by
    obtain ⟨logs, hlog⟩ := caller.log_eq level ptr len
    rw [hlog]
  inside := by
    intro hrange
    obtain ⟨bytes, hread⟩ := readGuest_of_inRange hrange
    refine ⟨bytes, readGuest_eq_some_iff.mp hread, ?_⟩
    unfold log record
    rw [hread]
  outside := by
    intro hrange
    unfold log
    rw [readGuest_of_not_inRange hrange]

theorem call_of_fits {namePtr nameLen reqPtr reqLen : UInt32}
    (hreq : reqLen.toNat ≤ caller.data.policy.limits.maxRequestBytes) (hname : nameLen ≤ 256) :
    caller.call platform namePtr nameLen reqPtr reqLen =
      match readGuest caller.memory namePtr nameLen, readGuest caller.memory reqPtr reqLen with
      | some nameBytes, some reqBytes => caller.serve platform nameBytes reqBytes
      | _, _ => (ErrorCode.badPointer, caller) := by
  have hfits : ¬ (caller.data.policy.limits.maxRequestBytes < reqLen.toNat ∨ 256 < nameLen) := by
    rw [not_or, Nat.not_lt, UInt32.not_lt]
    exact ⟨hreq, hname⟩
  simp only [call, if_neg hfits]
  cases readGuest caller.memory namePtr nameLen with
  | none => rfl
  | some nameBytes => cases readGuest caller.memory reqPtr reqLen <;> rfl

theorem call_memory (namePtr nameLen reqPtr reqLen : UInt32) :
    (caller.call platform namePtr nameLen reqPtr reqLen).2.memory = caller.memory := by
  rw [call_eq]
  cases caller.receive namePtr nameLen reqPtr reqLen <;> rfl

theorem callTouches (namePtr nameLen reqPtr reqLen : UInt32) :
    CallTouches platform caller namePtr nameLen reqPtr reqLen where
  memory := call_memory namePtr nameLen reqPtr reqLen
  inside := by
    intro hreq hname hnameRange hreqRange
    obtain ⟨nameBytes, hreadName⟩ := readGuest_of_inRange hnameRange
    obtain ⟨reqBytes, hreadReq⟩ := readGuest_of_inRange hreqRange
    refine ⟨nameBytes, reqBytes, readGuest_eq_some_iff.mp hreadName, readGuest_eq_some_iff.mp hreadReq, ?_⟩
    rw [call_of_fits hreq hname, hreadName, hreadReq]
  outside := by
    intro hreq hname hrange
    rw [call_of_fits hreq hname]
    by_cases hnameRange : InRange caller.memory namePtr nameLen
    · have hreqRange : ¬ InRange caller.memory reqPtr reqLen := fun h => hrange ⟨hnameRange, h⟩
      rw [readGuest_of_not_inRange hreqRange]
      cases readGuest caller.memory namePtr nameLen <;> rfl
    · rw [readGuest_of_not_inRange hnameRange]
  refused := by
    intro hlimit
    unfold call
    rw [if_pos hlimit]
    rfl

theorem readTouches (ptr len : UInt32) : caller.ReadTouches ptr len := by
  by_cases hlen : caller.data.pending.length = len.toNat
  · by_cases hrange : InRange caller.memory ptr len
    · obtain ⟨after, hwrite⟩ := writeGuest_of_inRange hrange hlen
      have hread := responseRead_of_write hlen hwrite
      refine ⟨fun _ => ⟨congrArg Prod.fst hread, hlen, hrange⟩, fun hshort => ?_, fun _ _ => ?_⟩
      · rw [hread]
        exact iff_of_true (Int32.toInt_ofNat_of_lt hshort) ⟨hlen, hrange⟩
      · rw [hread]
        exact rewritten_of_writeGuest hwrite
    · have hread := responseRead_of_not_inRange hlen hrange
      refine ⟨fun h => absurd (congrArg (fun read => read.2.memory) hread) h, fun _ => ?_,
        fun _ h => absurd h hrange⟩
      have hcode : (caller.responseRead ptr len).1.toInt = -1 := congrArg (fun read => read.1.toInt) hread
      exact iff_of_false (by omega) fun h => hrange h.2
  · have hread : caller.responseRead ptr len = (ErrorCode.badRequest, caller) := responseRead_of_ne hlen
    refine ⟨fun h => absurd (congrArg (fun read => read.2.memory) hread) h, fun _ => ?_, fun h => absurd h hlen⟩
    have hcode : (caller.responseRead ptr len).1.toInt = -2 := congrArg (fun read => read.1.toInt) hread
    exact iff_of_false (by omega) fun h => hlen h.1

end Caller

/-- The host functions touch guest memory only where they say. -/
theorem guest_memory_framed (platform : Platform) (caller : Caller) :
    (∀ level ptr len, caller.LogTouches level ptr len) ∧
      (∀ namePtr nameLen reqPtr reqLen, caller.CallTouches platform namePtr nameLen reqPtr reqLen) ∧
      ∀ ptr len, caller.ReadTouches ptr len :=
  ⟨Caller.logTouches, Caller.callTouches, Caller.readTouches⟩

/-- A call whose request is too large and lies nowhere is answered that it is too large, not that its pointer
is bad. -/
theorem oversized_call_answered :
    ¬ InRange (some []) 0 0xFFFFFFFF ∧
      ((stillStart.caller (some [])).call stillPlatform 0 0 0 0xFFFFFFFF).1 ≠ ErrorCode.badPointer := by
  constructor
  · rintro ⟨data, hdata, hinside⟩
    obtain rfl := Option.some.inj hdata
    exact absurd hinside (by decide)
  · decide +kernel

end TdsWasm
