import TdsWasm.SecurityFrame

/-! What the numbers tell that `call` and `response_read` give back. A number that is not negative is the length
of the response, a negative one stands for a failure that changed nothing. Two things break this: a length is
cast to a signed word, and a read takes the response before it looks at the range. -/

set_option autoImplicit false

namespace TdsWasm

/-- The range is wholly inside guest memory. -/
def InRange (memory : Option Bytes) (ptr len : UInt32) : Prop :=
  ∃ data, memory = some data ∧ ptr.toNat + len.toNat ≤ data.length

theorem writeGuest_of_inRange {memory : Option Bytes} {ptr len : UInt32} {bytes : Bytes}
    (h : InRange memory ptr len) (hlen : bytes.length = len.toNat) :
    ∃ after, writeGuest memory ptr bytes = some after := by
  obtain ⟨data, rfl, hrange⟩ := h
  exact ⟨_, if_pos (hlen ▸ hrange)⟩

theorem writeGuest_of_not_inRange {memory : Option Bytes} {ptr len : UInt32} {bytes : Bytes}
    (h : ¬ InRange memory ptr len) (hlen : bytes.length = len.toNat) : writeGuest memory ptr bytes = none := by
  cases memory with
  | none => rfl
  | some data => exact if_neg fun hrange => h ⟨data, rfl, hlen ▸ hrange⟩

namespace Caller

/-- A read of the right length into memory, whatever the guest's memory is by then, delivers this response. -/
def Delivers (caller : Caller) (response : Bytes) : Prop :=
  ∀ memory ptr len, len.toNat = response.length → InRange memory ptr len →
    let read := { caller with memory := memory }.responseRead ptr len
    read.1 = Int32.ofNat len.toNat ∧ readGuest read.2.memory ptr len = some response

theorem delivers_pending (caller : Caller) : caller.Delivers caller.data.pending := by
  intro memory ptr len hlen hrange
  obtain ⟨after, hwrite⟩ := writeGuest_of_inRange hrange hlen.symm
  have hread : { caller with memory := memory }.responseRead ptr len = _ :=
    responseRead_of_write hlen.symm hwrite
  simp only [hread]
  exact ⟨trivial, readGuest_writeGuest hwrite hlen⟩

/-! ### Reads -/

variable (caller : Caller) (ptr len : UInt32)

/-- A read that gives a negative number has changed neither the host state nor the memory, and the response is
still delivered to a read of the right length. -/
def ReadKept : Prop :=
  (caller.responseRead ptr len).1 < 0 →
    (caller.responseRead ptr len).2 = caller ∧
      (caller.responseRead ptr len).2.Delivers caller.data.pending

/-- The read takes a waiting response, of the length that it asks for, and reports a failure: the range is not
inside the memory, or the length reads as a negative number. -/
def ReadLoses : Prop :=
  caller.data.pending.length = len.toNat ∧ caller.data.pending ≠ [] ∧
    (¬ InRange caller.memory ptr len ∨ 2 ^ 31 ≤ len.toNat)

theorem responseRead_of_inRange {caller : Caller} {ptr len : UInt32}
    (hlen : caller.data.pending.length = len.toNat) (hrange : InRange caller.memory ptr len) :
    ∃ memory, caller.responseRead ptr len =
      (Int32.ofNat len.toNat, { caller.setPending [] with memory := some memory }) := by
  obtain ⟨memory, hwrite⟩ := writeGuest_of_inRange hrange hlen
  exact ⟨memory, responseRead_of_write hlen hwrite⟩

theorem responseRead_of_not_inRange {caller : Caller} {ptr len : UInt32}
    (hlen : caller.data.pending.length = len.toNat) (hrange : ¬ InRange caller.memory ptr len) :
    caller.responseRead ptr len = (ErrorCode.badPointer, caller.setPending []) := by
  have hwrite := writeGuest_of_not_inRange hrange hlen
  simp only [responseRead, ne_eq, hlen, not_true, if_false, hwrite]

/-- A state that lost its response is another state. -/
theorem pending_eq_nil_of_eq {caller after : Caller} (hafter : after.data.pending = []) (h : after = caller) :
    caller.data.pending = [] := h ▸ hafter

theorem readKept_iff : caller.ReadKept ptr len ↔ ¬ caller.ReadLoses ptr len := by
  unfold ReadKept ReadLoses
  by_cases hlen : caller.data.pending.length = len.toNat
  · by_cases hrange : InRange caller.memory ptr len
    · obtain ⟨memory, hread⟩ := responseRead_of_inRange hlen hrange
      rw [hread]
      by_cases hlong : 2 ^ 31 ≤ len.toNat
      · have hneg := Word.ofNat_neg hlong len.toNat_lt
        have hpending : caller.data.pending ≠ [] := by
          intro hnil
          rw [hnil, List.length_nil] at hlen
          omega
        exact ⟨fun h => absurd (pending_eq_nil_of_eq rfl (h hneg).1) hpending,
          fun h => absurd ⟨hlen, hpending, Or.inr hlong⟩ h⟩
      · refine ⟨fun _ ⟨_, _, hbad⟩ => hbad.elim (fun h => h hrange) hlong,
          fun _ hneg => absurd hneg (Word.not_ofNat_neg (Nat.not_le.mp hlong))⟩
    · rw [responseRead_of_not_inRange hlen hrange]
      constructor
      · rintro h ⟨_, hpending, _⟩
        have hneg : ErrorCode.badPointer < 0 := by decide
        exact hpending (pending_eq_nil_of_eq rfl (h hneg).1)
      · intro h _
        have hnil : caller.data.pending = [] := by
          by_contra hpending
          exact h ⟨hlen, hpending, Or.inl hrange⟩
        have hsame : caller.setPending [] = caller := by
          rw [← hnil]
          rfl
        rw [hsame]
        exact ⟨rfl, caller.delivers_pending⟩
  · rw [responseRead_of_ne hlen]
    exact ⟨fun _ h => hlen h.1, fun _ _ => ⟨rfl, caller.delivers_pending⟩⟩

end Caller

/-- In every state that a run of any guest reaches, this is exactly when a failed read leaves the response
readable. -/
theorem failed_read_kept_iff (platform : Platform) (policy : Policy) (llm : LlmProvider) (tools : ToolBox)
    (moves : List GuestMove) (memory : Option Bytes) (ptr len : UInt32) :
    let caller := ((HostRun.machine platform).run (.start policy llm tools) moves).caller memory
    caller.ReadKept ptr len ↔ ¬ caller.ReadLoses ptr len := Caller.readKept_iff _ _ _

/-- The range ends one byte past the only page of guest memory, and the response to the call is gone. -/
theorem failed_read_loses :
    ¬ (((HostRun.machine stillPlatform).run stillStart [askedMove]).caller
      (some (List.replicate 65536 0))).ReadKept 65448 89 := by
  rw [Caller.readKept_iff, not_not]
  refine ⟨by decide +kernel, by decide +kernel, Or.inl ?_⟩
  rintro ⟨data, hdata, hrange⟩
  obtain rfl := Option.some.inj hdata
  rw [List.length_replicate] at hrange
  exact absurd hrange (by decide)

/-! ### Calls -/

namespace Caller

variable (platform : Platform) (caller : Caller) (namePtr nameLen reqPtr reqLen : UInt32)

/-- The value of a call is negative only as one of the two error codes of a call that is rejected without a
response; any other value is the exact length of the waiting response, which a read of that length delivers. -/
structure Unambiguous : Prop where
  negative : (caller.call platform namePtr nameLen reqPtr reqLen).1 < 0 →
    ((caller.call platform namePtr nameLen reqPtr reqLen).1 = ErrorCode.badPointer ∨
      (caller.call platform namePtr nameLen reqPtr reqLen).1 = ErrorCode.badRequest) ∧
    caller.receive namePtr nameLen reqPtr reqLen =
      .rejected (caller.call platform namePtr nameLen reqPtr reqLen).1 ∧
    (caller.call platform namePtr nameLen reqPtr reqLen).2 = caller
  exact : ¬ (caller.call platform namePtr nameLen reqPtr reqLen).1 < 0 →
    ∃ response, (caller.call platform namePtr nameLen reqPtr reqLen).2.data.pending = response ∧
      (caller.call platform namePtr nameLen reqPtr reqLen).1.toInt = response.length ∧
      (caller.call platform namePtr nameLen reqPtr reqLen).2.Delivers response

/-- What the call is answered with takes less than 2^31 bytes: the refusal of a request that is too large, or the
answer that the handler of the named capability gives. -/
def AnswerFits : Prop :=
  match caller.receive namePtr nameLen reqPtr reqLen with
  | .oversized => (caller.oversizedResponse platform reqLen).length < 2 ^ 31
  | .rejected _ => True
  | .request name body =>
      (respond platform (Capability.ofName name).encode
        (Capability.handle platform caller.data caller.history body (.ofName name)).1).length < 2 ^ 31

variable {platform caller namePtr nameLen reqPtr reqLen}

theorem rejected_code {code : Int32} (h : caller.receive namePtr nameLen reqPtr reqLen = .rejected code) :
    code = ErrorCode.badPointer ∨ code = ErrorCode.badRequest := by
  unfold receive at h
  split_ifs at h
  cases hname : readGuest caller.memory namePtr nameLen with
  | none =>
      rw [hname] at h
      exact Or.inl (Received.rejected.inj h).symm
  | some nameBytes =>
      cases hbody : readGuest caller.memory reqPtr reqLen with
      | none =>
          rw [hname, hbody] at h
          exact Or.inl (Received.rejected.inj h).symm
      | some body =>
          simp only [hname, hbody] at h
          cases htext : Text.fromUtf8 nameBytes with
          | none =>
              rw [htext] at h
              exact Or.inr (Received.rejected.inj h).symm
          | some name =>
              rw [htext] at h
              cases h

/-- A call that leaves a response waiting is unambiguous exactly when this response is short enough. -/
theorem unambiguous_of_response {response : Bytes} {after : Caller}
    (hcall : caller.call platform namePtr nameLen reqPtr reqLen = (Int32.ofNat response.length, after))
    (hpending : after.data.pending = response)
    (hreceive : ∀ code, caller.receive namePtr nameLen reqPtr reqLen ≠ .rejected code) :
    Unambiguous platform caller namePtr nameLen reqPtr reqLen ↔ response.length < 2 ^ 31 := by
  constructor
  · rintro ⟨hnegative, hexact⟩
    simp only [hcall] at hnegative hexact
    by_contra hlong
    by_cases hneg : Int32.ofNat response.length < 0
    · exact hreceive _ (hnegative hneg).2.1
    · obtain ⟨other, hother, hvalue, _⟩ := hexact hneg
      obtain rfl : response = other := hpending.symm.trans hother
      have hmax := (Int32.ofNat response.length).toInt_lt
      omega
  · intro hshort
    have hneg : ¬ (caller.call platform namePtr nameLen reqPtr reqLen).1 < 0 := by
      rw [hcall]
      exact Word.not_ofNat_neg hshort
    refine ⟨fun h => absurd h hneg, fun _ => ⟨response, ?_, ?_, ?_⟩⟩
    · rw [hcall, hpending]
    · rw [hcall]
      exact Int32.toInt_ofNat_of_lt hshort
    · rw [hcall, ← hpending]
      exact after.delivers_pending

theorem unambiguous_iff :
    Unambiguous platform caller namePtr nameLen reqPtr reqLen ↔
      AnswerFits platform caller namePtr nameLen reqPtr reqLen := by
  have hcall := call_eq platform caller namePtr nameLen reqPtr reqLen
  unfold AnswerFits
  cases hreceive : caller.receive namePtr nameLen reqPtr reqLen with
  | oversized =>
      rw [hreceive] at hcall
      exact unambiguous_of_response hcall rfl (fun code h => by rw [hreceive] at h; cases h)
  | rejected code =>
      rw [hreceive] at hcall
      have hcode := rejected_code hreceive
      have hneg : code < 0 := by
        rcases hcode with rfl | rfl <;> decide
      refine ⟨fun _ => trivial, fun _ => ⟨fun _ => ?_, fun h => absurd ?_ h⟩⟩
      · rw [hcall]
        exact ⟨hcode, hreceive, rfl⟩
      · rw [hcall]
        exact hneg
  | request name body =>
      rw [hreceive] at hcall
      simp only [Capability.dispatch_eq] at hcall
      exact unambiguous_of_response hcall rfl (fun code h => by rw [hreceive] at h; cases h)

end Caller

/-- In every state that a run of any guest reaches, this is exactly when the value of a call is unambiguous. -/
theorem call_unambiguous_iff (platform : Platform) (policy : Policy) (llm : LlmProvider) (tools : ToolBox)
    (moves : List GuestMove) (memory : Option Bytes) (namePtr nameLen reqPtr reqLen : UInt32) :
    let caller := ((HostRun.machine platform).run (.start policy llm tools) moves).caller memory
    caller.Unambiguous platform namePtr nameLen reqPtr reqLen ↔
      caller.AnswerFits platform namePtr nameLen reqPtr reqLen := Caller.unambiguous_iff

/-- A model that answers at such length that the call looks rejected, though the answer waits to be read. -/
theorem call_ambiguous_long : Policy.default.validate stillPlatform = .ok () ∧
    ¬ (longRun.caller longMove.memory).Unambiguous stillPlatform 0 12 12 15 := by
  refine ⟨rfl, fun hunambiguous => ?_⟩
  have hreceive : (longRun.caller longMove.memory).receive 0 12 12 15 =
      .request Cap.llmComplete (Text.utf8 "\x7b\"messages\":[]\x7d") :=
    Option.some.inj (HostRun.receive_request (by decide) (by decide) (by decide) :
      longRun.receive longMove = _)
  have hshort := Caller.unambiguous_iff.mp hunambiguous
  have hread : stillPlatform.codec.fromSlice "LlmRequest" LlmRequest.decode
      (Text.utf8 "\x7b\"messages\":[]\x7d") = .ok ⟨none, [], []⟩ := by rfl
  have hanswer : (Capability.handle stillPlatform longRun.data longRun.history
      (Text.utf8 "\x7b\"messages\":[]\x7d") .llmComplete).1 = .ok (longResponse (2 ^ 31)) := by
    unfold Capability.handle
    rw [if_neg (by decide), hread]
    rfl
  unfold Caller.AnswerFits at hshort
  rw [hreceive] at hshort
  simp only at hshort
  rw [Capability.ofName_llmComplete] at hshort
  have hlength : (respond stillPlatform (Capability.encode .llmComplete) (Capability.handle stillPlatform
      longRun.data longRun.history (Text.utf8 "\x7b\"messages\":[]\x7d") .llmComplete).1).length =
      2 ^ 31 + 116 := by
    rw [hanswer]
    exact length_longResponse (2 ^ 31)
  exact absurd hshort (hlength ▸ by omega)

end TdsWasm
