import TdsWasm.SecurityScratchpad
import TdsWasm.LibJsonSize
import Mathlib.Algebra.Order.BigOperators.Group.List
import Mathlib.Algebra.GroupWithZero.Nat

/-! How large the scratchpad can grow. The number of keys and the values are bounded by the tool, the keys by the
request that they come in, so no guest makes it exceed what the policy allows. -/

set_option autoImplicit false

namespace TdsWasm

open Decode

/-- The input of a decoded tool call has no strings that the request has not. -/
theorem ToolInvokeRequest.stringsWithin_input {levels n : Nat} {j : Json} {req : ToolInvokeRequest}
    (hwithin : j.StringsWithin n) (h : decode levels j = some req) : req.input.toJson.StringsWithin n := by
  unfold decode record at h
  cases levels with
  | zero => cases h
  | succ levels =>
      rw [enter_succ] at h
      obtain ⟨known, hknown, h⟩ := Option.bind_eq_some_iff.mp h
      obtain ⟨name, _, h⟩ := Option.bind_eq_some_iff.mp h
      obtain ⟨input, hinput, h⟩ := Option.bind_eq_some_iff.mp h
      cases h
      obtain ⟨item, hitem, hvalue⟩ := Option.bind_eq_some_iff.mp hinput
      unfold value at hvalue
      split_ifs at hvalue
      cases hvalue
      intro s hs
      exact stringsWithin_fields hwithin hknown _ (OrderedMap.mem_of_find hitem) s (Json.strings_normalize hs)

/-- A string argument is a string of the input. -/
theorem utf8ByteSize_stringArg {platform : Platform} {input : JsonValue} {field s : String} {n : Nat}
    (hwithin : input.toJson.StringsWithin n) (h : stringArg platform input field = .ok s) :
    s.utf8ByteSize ≤ n := by
  unfold stringArg at h
  cases harg : (input.get field).bind Json.asStr with
  | none =>
      rw [harg] at h
      cases h
  | some text =>
      rw [harg] at h
      cases h
      obtain ⟨item, hitem, hstr⟩ := Option.bind_eq_some_iff.mp harg
      apply hwithin
      unfold JsonValue.get at hitem
      split at hitem
      · next members hobj =>
          rw [hobj, Json.strings, Json.mem_stringsMembers]
          exact ⟨_, OrderedMap.mem_of_find hitem, Or.inr (Json.mem_strings_of_asStr hstr)⟩
      · cases hitem

/-- A request that reaches the router is within the limit. -/
theorem Caller.length_of_receive {caller : Caller} {namePtr nameLen reqPtr reqLen : UInt32} {name : String}
    {body : Bytes} (h : caller.receive namePtr nameLen reqPtr reqLen = .request name body) :
    body.length ≤ caller.data.policy.limits.maxRequestBytes := by
  unfold receive at h
  split_ifs at h with hbig
  split at h
  · next nameBytes reqBytes hname hbody =>
      split at h
      · cases h
        obtain ⟨data, _, hread⟩ := Option.bind_eq_some_iff.mp hbody
        split_ifs at hread
        cases hread
        have hle := List.length_take_le reqLen.toNat (data.drop reqPtr.toNat)
        omega
      · cases h
  · cases h

theorem HostRun.length_of_receive {run : HostRun} {move : GuestMove} {name : String} {body : Bytes}
    (h : run.receive move = some (.request name body)) :
    body.length ≤ run.data.policy.limits.maxRequestBytes := by
  unfold receive at h
  cases hinvocation : move.invocation with
  | call namePtr nameLen reqPtr reqLen =>
      rw [hinvocation] at h
      exact Caller.length_of_receive (Option.some.inj h)
  | log level ptr len =>
      rw [hinvocation] at h
      cases h
  | responseRead ptr len =>
      rw [hinvocation] at h
      cases h

/-! ### The bounds -/

/-- The scratchpad is within the limits of the policy. -/
structure Contained (policy : Policy) (kv : OrderedMap String String) : Prop where
  size_le : kv.size ≤ policy.tools.kv.maxKeys
  key_le : ∀ entry ∈ kv.entries, entry.1.utf8ByteSize ≤ policy.limits.maxRequestBytes
  value_le : ∀ entry ∈ kv.entries, entry.2.utf8ByteSize ≤ policy.tools.kv.maxValueBytes

/-- The bytes of all keys and values. -/
def storedBytes (kv : OrderedMap String String) : Nat :=
  (kv.entries.map fun entry => entry.1.utf8ByteSize + entry.2.utf8ByteSize).sum

theorem contained_empty (policy : Policy) : Contained policy .empty where
  size_le := Nat.zero_le _
  key_le entry hentry := by cases hentry
  value_le entry hentry := by cases hentry

theorem storedBytes_le {policy : Policy} {kv : OrderedMap String String} (h : Contained policy kv) :
    storedBytes kv ≤ policy.tools.kv.maxKeys * (policy.limits.maxRequestBytes + policy.tools.kv.maxValueBytes) := by
  have hentry : ∀ bytes ∈ kv.entries.map fun entry => entry.1.utf8ByteSize + entry.2.utf8ByteSize,
      bytes ≤ policy.limits.maxRequestBytes + policy.tools.kv.maxValueBytes := by
    intro bytes hbytes
    obtain ⟨entry, hmem, rfl⟩ := List.mem_map.mp hbytes
    exact Nat.add_le_add (h.key_le entry hmem) (h.value_le entry hmem)
  calc storedBytes kv
      ≤ (kv.entries.map fun entry => entry.1.utf8ByteSize + entry.2.utf8ByteSize).length *
          (policy.limits.maxRequestBytes + policy.tools.kv.maxValueBytes) := List.sum_le_card_nsmul _ _ hentry
    _ = kv.size * (policy.limits.maxRequestBytes + policy.tools.kv.maxValueBytes) := by
        rw [List.length_map]
        rfl
    _ ≤ policy.tools.kv.maxKeys * (policy.limits.maxRequestBytes + policy.tools.kv.maxValueBytes) :=
        Nat.mul_le_mul_right _ h.size_le

variable {platform : Platform}

/-- A tool call whose input comes from a request within the limit keeps the bounds. -/
theorem contained_invoke {policy : Policy} {tools : ToolBox} (hpolicy : tools.policy = policy)
    (hkv : Contained policy tools.kv) {name : String} {input : JsonValue}
    (hinput : input.toJson.StringsWithin policy.limits.maxRequestBytes) (history : History) :
    Contained policy (tools.invoke platform history name input).2.1.kv := by
  by_cases hstores : ∃ key value, ToolBox.Stores platform tools name input key value
  · obtain ⟨key, value, hstores⟩ := hstores
    have hvalue := hstores.value_le
    have hroom := hstores.room
    rw [hpolicy] at hvalue hroom
    have hsize := tools.kv.size_insert key value
    rw [ToolBox.invoke_of_stores hstores]
    refine ⟨?_, fun entry hentry => ?_, fun entry hentry => ?_⟩
    · rcases hroom with hold | hnew
      · exact (hsize.2 hold).trans_le hkv.size_le
      · exact hsize.1.trans hnew
    · rcases OrderedMap.mem_insert hentry with rfl | hmem
      · exact utf8ByteSize_stringArg hinput hstores.key_eq
      · exact hkv.key_le entry hmem
    · rcases OrderedMap.mem_insert hentry with rfl | hmem
      · exact hvalue
      · exact hkv.value_le entry hmem
  · rw [ToolBox.invoke_quiet (fun key value h => hstores ⟨key, value, h⟩)]
    exact hkv

/-- The host keeps its policy, and its scratchpad within the limits. -/
structure Bounded (policy : Policy) (run : HostRun) : Prop where
  policy_eq : run.data.policy = policy
  toolsPolicy_eq : run.data.tools.policy = policy
  contained : Contained policy run.data.tools.kv

theorem bounded_step (hdecodes : platform.codec.DecodesWithin) (policy : Policy) (run : HostRun)
    (move : GuestMove) (h : Bounded policy run) :
    Bounded policy ((HostRun.machine platform).step run move).1 := by
  have htools := toolsPolicy_step platform policy run move h.toolsPolicy_eq
  have hmoved := HostRun.step_moved platform run move
  generalize ((HostRun.machine platform).step run move).1 = next at hmoved htools ⊢
  cases hmoved with
  | quiet pending logs _ => exact ⟨h.policy_eq, htools, h.contained⟩
  | request name body hreceive state events pending hhandled =>
      have hlength := HostRun.length_of_receive hreceive
      rw [h.policy_eq] at hlength
      cases hhandled with
      | quiet name _ _ => exact ⟨h.policy_eq, htools, h.contained⟩
      | completed req hturns hread => exact ⟨h.policy_eq, htools, h.contained⟩
      | invoked req hread =>
          obtain ⟨j, hparse, hdecode⟩ := platform.codec.parse_of_fromSlice hread
          have hwithin := (hdecodes body j hparse).mono hlength
          exact ⟨h.policy_eq, htools, contained_invoke h.toolsPolicy_eq h.contained
            (ToolInvokeRequest.stringsWithin_input hwithin hdecode) run.history⟩

/-- Whatever the policy and the guest, the scratchpad of a run stays within the limits, and so does its size in
bytes. -/
theorem scratchpad_bounded (platform : Platform) (hdecodes : platform.codec.DecodesWithin) (policy : Policy)
    (llm : LlmProvider) (http : HttpClient Url 0) (moves : List GuestMove) :
    let kv := ((HostRun.machine platform).run (.start policy llm ⟨policy, http, .empty⟩) moves).data.tools.kv
    Contained policy kv ∧
      storedBytes kv ≤
        policy.tools.kv.maxKeys * (policy.limits.maxRequestBytes + policy.tools.kv.maxValueBytes) := by
  intro kv
  have hstart : Bounded policy (.start policy llm ⟨policy, http, .empty⟩) := ⟨rfl, rfl, contained_empty policy⟩
  have hbounded := (HostRun.machine platform).run_invariant (bounded_step hdecodes policy) hstart moves
  exact ⟨hbounded.contained, storedBytes_le hbounded.contained⟩

theorem scratchpad_bounded_mirror :
    let kv := ((HostRun.machine stillPlatform).run stillStart [mirrorMove, mirrorMove]).data.tools.kv
    kv.size = 1 ∧ Contained .default kv ∧ storedBytes kv ≤ 128 * (4 * 1024 * 1024 + 16 * 1024) :=
  ⟨by decide +kernel, scratchpad_bounded stillPlatform JsonCodec.decodesWithin_compact .default
    (.constant (.error (.upstream "down"))) .unreachable [mirrorMove, mirrorMove]⟩

end TdsWasm
