import TdsWasm.BridgeCustody

/-! Where the agent starts in a run. An invocation is the delivery of the input, the agent, and the collection of
its output. Only the agent moves the host, and in a memory of 32-bit addresses it works on the very input that
the host has encoded, or on none. -/

set_option autoImplicit false

namespace TdsWasm

namespace Sandbox

variable (platform : Platform) (sandbox : Sandbox)

/-! ### The parts of an invocation -/

/-- The host hands the input over, up to where the agent has found its bytes. -/
def deliver (input : AgentInput) : GuestCall sandbox.Guest (Block × Bytes) := do
  let encoded := platform.codec.toVec input.encode
  let len := UInt32.ofNat encoded.length
  let ptr ← sandbox.tdsAlloc len
  if ptr = 0 then
    throw (.message ("agent module could not allocate " ++ toString len.toNat ++ " bytes for its input"))
  sandbox.memoryExport.write ptr encoded
  let raw ← sandbox.readInput ptr len
  return (⟨ptr, len⟩, raw)

/-- What is left of the invocation when the agent has made its output. -/
def collect (block : Block) (own : AgentOutput) : GuestCall sandbox.Guest AgentOutput := do
  let bytes := platform.codec.toVec own.encode
  sandbox.inGuest fun guest => sandbox.compute guest bytes
  let packed ← sandbox.leakToHost bytes
  sandbox.tdsDealloc block.ptr block.len
  (sandbox.agent platform).takeResult platform packed

theorem invokeAgent_delivered (input : AgentInput) :
    (sandbox.agent platform).invokeAgent platform input =
      sandbox.deliver platform input >>= fun delivered =>
        sandbox.agentOutput platform delivered.2 >>= fun own => sandbox.collect platform delivered.1 own := by
  rw [Instance.invokeAgent_eq]
  unfold Instance.runAgent deliver
  simp only [agent_memory, agent_alloc, agent_dealloc, agent_run, liftExcept_ok_bind, bind_assoc]
  apply bind_congr
  intro ptr
  by_cases hptr : ptr = 0
  · simp only [if_pos hptr]
    rfl
  · simp only [if_neg hptr, pure_bind, bind_assoc, tdsRun, collect]
    rfl

/-! ### What the parts do to the host -/

theorem quiet_deliver (input : AgentInput) : Quiet (sandbox.deliver platform input) := by
  unfold deliver
  refine (sandbox.quiet_tdsAlloc _).bind fun ptr => ?_
  split_ifs
  · exact .failure _
  · exact (Quiet.write _ _ _).bind fun _ => (sandbox.quiet_inGuest _).bind fun raw => .value _

theorem quiet_takeResult (packed : UInt64) : Quiet ((sandbox.agent platform).takeResult platform packed) := by
  unfold Instance.takeResult
  simp only [agent_memory, agent_dealloc, liftExcept_ok_bind]
  split_ifs
  · exact .failure _
  · refine (Quiet.read _ _ _).bind fun buffer => (sandbox.quiet_tdsDealloc _ _).bind fun _ => ?_
    cases platform.codec.fromSlice "AgentOutput" AgentOutput.decode buffer with
    | ok output => exact .value output
    | error e => exact .failure _

theorem quiet_collect (block : Block) (own : AgentOutput) : Quiet (sandbox.collect platform block own) :=
  (sandbox.quiet_inGuest _).bind fun _ => (sandbox.quiet_leakToHost _).bind fun packed =>
    (sandbox.quiet_tdsDealloc _ _).bind fun _ => sandbox.quiet_takeResult platform packed

/-- An invocation leaves the host as it was, or as the agent leaves it. -/
theorem invokeAgent_host (input : AgentInput) (store : Store sandbox.Guest) :
    ((sandbox.agent platform).invokeAgent platform input store).2.host =
      match sandbox.deliver platform input store with
      | (.ok delivered, begun) => (sandbox.agentOutput platform delivered.2 begun).2.host
      | (.error _, _) => store.host := by
  have hdeliver := sandbox.quiet_deliver platform input store
  rw [invokeAgent_delivered, Call.bind_apply]
  cases hdelivered : sandbox.deliver platform input store with
  | mk outcome begun =>
      rw [hdelivered] at hdeliver
      cases outcome with
      | error failure => exact hdeliver
      | ok delivered =>
          simp only [Call.bind_apply]
          cases sandbox.agentOutput platform delivered.2 begun with
          | mk made ended =>
              cases made with
              | error failure => rfl
              | ok own => exact sandbox.quiet_collect platform delivered.1 own ended

/-! ### The input that arrives -/

/-- The memory of a 32-bit module has no more bytes than addresses, when it has grown for a block. -/
def Wasm32 (sandbox : Sandbox) : Prop :=
  ∀ guest len ptr guest', sandbox.allocate guest len = (.ok ptr, guest') → ptr ≠ 0 →
    (sandbox.memory guest').length ≤ 2 ^ 32

theorem wasm32_bump : bump.Wasm32 := by
  intro guest len ptr guest' hallocate hptr
  change BumpGuest.allocate guest len = (.ok ptr, guest') at hallocate
  obtain ⟨fuel, _, hallocated⟩ := BumpGuest.burn_ok hallocate
  simp only at hallocated
  split_ifs at hallocated with hroom
  · cases hallocated
    show (guest.memory ++ List.replicate len.toNat 0).length ≤ 2 ^ 32
    rw [List.length_append, List.length_replicate]
    exact hroom.2.1.le
  · cases hallocated
    exact absurd rfl hptr

variable {platform} {sandbox}

/-- An agent that can decode what it finds has got the input that the host has encoded. An encoding whose length
does not fit a word is never decoded: no memory holds it, and of length zero the agent reads nothing. -/
theorem input_of_deliver {input received : AgentInput} {store begun : Store sandbox.Guest}
    {delivered : Block × Bytes} (hword : sandbox.Wasm32)
    (h : sandbox.deliver platform input store = (.ok delivered, begun))
    (hread : platform.codec.fromSlice "AgentInput" AgentInput.decode delivered.2 = .ok received) :
    received = input := by
  have hinput : platform.codec.fromSlice "AgentInput" AgentInput.decode (platform.codec.toVec input.encode) =
      .ok input := platform.codec.fromSlice_toVec (platform.numbers _) (AgentInput.decode_encode input _)
  unfold deliver at h
  obtain ⟨ptr, allocated, halloc, h⟩ := Call.bind_eq_ok h
  by_cases hptr : ptr = 0
  · rw [if_pos hptr] at h
    cases h
  rw [if_neg hptr] at h
  obtain ⟨_, written, hwrite, h⟩ := Call.bind_eq_ok h
  obtain ⟨raw, found, hfound, h⟩ := Call.bind_eq_ok h
  cases h
  obtain ⟨hbytes, _⟩ := readInput_ok hfound
  by_cases hlen : UInt32.ofNat (platform.codec.toVec input.encode).length = 0
  · -- nothing is read
    rw [hlen, readGuest, Option.bind_some] at hbytes
    split_ifs at hbytes
    cases hbytes
    have hnil : platform.codec.fromSlice "AgentInput" AgentInput.decode [] = .ok received := hread
    rw [JsonCodec.fromSlice, platform.codec.parse_nil] at hnil
    cases hnil
  · have hallotted := allotted_of_tdsAlloc halloc hptr hlen
    by_cases hsize : (platform.codec.toVec input.encode).length < 2 ^ 32
    · obtain ⟨_, hagain, hheld, _, _⟩ := write_allotted hallotted (UInt32.toNat_ofNat_of_lt' hsize)
      rw [hwrite] at hagain
      cases hagain
      rw [hheld] at hbytes
      cases hbytes
      exact Except.ok.inj (hread.symm.trans hinput)
    · -- no memory holds it
      have hmemory : (sandbox.memory allocated.guest).length ≤ 2 ^ 32 := by
        unfold tdsAlloc at halloc
        rw [if_neg hlen] at halloc
        split_ifs at halloc
        · cases halloc
          exact absurd rfl hptr
        · obtain ⟨guest, hallocate, rfl⟩ := inGuest_ok halloc
          exact hword _ _ _ _ hallocate hptr
      have hroom : ¬ ptr.toNat + (platform.codec.toVec input.encode).length ≤
          (sandbox.memory allocated.guest).length := by
        have habove := hallotted.above
        simp only at habove
        omega
      obtain ⟨data, hdata, _⟩ := GuestMemory.write_ok hwrite
      rw [writeGuest, Option.bind_some] at hdata
      cases hdata.symm.trans (if_neg hroom)

end Sandbox

end TdsWasm
