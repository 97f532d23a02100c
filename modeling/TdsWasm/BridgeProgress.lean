import TdsWasm.BridgeDirect
import TdsWasm.SecurityMemory

/-! Runs that are not stopped. What a sandbox has left is counted in steps and in bytes. As long as it lasts, the
guest gets whatever it asks for, and an agent whose questions the channel carries comes to its output. -/

set_option autoImplicit false

namespace TdsWasm

/-- The bytes that the arguments of a host function take. -/
def HostImport.size : HostImport → Nat
  | .log _ message => message.length
  | .call name request => name.length + request.length
  | .responseRead len => len.toUInt32.toNat

namespace Sandbox

/-- What a sandbox has left, in steps and in bytes. A step is enough for anything that the guest does, when the bytes
are there that it needs. -/
structure Supply (sandbox : Sandbox) where
  Has : sandbox.Guest → Nat → Nat → Prop
  bytes_le : ∀ guest steps bytes, Has guest steps bytes → bytes ≤ isizeMax
  mono : ∀ guest steps bytes steps' bytes', Has guest steps bytes → steps' ≤ steps → bytes' ≤ bytes →
    Has guest steps' bytes'
  set : ∀ guest steps bytes data, Has guest steps bytes → data.length = (sandbox.memory guest).length →
    Has (sandbox.setMemory guest data) steps bytes
  place : ∀ guest steps bytes op, Has guest (steps + 1) (op.size + bytes) →
    ∃ placement guest', sandbox.place guest op = (.ok placement, guest') ∧
      ∀ data, data.length = placement.memory.length → Has (sandbox.setMemory guest' data) steps bytes
  compute : ∀ guest steps bytes data, Has guest (steps + 1) bytes → data.length ≤ isizeMax →
    ∃ guest', sandbox.compute guest data = (.ok (), guest') ∧ Has guest' steps bytes
  allocate : ∀ guest steps bytes len, Has guest (steps + 1) (len.toNat + bytes) →
    ∃ ptr guest', sandbox.allocate guest len = (.ok ptr, guest') ∧ ptr ≠ 0 ∧ Has guest' steps bytes
  release : ∀ guest steps bytes block, Has guest (steps + 1) bytes →
    ∃ guest', sandbox.release guest block = (.ok (), guest') ∧ Has guest' steps bytes

end Sandbox

/-! ### The growing allocator -/

/-- The fuel that is left are the steps, and the bytes are those up to the largest size of an allocation. -/
structure BumpGuest.Has (guest : BumpGuest) (steps bytes : Nat) : Prop where
  fuel : steps ≤ guest.fuel
  base : 1 < guest.memory.length
  room : guest.memory.length + bytes ≤ Sandbox.isizeMax
  inside : ∀ block ∈ guest.handed, block.ptr.toNat + block.len.toNat ≤ guest.memory.length

instance (guest : BumpGuest) (steps bytes : Nat) : Decidable (guest.Has steps bytes) :=
  decidable_of_iff (steps ≤ guest.fuel ∧ 1 < guest.memory.length ∧ guest.memory.length + bytes ≤ Sandbox.isizeMax ∧
    ∀ block ∈ guest.handed, block.ptr.toNat + block.len.toNat ≤ guest.memory.length)
    ⟨fun ⟨fuel, base, room, inside⟩ => ⟨fuel, base, room, inside⟩, fun h => ⟨h.fuel, h.base, h.room, h.inside⟩⟩

namespace BumpGuest.Has

variable {guest : BumpGuest} {steps bytes : Nat} {α : Type}

theorem burn (h : guest.Has (steps + 1) bytes) (code : BumpGuest → Except Trap α × BumpGuest) :
    ∃ fuel, steps ≤ fuel ∧ guest.burn code = code { guest with fuel := fuel } := by
  obtain ⟨fuel, hfuel⟩ := Nat.exists_eq_add_one.mpr (Nat.lt_of_lt_of_le (Nat.succ_pos steps) h.fuel)
  refine ⟨fuel, ?_, ?_⟩
  · have hsteps := h.fuel
    omega
  · unfold BumpGuest.burn
    rw [hfuel]

theorem place {op : HostImport} (h : guest.Has (steps + 1) (op.size + bytes)) :
    ∃ placement guest', guest.place op = (.ok placement, guest') ∧
      ∀ data : Bytes, data.length = placement.memory.length →
        Has ({ guest' with memory := data } : BumpGuest) steps bytes := by
  have hsize : (argumentBytes op).length = op.size := by
    cases op with
    | log level message => rfl
    | call name request => exact List.length_append
    | responseRead len => exact List.length_replicate
  have hroom := h.room
  obtain ⟨fuel, hfuel, hburn⟩ := h.burn fun guest =>
    if guest.memory.length + (argumentBytes op).length < 2 ^ 32 then
      (.ok (⟨guest.memory ++ argumentBytes op, UInt32.ofNat guest.memory.length,
        UInt32.ofNat (guest.memory.length + firstLength op)⟩ : Placement), guest)
    else (.error .unreachableCodeReached, guest)
  have hfits : guest.memory.length + (argumentBytes op).length < 2 ^ 32 := by
    rw [hsize]
    exact Nat.lt_of_le_of_lt (by omega) (by decide : Sandbox.isizeMax < 2 ^ 32)
  have hbase := h.base
  refine ⟨_, _, hburn.trans (if_pos hfits), fun data hdata => ?_⟩
  have hgrown : data.length = guest.memory.length + op.size := by
    rw [← hsize, ← List.length_append]
    exact hdata
  refine ⟨hfuel, show 1 < data.length by omega, show data.length + bytes ≤ Sandbox.isizeMax by omega, ?_⟩
  intro block hmem
  exact (h.inside block hmem).trans (show guest.memory.length ≤ data.length by omega)

theorem compute {data : Bytes} (h : guest.Has (steps + 1) bytes) (hdata : data.length ≤ Sandbox.isizeMax) :
    ∃ guest', guest.compute data = (.ok (), guest') ∧ guest'.Has steps bytes := by
  obtain ⟨fuel, hfuel, hburn⟩ := h.burn fun guest =>
    if data.length < 2 ^ 32 then (.ok (), guest) else (.error .unreachableCodeReached, guest)
  have hfits : data.length < 2 ^ 32 := Nat.lt_of_le_of_lt hdata (by decide)
  exact ⟨_, hburn.trans (if_pos hfits), hfuel, h.base, h.room, h.inside⟩

theorem allocate {len : UInt32} (h : guest.Has (steps + 1) (len.toNat + bytes)) :
    ∃ ptr guest', guest.allocate len = (.ok ptr, guest') ∧ ptr ≠ 0 ∧ guest'.Has steps bytes := by
  obtain ⟨fuel, hfuel, hburn⟩ := h.burn fun guest =>
    if 1 < guest.memory.length ∧ guest.memory.length + len.toNat < 2 ^ 32 ∧
        ∀ block ∈ guest.handed, block.ptr.toNat + block.len.toNat ≤ guest.memory.length then
      (.ok (UInt32.ofNat guest.memory.length),
        { guest with
          memory := guest.memory ++ List.replicate len.toNat 0
          handed := ⟨UInt32.ofNat guest.memory.length, len⟩ :: guest.handed })
    else (.ok 0, guest)
  have hbase := h.base
  have hroom := h.room
  have hsmall : guest.memory.length + len.toNat ≤ Sandbox.isizeMax := by omega
  have hfits : guest.memory.length + len.toNat < 2 ^ 32 := Nat.lt_of_le_of_lt hsmall (by decide)
  have haddress : (UInt32.ofNat guest.memory.length).toNat = guest.memory.length :=
    UInt32.toNat_ofNat_of_lt' (by show _ < 2 ^ 32; omega)
  refine ⟨_, _, hburn.trans (if_pos ⟨hbase, hfits, h.inside⟩), ?_, hfuel, ?_, ?_, ?_⟩
  · intro hzero
    have hnull : guest.memory.length = 0 := by
      rw [← haddress, hzero]
      rfl
    omega
  all_goals simp only [List.length_append, List.length_replicate]
  · omega
  · omega
  · refine List.forall_mem_cons.mpr ⟨?_, fun block hmem => ?_⟩
    · rw [haddress]
    · have hinside := h.inside block hmem
      omega

theorem release (block : Block) (h : guest.Has (steps + 1) bytes) :
    ∃ guest', guest.release block = (.ok (), guest') ∧ guest'.Has steps bytes := by
  obtain ⟨fuel, hfuel, hburn⟩ := h.burn fun guest =>
    ((.ok () : Except Trap Unit), { guest with handed := guest.handed.erase block })
  exact ⟨_, hburn, hfuel, h.base, h.room, fun kept hmem => h.inside kept (List.mem_of_mem_erase hmem)⟩

end BumpGuest.Has

def Sandbox.supplyBump : Sandbox.bump.Supply where
  Has := BumpGuest.Has
  bytes_le _ _ _ h := Nat.le_trans (Nat.le_add_left _ _) h.room
  mono _ _ _ _ _ h hsteps hbytes :=
    ⟨hsteps.trans h.fuel, h.base, (Nat.add_le_add_left hbytes _).trans h.room, h.inside⟩
  set _ _ _ _ h hdata := ⟨h.fuel, hdata ▸ h.base, hdata ▸ h.room, hdata ▸ h.inside⟩
  place _ _ _ _ h := h.place
  compute _ _ _ _ h hdata := h.compute hdata
  allocate _ _ _ _ h := h.allocate
  release _ _ _ block h := h.release block

/-! ### Host functions -/

/-- Whatever the guest calls, its memory keeps its size. -/
theorem HostRun.memory_step (platform : Platform) (run : HostRun) (memory : Bytes) (invocation : Invocation) :
    ∃ after, (run.step platform ⟨some memory, invocation⟩).2.memory = some after ∧
      after.length = memory.length := by
  cases invocation with
  | log level ptr len => exact ⟨memory, (Caller.logTouches level ptr len).memory, rfl⟩
  | call namePtr nameLen reqPtr reqLen => exact ⟨memory, Caller.call_memory namePtr nameLen reqPtr reqLen, rfl⟩
  | responseRead ptr len =>
      have htouches : (run.caller (some memory)).ReadTouches ptr len := Caller.readTouches ptr len
      show ∃ after, ((run.caller (some memory)).responseRead ptr len).2.memory = some after ∧ _
      by_cases hkept : ((run.caller (some memory)).responseRead ptr len).2.memory = some memory
      · exact ⟨memory, hkept, rfl⟩
      · obtain ⟨_, hlen, hrange⟩ := htouches.rewritten hkept
        obtain ⟨old, new, hold, hnew, hwritten⟩ := htouches.written hlen hrange
        obtain rfl := Option.some.inj hold
        exact ⟨new, hnew, hwritten.length⟩

namespace Sandbox.Supply

variable {platform : Platform} {sandbox : Sandbox} (supply : sandbox.Supply) {store : Store sandbox.Guest}
  {steps bytes : Nat} {α : Type}

variable (platform) in
theorem serve {op : HostImport} (h : supply.Has store.guest (steps + 1) (op.size + bytes)) :
    ∃ answer final, sandbox.serve platform store op = (.ok answer, final) ∧ supply.Has final.guest steps bytes := by
  obtain ⟨placement, guest, hplace, hset⟩ := supply.place _ _ _ _ h
  obtain ⟨after, hafter, hlength⟩ :=
    HostRun.memory_step platform store.host placement.memory (placement.invocation op)
  have hserve : sandbox.serve platform store op =
      (.ok (placement.answer (store.host.step platform (placement.move op)).2 op),
        ⟨(store.host.step platform (placement.move op)).1, sandbox.setMemory guest
          ((store.host.step platform (placement.move op)).2.memory.getD [])⟩) := by
    simp only [Sandbox.serve, hplace]
  refine ⟨_, _, hserve, ?_⟩
  show supply.Has (sandbox.setMemory guest
    ((store.host.step platform ⟨some placement.memory, placement.invocation op⟩).2.memory.getD [])) steps bytes
  rw [hafter]
  exact hset after hlength

theorem receiveResponse {name : String} {decode : Nat → Json → Option α} {n : Int32}
    (h : supply.Has store.guest (steps + 1) (n.toUInt32.toNat + bytes)) :
    ∃ answer final, (receiveResponse platform.codec name decode n).exec (sandbox.serve platform) store =
      (.ok answer, final) ∧ supply.Has final.guest steps bytes := by
  have hless : supply.Has store.guest steps bytes :=
    supply.mono _ _ _ _ _ h (Nat.le_succ steps) (Nat.le_add_left _ _)
  unfold TdsWasm.receiveResponse
  by_cases hneg : n < 0
  · rw [if_pos hneg]
    exact ⟨_, store, rfl, hless⟩
  rw [if_neg hneg]
  by_cases hpos : 0 < n
  · rw [if_pos hpos]
    have hread : supply.Has store.guest (steps + 1) ((HostImport.responseRead n).size + bytes) := h
    obtain ⟨read, final, hserve, hfinal⟩ := supply.serve platform hread
    rw [Program.exec_ask_ok hserve]
    by_cases hsame : read.1 ≠ n
    · rw [if_pos hsame]
      exact ⟨_, final, rfl, hfinal⟩
    · rw [if_neg hsame]
      exact ⟨_, final, rfl, hfinal⟩
  · rw [if_neg hpos]
    exact ⟨_, store, rfl, hless⟩

/-- A call that fits takes the bytes of its two documents, and a step for each of them. -/
theorem hostCall {name : String} {body : Bytes} {decode : Nat → Json → Option α}
    (hname : (Text.utf8 name).length ≤ 256) (hfits : Fitting platform store.host name body)
    (h : supply.Has store.guest (steps + 2) ((Text.utf8 name).length + body.length +
      (dispatch platform store.host.data store.host.history name body).1.length + bytes)) :
    ∃ answer final, (hostCall platform.codec name body decode).exec (sandbox.serve platform) store =
      (.ok answer, final) ∧ supply.Has final.guest steps bytes := by
  obtain ⟨hbody, hsize⟩ := hfits
  cases hdispatch : dispatch platform store.host.data store.host.history name body with
  | mk response left =>
      rw [hdispatch] at h hsize
      obtain ⟨placement, guest, hplace, hset⟩ := supply.place store.guest (steps + 1) (response.length + bytes)
        (.call (Text.utf8 name) body) (by rw [HostImport.size, ← Nat.add_assoc]; exact h)
      have hserve := serve_request platform hname hbody hplace
      rw [hdispatch] at hserve
      rw [TdsWasm.hostCall, Program.exec_ask_ok hserve]
      apply supply.receiveResponse
      have hn : (Int32.ofNat response.length).toUInt32.toNat = response.length :=
        UInt32.toNat_ofNat_of_lt' (hsize.trans (by decide))
      rw [hn]
      exact hset placement.memory rfl

end Sandbox.Supply

/-! ### Questions -/

namespace Standing

variable (platform : Platform)

/-- The bytes of a question: those of the line, or those of the documents of the call. -/
def load (standing : Standing) (op : AgentOp) : Nat :=
  match op with
  | .emit _ message => (Text.utf8 message).length
  | op => match standing.call platform op with
    | some (name, request, response) => (Text.utf8 name).length + request.length + response.length
    | none => 0

/-- The bytes of the questions that an agent comes to. -/
def loads : List (Standing × AgentProgram AgentOutput) → Nat
  | [] => 0
  | (_, .done _) :: rest => loads rest
  | (standing, .ask op _) :: rest => standing.load platform op + loads rest

end Standing

namespace Sandbox.Supply

variable {platform : Platform} {sandbox : Sandbox} (supply : sandbox.Supply) {store : Store sandbox.Guest}
  {steps bytes : Nat}

theorem agentHost {op : AgentOp} (hclear : store.host.standing.Clear platform op)
    (hcarries : store.host.standing.Carries platform op)
    (h : supply.Has store.guest (steps + 2) (store.host.standing.load platform op + bytes)) :
    ∃ answer final, sandbox.agentHost platform store op = (.ok answer, final) ∧
      supply.Has final.guest steps bytes := by
  have hcarried := carried_of_carries hclear hcarries
  cases op with
  | emit level message =>
      have hplaced : supply.Has store.guest (steps + 1)
          ((HostImport.log level.toI32 (Text.utf8 message)).size + bytes) :=
        supply.mono _ _ _ _ _ h (Nat.le_succ _) le_rfl
      obtain ⟨answer, final, hserve, hfinal⟩ := supply.serve platform hplaced
      exact ⟨(), final, Program.exec_ask_ok hserve Program.done, hfinal⟩
  | toolsList =>
      refine supply.hostCall (by decide) hcarried ?_
      rw [routes_toolsList.response]
      exact h
  | toolInvoke request =>
      refine supply.hostCall (by decide) hcarried ?_
      rw [(routes_toolInvoke hclear).response]
      exact h
  | llmComplete request =>
      refine supply.hostCall (by decide) hcarried ?_
      rw [(routes_llmComplete hclear).response]
      exact h

variable (platform) in
/-- There are two steps and the bytes for each of the questions, and the channel carries them. -/
def Ready (steps bytes : Nat) (store : Store sandbox.Guest) (visits : List (Standing × AgentProgram AgentOutput)) :
    Prop :=
  supply.Has store.guest (2 * visits.length + steps) (Standing.loads platform visits + bytes) ∧
    ∀ visit ∈ visits, Standing.CarriesAt platform visit

/-- A sandbox that is ready for a question answers it as the host does, and stays ready for the rest. -/
theorem agentHost_of_ready {op : AgentOp} {next : agentSignature.Answer op → AgentProgram AgentOutput}
    {rest : List (Standing × AgentProgram AgentOutput)} (hclear : store.host.standing.Clear platform op)
    (h : supply.Ready platform steps bytes store ((store.host.standing, .ask op next) :: rest)) :
    ∃ served, sandbox.agentHost platform store op = (.ok (store.host.standing.answer platform op).1, served) ∧
      served.host.standing = (store.host.standing.answer platform op).2 ∧
        supply.Ready platform steps bytes served rest := by
  obtain ⟨hhas, hcarries⟩ := h
  obtain ⟨hcarriesOp, hcarriesRest⟩ := List.forall_mem_cons.mp hcarries
  rw [Standing.loads, Nat.add_assoc, List.length_cons, Nat.mul_succ, Nat.add_right_comm] at hhas
  obtain ⟨answer, served, hasked, hserved⟩ := supply.agentHost hclear hcarriesOp hhas
  rw [answer_of_agentHost (carried_of_carries hclear hcarriesOp) hclear hasked]
  exact ⟨served, hasked, rfl, hserved, hcarriesRest⟩

/-- An agent in a sandbox that is ready for its questions comes to what it comes to without the channel. -/
theorem exec_of_derives {input : AgentInput} {standing left : Standing} {output : AgentOutput}
    (h : Program.Derives (Standing.answer platform) (Standing.Clear platform) (runAgent input) standing output left)
    (hstanding : store.host.standing = standing)
    (hready : supply.Ready platform steps bytes store
      ((runAgent input).visits (Standing.answer platform).unstopped standing)) :
    ∃ final, (runAgent input).exec (sandbox.agentHost platform) store = (.ok output, final) ∧
      supply.Has final.guest steps bytes := by
  obtain ⟨final, hexec, hhas, _⟩ := h.exec_of_ready (fun store : Store sandbox.Guest => store.host.standing)
    (supply.Ready platform steps bytes) (fun _ _ _ _ => supply.agentHost_of_ready) hstanding hready
  rw [List.length_nil, Nat.mul_zero, Nat.zero_add, Standing.loads, Nat.zero_add] at hhas
  exact ⟨final, hexec, hhas⟩

/-! ### Exports -/

theorem inGuest_of_ok {α : Type} {code : sandbox.Guest → Except Trap α × sandbox.Guest} {value : α}
    {guest : sandbox.Guest} (h : code store.guest = (.ok value, guest)) :
    sandbox.inGuest code store = (.ok value, { store with guest := guest }) := by
  unfold inGuest
  rw [h]
  rfl

theorem tdsAlloc {len : UInt32} (hlen : len ≠ 0) (h : supply.Has store.guest (steps + 1) (len.toNat + bytes)) :
    ∃ ptr final, sandbox.tdsAlloc len store = (.ok ptr, final) ∧ ptr ≠ 0 ∧
      supply.Has final.guest steps bytes := by
  have hsize : len.toNat ≤ isizeMax := (Nat.le_add_right _ _).trans (supply.bytes_le _ _ _ h)
  obtain ⟨ptr, guest, hallocate, hptr, hhas⟩ := supply.allocate _ _ _ _ h
  refine ⟨ptr, { store with guest := guest }, ?_, hptr, hhas⟩
  unfold Sandbox.tdsAlloc
  rw [if_neg hlen, if_neg (Nat.not_lt.mpr hsize)]
  exact inGuest_of_ok hallocate

theorem tdsDealloc (ptr len : UInt32) (h : supply.Has store.guest (steps + 1) bytes) :
    ∃ final, sandbox.tdsDealloc ptr len store = (.ok (), final) ∧ supply.Has final.guest steps bytes := by
  have hless : supply.Has store.guest steps bytes := supply.mono _ _ _ _ _ h (Nat.le_succ steps) le_rfl
  obtain ⟨guest, hrelease, hhas⟩ := supply.release _ _ _ ⟨ptr, len⟩ h
  unfold Sandbox.tdsDealloc
  split_ifs
  · exact ⟨store, rfl, hless⟩
  · exact ⟨store, rfl, hless⟩
  · exact ⟨{ store with guest := guest }, inGuest_of_ok hrelease, hhas⟩

/-- What is written over a range of the memory leaves its size. -/
theorem setMemory {ptr : UInt32} {data after : Bytes} (h : supply.Has store.guest steps bytes)
    (hwrite : writeGuest (some (sandbox.memory store.guest)) ptr data = some after) :
    supply.Has (sandbox.setMemory store.guest after) steps bytes := by
  obtain ⟨old, new, hold, hnew, hwritten⟩ := rewritten_of_writeGuest hwrite
  obtain rfl := Option.some.inj hold
  obtain rfl := Option.some.inj hnew
  exact supply.set _ _ _ _ h hwritten.length

theorem leakToHost {data : Bytes} (hne : UInt32.ofNat data.length ≠ 0)
    (h : supply.Has store.guest (steps + 1) (data.length + bytes)) :
    ∃ packed final, sandbox.leakToHost data store = (.ok packed, final) ∧ packed ≠ packPtrLen 0 0 ∧
      supply.Has final.guest steps bytes := by
  have hsize : data.length < 2 ^ 32 :=
    Nat.lt_of_le_of_lt ((Nat.le_add_right _ _).trans (supply.bytes_le _ _ _ h)) (by decide)
  have hlen : (UInt32.ofNat data.length).toNat = data.length := UInt32.toNat_ofNat_of_lt' hsize
  obtain ⟨ptr, allocated, halloc, hptr, hhas⟩ := supply.tdsAlloc hne (by rw [hlen]; exact h)
  have hinside := (allotted_of_tdsAlloc halloc hptr hne).inside
  simp only [hlen] at hinside
  obtain ⟨after, hwrite⟩ : ∃ after, writeGuest (some (sandbox.memory allocated.guest)) ptr data = some after :=
    ⟨_, if_pos hinside⟩
  refine ⟨packPtrLen ptr (UInt32.ofNat data.length),
    { allocated with guest := sandbox.setMemory allocated.guest after }, ?_, ?_, supply.setMemory hhas hwrite⟩
  · unfold Sandbox.leakToHost
    rw [Call.bind_of_ok halloc, if_neg hptr]
    refine Call.bind_of_ok (a := ()) (inGuest_of_ok ?_) _
    simp only [hwrite]
  · intro hnull
    have hunpacked := congrArg unpackPtrLen hnull
    rw [unpack_pack, unpack_pack] at hunpacked
    exact hptr (congrArg Prod.fst hunpacked)

end Sandbox.Supply

/-! ### Invocations -/

namespace Sandbox.InputPassed

variable {platform : Platform} {sandbox : Sandbox} {input : AgentInput}
  {entered freed freed' allocated allocated' written written' returned returned' : Store sandbox.Guest}
  {packed packed' : UInt64} {block block' : Block}
  (h : InputPassed platform sandbox input entered freed packed block allocated written returned)

include h

theorem ptr_ne : block.ptr ≠ 0 := (ptr_ne_of_above h.allotted.above).1

/-- The agent has returned. -/
theorem returns : (sandbox.agent platform).runAgent platform input entered = (.ok packed, freed) := by
  have halloc := h.alloc
  have hrun := h.run
  have hfree := h.free
  rw [h.len_eq] at halloc hrun hfree
  unfold Instance.runAgent
  simp only [agent_memory, agent_alloc, agent_dealloc, agent_run, liftExcept_ok_bind]
  rw [Call.bind_of_ok halloc, if_neg h.ptr_ne, Call.bind_of_ok h.write, Call.bind_of_ok hrun, Call.bind_of_ok hfree]
  rfl

/-- It has done so in one way only. -/
theorem unique (h' : InputPassed platform sandbox input entered freed' packed' block' allocated' written' returned') :
    written = written' ∧ packed = packed' := by
  obtain ⟨ptr, len⟩ := block
  obtain ⟨ptr', len'⟩ := block'
  obtain rfl : len = len' := h.len_eq.trans h'.len_eq.symm
  cases h.alloc.symm.trans h'.alloc
  cases h.write.symm.trans h'.write
  cases h.run.symm.trans h'.run
  exact ⟨rfl, rfl⟩

end Sandbox.InputPassed

namespace Sandbox.Supply

variable {platform : Platform} {sandbox : Sandbox} (supply : sandbox.Supply) {store : Store sandbox.Guest}
  {steps bytes : Nat}

section Invocations

variable {input : AgentInput} {standing left : Standing} {output : AgentOutput}

theorem tdsRun {ptr len : UInt32}
    (hread : readGuest (some (sandbox.memory store.guest)) ptr len = some (platform.codec.toVec input.encode))
    (h : Program.Derives (Standing.answer platform) (Standing.Clear platform) (runAgent input) standing output left)
    (hstanding : store.host.standing = standing)
    (hready : supply.Ready platform (steps + 2) ((platform.codec.toVec output.encode).length + bytes) store
      ((runAgent input).visits (Standing.answer platform).unstopped standing)) :
    ∃ packed ended final, (runAgent input).exec (sandbox.agentHost platform) store = (.ok output, ended) ∧
      sandbox.tdsRun platform ptr len store = (.ok packed, final) ∧ packed ≠ packPtrLen 0 0 ∧
        supply.Has final.guest steps bytes := by
  obtain ⟨ended, hexec, hended⟩ := supply.exec_of_derives h hstanding hready
  have hinput : platform.codec.fromSlice "AgentInput" AgentInput.decode (platform.codec.toVec input.encode) =
      .ok input := platform.codec.fromSlice_toVec (platform.numbers _) (AgentInput.decode_encode input _)
  have hown : sandbox.agentOutput platform (platform.codec.toVec input.encode) store = (.ok output, ended) := by
    unfold agentOutput
    simp only [hinput]
    exact (Program.exec_translate _ _ _ _).trans hexec
  have hsize : (platform.codec.toVec output.encode).length ≤ isizeMax :=
    (Nat.le_add_right _ _).trans (supply.bytes_le _ _ _ hended)
  obtain ⟨guest, hcompute, hcomputed⟩ := supply.compute _ _ _ _ hended hsize
  have hne := toVec_length_ne platform (Nat.lt_of_le_of_lt hsize (by decide))
  have hleaks : supply.Has (⟨ended.host, guest⟩ : Store sandbox.Guest).guest (steps + 1)
    ((platform.codec.toVec output.encode).length + bytes) := hcomputed
  obtain ⟨packed, final, hleak, hpacked, hfinal⟩ := supply.leakToHost hne hleaks
  refine ⟨packed, ended, final, hexec, ?_, hpacked, hfinal⟩
  calc sandbox.tdsRun platform ptr len store = _ := Call.bind_of_ok (readInput_of_some hread) _
    _ = _ := Call.bind_of_ok hown _
    _ = _ := Call.bind_of_ok (inGuest_of_ok hcompute) _
    _ = (.ok packed, final) := hleak

/-- The host takes a result without a trap. -/
theorem takeResult_not_trapped (packed : UInt64) (h : supply.Has store.guest (steps + 1) bytes) (trap : Trap)
    (final : Store sandbox.Guest) :
    (sandbox.agent platform).takeResult platform packed store ≠ (.error (.trap trap), final) := by
  intro htake
  unfold Instance.takeResult at htake
  simp only [agent_memory, agent_dealloc, liftExcept_ok_bind] at htake
  split_ifs at htake
  · cases htake
  · rcases Call.bind_eq_error htake with hread | ⟨buffer, found, hread, hrest⟩
    · rw [GuestMemory.read_apply] at hread
      split at hread <;> cases hread
    · obtain ⟨_, hfound⟩ := GuestMemory.read_ok hread
      obtain ⟨freed, hfree, _⟩ := supply.tdsDealloc _ _ h
      rw [hfound, Call.bind_of_ok hfree] at hrest
      cases hdecoded : platform.codec.fromSlice "AgentOutput" AgentOutput.decode buffer with
      | ok own =>
          simp only [hdecoded] at hrest
          cases hrest
      | error e =>
          simp only [hdecoded] at hrest
          cases hrest

/-- The input is handed over, and the agent returns with its output. -/
theorem passes
    (h : Program.Derives (Standing.answer platform) (Standing.Clear platform) (runAgent input) standing output left)
    (hstanding : store.host.standing = standing)
    (hready : supply.Ready platform (steps + 4)
      ((platform.codec.toVec input.encode).length + ((platform.codec.toVec output.encode).length + bytes)) store
      ((runAgent input).visits (Standing.answer platform).unstopped standing)) :
    ∃ packed block allocated written returned freed ended,
      InputPassed platform sandbox input store freed packed block allocated written returned ∧
        (runAgent input).exec (sandbox.agentHost platform) written = (.ok output, ended) ∧
          packed ≠ packPtrLen 0 0 ∧ supply.Has freed.guest steps bytes := by
  obtain ⟨visits, hvisits⟩ : ∃ visits,
      (runAgent input).visits (Standing.answer platform).unstopped standing = visits := ⟨_, rfl⟩
  rw [hvisits] at hready
  obtain ⟨hhas, hcarries⟩ := hready
  have hmax := supply.bytes_le _ _ _ hhas
  have hword : isizeMax < 2 ^ 32 := by decide
  have hsize : (platform.codec.toVec input.encode).length < 2 ^ 32 := by omega
  have hne := toVec_length_ne platform hsize
  have hlen : (UInt32.ofNat (platform.codec.toVec input.encode).length).toNat =
      (platform.codec.toVec input.encode).length := UInt32.toNat_ofNat_of_lt' hsize
  have hasks : supply.Has store.guest (2 * visits.length + (steps + 3) + 1)
      ((UInt32.ofNat (platform.codec.toVec input.encode).length).toNat +
        (Standing.loads platform visits + ((platform.codec.toVec output.encode).length + bytes))) := by
    rw [hlen]
    exact supply.mono _ _ _ _ _ hhas (by omega) (by omega)
  obtain ⟨ptr, allocated, halloc, hptr, hallocated⟩ := supply.tdsAlloc hne hasks
  have hallotted := allotted_of_tdsAlloc halloc hptr hne
  obtain ⟨written, hwrite, hread, hhost, hhanded⟩ := write_allotted hallotted hlen
  obtain ⟨data, hdata, hwritten⟩ := GuestMemory.write_ok hwrite
  have hready : supply.Ready platform (steps + 3) ((platform.codec.toVec output.encode).length + bytes) written
      visits := by
    rw [hwritten]
    exact ⟨supply.setMemory hallocated hdata, hcarries⟩
  have hstands : written.host.standing = standing := by
    rw [hhost, (sandbox.quiet_tdsAlloc _).host_eq halloc]
    exact hstanding
  obtain ⟨packed, ended, returned, hexec, hrun, hpacked, hreturned⟩ :=
    supply.tdsRun hread h hstands (hvisits ▸ hready)
  obtain ⟨freed, hfree, hfreed⟩ := supply.tdsDealloc ptr _ hreturned
  exact ⟨packed, ⟨ptr, _⟩, allocated, written, returned, freed, ended,
    ⟨rfl, halloc, hallotted, hwrite, hread, hhanded, hrun, hfree⟩, hexec, hpacked, hfreed⟩

/-- An invocation in a sandbox that has enough for it comes to the output of the agent. -/
theorem invokeAgent (hempty : store.host.history = [])
    (h : Program.Derives (Standing.answer platform) (Standing.Clear platform) (runAgent input) standing output left)
    (hstanding : store.host.standing = standing)
    (hready : supply.Ready platform (steps + 5)
      ((platform.codec.toVec input.encode).length + ((platform.codec.toVec output.encode).length + bytes)) store
      ((runAgent input).visits (Standing.answer platform).unstopped standing)) :
    ∃ final, (sandbox.agent platform).invokeAgent platform input store = (.ok output, final) := by
  have hsize : (platform.codec.toVec input.encode).length < 2 ^ 32 := by
    have hmax := supply.bytes_le _ _ _ hready.1
    have hword : isizeMax < 2 ^ 32 := by decide
    omega
  obtain ⟨packed, block, allocated, written, returned, freed, ended, hpassed, hexec, hpacked, hfreed⟩ :=
    supply.passes h hstanding hready
  cases hresult : (sandbox.agent platform).invokeAgent platform input store with
  | mk result final =>
      have hinvoked := invokeAgent_invoked hempty hsize hresult
      rw [Instance.invokeAgent_eq, Call.bind_of_ok hpassed.returns] at hresult
      cases hinvoked with
      | trapped trap => exact absurd hresult (supply.takeResult_not_trapped packed hfreed trap final)
      | inputRefused hrefused =>
          have halloc := hpassed.alloc
          rw [hpassed.len_eq] at halloc
          have hptr : block.ptr = 0 := Except.ok.inj (congrArg Prod.fst (halloc.symm.trans hrefused))
          exact absurd hptr hpassed.ptr_ne
      | outputRefused _ _ _ _ _ _ hnull _ => exact absurd (hpassed.unique hnull).2 hpacked
      | handedOver own stages hover =>
          have hproduced := hover.produced
          rw [← (hpassed.unique hover.passed).1, Program.exec_translate] at hproduced
          cases hproduced.symm.trans hexec
          exact ⟨final, rfl⟩

end Invocations

variable (platform) in
/-- The agent module is entered. -/
theorem enter (h : supply.Has store.guest (steps + 1) bytes) :
    ∃ guest, (sandbox.agent platform).enter store = (.ok (), { store with guest := guest }) ∧
      supply.Has guest steps bytes := by
  obtain ⟨guest, hcompute, hhas⟩ := supply.compute _ _ _ [] h (Nat.zero_le _)
  refine ⟨guest, ?_, hhas⟩
  have hversion : (do
      sandbox.inGuest fun guest => sandbox.compute guest []
      return abiVersion : GuestCall sandbox.Guest Int32) store = (.ok abiVersion, { store with guest := guest }) :=
    Call.bind_of_ok (inGuest_of_ok hcompute) _
  have hcaught : (tryCatch (do
      sandbox.inGuest fun guest => sandbox.compute guest []
      return abiVersion : GuestCall sandbox.Guest Int32)
        fun failure => throw (failure.context "calling tds_abi_version")) store =
          (.ok abiVersion, { store with guest := guest }) := by
    rw [Call.tryCatch_apply, hversion]
    rfl
  calc (sandbox.agent platform).enter store = (sandbox.agent platform).checkAbiVersion store := rfl
    _ = _ := Call.bind_of_ok hcaught _
    _ = (.ok (), { store with guest := guest }) := by rw [if_neg (not_not.mpr rfl)]; rfl

end Sandbox.Supply

/-! ### Runs -/

/-- A run comes to its output: when an agent that asks the host without the channel comes to this output, the channel
carries what it asks, and the sandbox has the steps and the bytes for the questions and for the hand-off of the
input and of the output, then the run in the sandbox reports this very output. -/
theorem run_completes (platform : Platform) (sandbox : Sandbox) (supply : sandbox.Supply) (policy : Policy)
    (llm : LlmProvider) (fresh : sandbox.Guest) (input clamped : AgentInput) (tools : ToolBox) (output : AgentOutput)
    (left : Standing) (visits : List (Standing × AgentProgram AgentOutput))
    (hopen : (Runtime.mk policy llm (sandbox.agent platform) fresh).opening platform input =
      some (clamped, ⟨.start policy llm tools, fresh⟩))
    (h : Program.Derives (Standing.answer platform) (Standing.Clear platform) (runAgent clamped)
      (HostRun.start policy llm tools).standing output left)
    (hvisits : (runAgent clamped).visits (Standing.answer platform).unstopped
      (HostRun.start policy llm tools).standing = visits)
    (hcarries : ∀ visit ∈ visits, Standing.CarriesAt platform visit)
    (hhas : supply.Has fresh (2 * visits.length + 6) (Standing.loads platform visits +
      ((platform.codec.toVec clamped.encode).length + (platform.codec.toVec output.encode).length))) :
    ∃ report final, (Runtime.mk policy llm (sandbox.agent platform) fresh).run platform input =
      .ok report (.ok output) final ∧ report.output = output := by
  subst hvisits
  have hopened : supply.Has (⟨.start policy llm tools, fresh⟩ : Store sandbox.Guest).guest _ _ := hhas
  obtain ⟨guest, henter, hentered⟩ := supply.enter platform hopened
  have hready : supply.Ready platform (0 + 5)
      ((platform.codec.toVec clamped.encode).length + ((platform.codec.toVec output.encode).length + 0))
      ⟨.start policy llm tools, guest⟩ _ := ⟨hentered, hcarries⟩
  obtain ⟨final, hinvoke⟩ := supply.invokeAgent rfl h rfl hready
  refine ⟨Runtime.report ⟨policy, llm, sandbox.agent platform, fresh⟩ (.ok output) final, final,
    (Runtime.run_eq platform hopen).trans ?_, rfl⟩
  simp only [henter, hinvoke]

end TdsWasm
