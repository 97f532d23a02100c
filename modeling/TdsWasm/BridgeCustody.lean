import TdsWasm.BridgeReport

/-! The custody of the two blocks that cross the boundary: the one of the input and the one of the output. An
invocation ends with a trap, with an allocation that failed, or with both blocks handed over, read as they
were written, and freed once. -/

set_option autoImplicit false

namespace TdsWasm

/-! ### Guest code that fails by trapping only -/

def OnlyTraps {γ α : Type} (call : GuestCall γ α) : Prop :=
  ∀ store failure final, call store = (.error failure, final) → ∃ trap, failure = .trap trap

namespace OnlyTraps

variable {γ α β : Type}

theorem pure (a : α) : OnlyTraps (Pure.pure a : GuestCall γ α) := by
  intro store failure final h
  cases h

theorem bind {call : GuestCall γ α} {next : α → GuestCall γ β} (hcall : OnlyTraps call)
    (hnext : ∀ a, OnlyTraps (next a)) : OnlyTraps (call >>= next) := by
  intro store failure final h
  rcases Call.bind_eq_error h with h | ⟨a, middle, _, h⟩
  · exact hcall store failure final h
  · exact hnext a middle failure final h

/-- Such code traps, or comes to a value. -/
theorem cases {call : GuestCall γ α} (hcall : OnlyTraps call) (store : Store γ) :
    (∃ trap final, call store = (.error (.trap trap), final)) ∨ ∃ a final, call store = (.ok a, final) := by
  cases h : call store with
  | mk outcome final =>
      cases outcome with
      | ok a => exact Or.inr ⟨a, final, rfl⟩
      | error failure =>
          obtain ⟨trap, rfl⟩ := hcall store failure final h
          exact Or.inl ⟨trap, final, rfl⟩

end OnlyTraps

/-- Blocks that lie apart are two blocks, unless they are empty. -/
theorem Block.ne_of_disjoint {left right : Block} (h : left.Disjoint right)
    (hlen : right.len ≠ 0) : left ≠ right := by
  rintro rfl
  have hpos : 0 < left.len.toNat := Nat.pos_of_ne_zero fun hzero => hlen (UInt32.toNat_inj.mp hzero)
  rcases h with h | h <;> omega

namespace Sandbox

variable {platform : Platform} {sandbox : Sandbox} {store final : Store sandbox.Guest} {α : Type}

theorem onlyTraps_inGuest (code : sandbox.Guest → Except Trap α × sandbox.Guest) :
    OnlyTraps (sandbox.inGuest code) := by
  intro store failure final h
  unfold inGuest at h
  cases hcode : (code store.guest).1 with
  | ok a =>
      rw [hcode] at h
      cases h
  | error trap =>
      rw [hcode] at h
      cases h
      exact ⟨trap, rfl⟩

theorem onlyTraps_tdsAlloc (len : UInt32) : OnlyTraps (sandbox.tdsAlloc len) := by
  unfold tdsAlloc
  split_ifs
  · exact .pure 1
  · exact .pure 0
  · exact onlyTraps_inGuest _

theorem onlyTraps_tdsDealloc (ptr len : UInt32) : OnlyTraps (sandbox.tdsDealloc ptr len) := by
  unfold tdsDealloc
  split_ifs
  · exact .pure ()
  · exact .pure ()
  · exact onlyTraps_inGuest _

/-- A host function is always answered, so only the guest can stop a program. -/
theorem onlyTraps_exec (program : ImportProgram α) :
    OnlyTraps (program.exec (sandbox.serve platform) : GuestCall sandbox.Guest α) := by
  induction program with
  | done result => exact .pure result
  | ask op next ih =>
      intro store failure final h
      unfold Program.exec at h
      cases hserve : sandbox.serve platform store op with
      | mk outcome served =>
          rw [hserve] at h
          cases outcome with
          | ok answer => exact ih answer served failure final h
          | error stop =>
              cases h
              unfold serve at hserve
              cases hplace : sandbox.place store.guest op with
              | mk placed guest =>
                  rw [hplace] at hserve
                  cases placed with
                  | ok placement => cases hserve
                  | error trap =>
                      cases hserve
                      exact ⟨trap, rfl⟩

theorem onlyTraps_agentOutput (raw : Bytes) : OnlyTraps (sandbox.agentOutput platform raw) := by
  unfold agentOutput
  cases platform.codec.fromSlice "AgentInput" AgentInput.decode raw with
  | ok input => exact onlyTraps_exec _
  | error e => exact .pure _

theorem onlyTraps_leakToHost (bytes : Bytes) : OnlyTraps (sandbox.leakToHost bytes) := by
  unfold leakToHost
  refine (onlyTraps_tdsAlloc _).bind fun out => ?_
  split_ifs
  · exact .pure _
  · exact (onlyTraps_inGuest _).bind fun _ => .pure _

theorem onlyTraps_tdsRun (ptr len : UInt32) : OnlyTraps (sandbox.tdsRun platform ptr len) :=
  (onlyTraps_inGuest _).bind fun raw => (onlyTraps_agentOutput raw).bind fun _ =>
    (onlyTraps_inGuest _).bind fun _ => onlyTraps_leakToHost _

/-! ### Blocks -/

/-- A fresh block is not among those in use. -/
theorem Allotted.not_mem {before after : sandbox.Guest} {block : Block}
    (h : sandbox.Allotted before after block) : block ∉ sandbox.handed before :=
  fun hmem => Block.ne_of_disjoint (h.apart block hmem) h.len_ne rfl

/-- A block above address 1 is at none of the two pointers that stand for no block. -/
theorem ptr_ne_of_above {ptr : UInt32} (h : 1 < ptr.toNat) : ptr ≠ 0 ∧ ptr ≠ 1 := by
  constructor
  · rintro rfl
    exact absurd h (by decide)
  · rintro rfl
    exact absurd h (by decide)

/-- Freeing a block of an allotment takes it out of use. -/
theorem tdsDealloc_erase {before after : sandbox.Guest} {block : Block}
    (hblock : sandbox.Allotted before after block)
    (h : sandbox.tdsDealloc block.ptr block.len store = (.ok (), final)) :
    sandbox.handed final.guest = (sandbox.handed store.guest).erase block := by
  obtain ⟨hnull, hone⟩ := ptr_ne_of_above hblock.above
  unfold tdsDealloc at h
  rw [if_neg, if_neg (Nat.not_lt.mpr hblock.len_le)] at h
  · obtain ⟨guest, hrelease, rfl⟩ := inGuest_ok h
    exact sandbox.release_ok _ _ _ hrelease
  · rintro (hzero | hsame | hempty)
    · exact hnull hzero
    · exact hone hsame
    · exact hblock.len_ne hempty

/-- The memory of the agent as the host sees it. -/
def memoryExport (sandbox : Sandbox) : GuestMemory sandbox.Guest := ⟨sandbox.memory, sandbox.setMemory⟩

section Exports

variable (platform) (sandbox)

@[simp] theorem agent_memory : (sandbox.agent platform).memory = some sandbox.memoryExport := rfl

@[simp] theorem agent_alloc : (sandbox.agent platform).alloc = .ok sandbox.tdsAlloc := rfl

@[simp] theorem agent_dealloc : (sandbox.agent platform).dealloc = .ok sandbox.tdsDealloc := rfl

@[simp] theorem agent_run : (sandbox.agent platform).run = .ok (sandbox.tdsRun platform) := rfl

end Exports

theorem liftExcept_ok_bind {γ α β : Type} (found : α) (next : α → GuestCall γ β) :
    (Instance.invokeAgent.liftExcept (.ok found) >>= next) = next found := rfl

/-- What is written into a block lies in it afterwards, and the blocks in use stay the same. -/
theorem write_allotted {before : sandbox.Guest} {ptr len : UInt32} {bytes : Bytes}
    (hblock : sandbox.Allotted before store.guest ⟨ptr, len⟩) (hlen : len.toNat = bytes.length) :
    ∃ written, sandbox.memoryExport.write ptr bytes store = (.ok (), written) ∧
      readGuest (some (sandbox.memory written.guest)) ptr len = some bytes ∧ written.host = store.host ∧
      sandbox.handed written.guest = sandbox.handed store.guest := by
  have hinside := hblock.inside
  simp only [hlen] at hinside
  obtain ⟨data, hdata⟩ : ∃ data, writeGuest (some (sandbox.memory store.guest)) ptr bytes = some data := by
    rw [writeGuest, Option.bind_some, if_pos hinside]
    exact ⟨_, rfl⟩
  refine ⟨{ store with guest := sandbox.setMemory store.guest data }, GuestMemory.write_of_some hdata, ?_, rfl,
    sandbox.handed_set _ _⟩
  rw [sandbox.memory_set]
  exact readGuest_writeGuest hdata hlen

/-! ### Invocations -/

section Halves

variable {input : AgentInput} {entered freed : Store sandbox.Guest}

/-- The input has been handed over to the agent, the agent has returned, and then the input has been freed. -/
structure InputPassed (platform : Platform) (sandbox : Sandbox) (input : AgentInput)
    (entered freed : Store sandbox.Guest) (packed : UInt64) (block : Block)
    (allocated written returned : Store sandbox.Guest) : Prop where
  len_eq : block.len = UInt32.ofNat (platform.codec.toVec input.encode).length
  alloc : sandbox.tdsAlloc block.len entered = (.ok block.ptr, allocated)
  allotted : sandbox.Allotted entered.guest allocated.guest block
  write : sandbox.memoryExport.write block.ptr (platform.codec.toVec input.encode) allocated = (.ok (), written)
  read : readGuest (some (sandbox.memory written.guest)) block.ptr block.len =
    some (platform.codec.toVec input.encode)
  written_handed : sandbox.handed written.guest = sandbox.handed allocated.guest
  run : sandbox.tdsRun platform block.ptr block.len written = (.ok packed, returned)
  free : sandbox.tdsDealloc block.ptr block.len returned = (.ok (), freed)

theorem toVec_length_ne (platform : Platform) {j : Json} (hsize : (platform.codec.toVec j).length < 2 ^ 32) :
    UInt32.ofNat (platform.codec.toVec j).length ≠ 0 := by
  intro hzero
  have hlength : (UInt32.ofNat (platform.codec.toVec j).length).toNat = (platform.codec.toVec j).length :=
    UInt32.toNat_ofNat_of_lt' hsize
  rw [hzero] at hlength
  exact platform.codec.toVec_ne_nil (platform.numbers j) (List.length_eq_zero_iff.mp hlength.symm)

theorem runAgent_cases {outcome : Except Failure UInt64}
    (hsize : (platform.codec.toVec input.encode).length < 2 ^ 32)
    (h : (sandbox.agent platform).runAgent platform input entered = (outcome, freed)) :
    (∃ trap, outcome = .error (.trap trap)) ∨
    (outcome = .error (.message ("agent module could not allocate " ++
        toString (platform.codec.toVec input.encode).length ++ " bytes for its input")) ∧
      sandbox.tdsAlloc (UInt32.ofNat (platform.codec.toVec input.encode).length) entered = (.ok 0, freed)) ∨
    ∃ packed block allocated written returned, outcome = .ok packed ∧
      InputPassed platform sandbox input entered freed packed block allocated written returned := by
  have hlength : (UInt32.ofNat (platform.codec.toVec input.encode).length).toNat =
      (platform.codec.toVec input.encode).length := UInt32.toNat_ofNat_of_lt' hsize
  unfold Instance.runAgent at h
  simp only [agent_memory, agent_alloc, agent_dealloc, agent_run, liftExcept_ok_bind] at h
  rcases (onlyTraps_tdsAlloc _).cases entered with ⟨trap, stopped, hcall⟩ | ⟨ptr, allocated, hallocated⟩
  · rw [Call.bind_of_error hcall] at h
    cases h
    exact Or.inl ⟨trap, rfl⟩
  rw [Call.bind_of_ok hallocated] at h
  by_cases hptr : ptr = 0
  · simp only [hptr, if_true, hlength] at h
    cases h
    rw [hptr] at hallocated
    exact Or.inr (Or.inl ⟨rfl, hallocated⟩)
  simp only [if_neg hptr] at h
  have hallotted := allotted_of_tdsAlloc hallocated hptr (toVec_length_ne platform hsize)
  obtain ⟨written, hwrite, hread, -, hhanded⟩ := write_allotted hallotted hlength
  rw [Call.bind_of_ok hwrite] at h
  rcases (onlyTraps_tdsRun _ _).cases written with ⟨trap, stopped, hcall⟩ | ⟨packed, returned, hreturned⟩
  · rw [Call.bind_of_error hcall] at h
    cases h
    exact Or.inl ⟨trap, rfl⟩
  rw [Call.bind_of_ok hreturned] at h
  rcases (onlyTraps_tdsDealloc _ _).cases returned with ⟨trap, stopped, hcall⟩ | ⟨_, taken, hfreed⟩
  · rw [Call.bind_of_error hcall] at h
    cases h
    exact Or.inl ⟨trap, rfl⟩
  rw [Call.bind_of_ok hfreed] at h
  cases h
  exact Or.inr (Or.inr ⟨packed, ⟨ptr, _⟩, allocated, written, returned, rfl,
    ⟨rfl, hallocated, hallotted, hwrite, hread, hhanded, hreturned, hfreed⟩⟩)

/-- A result that is not null and not empty is read where it lies, and freed after that. -/
theorem takeResult_cases {block : Block} {bytes : Bytes} {own : AgentOutput}
    {outcome : Except Failure AgentOutput} (habove : 1 < block.ptr.toNat) (hlen : block.len ≠ 0)
    (hread : readGuest (some (sandbox.memory freed.guest)) block.ptr block.len = some bytes)
    (hown : platform.codec.fromSlice "AgentOutput" AgentOutput.decode bytes = .ok own)
    (h : (sandbox.agent platform).takeResult platform (packPtrLen block.ptr block.len) freed = (outcome, final)) :
    (∃ trap, outcome = .error (.trap trap)) ∨
      outcome = .ok own ∧ sandbox.tdsDealloc block.ptr block.len freed = (.ok (), final) := by
  have hptr : block.ptr ≠ 0 := (ptr_ne_of_above habove).1
  have hbuffer : sandbox.memoryExport.read block.ptr block.len freed = (.ok bytes, freed) :=
    GuestMemory.read_of_some hread
  unfold Instance.takeResult at h
  simp only [agent_memory, agent_dealloc, liftExcept_ok_bind, unpack_pack, if_neg (not_or.mpr ⟨hptr, hlen⟩)] at h
  rw [Call.bind_of_ok hbuffer] at h
  rcases (onlyTraps_tdsDealloc _ _).cases freed with ⟨trap, stopped, hcall⟩ | ⟨_, released, hreleased⟩
  · rw [Call.bind_of_error hcall] at h
    cases h
    exact Or.inl ⟨trap, rfl⟩
  rw [Call.bind_of_ok hreleased] at h
  simp only [hown] at h
  cases h
  exact Or.inr ⟨rfl, hreleased⟩

theorem takeResult_null : (sandbox.agent platform).takeResult platform (packPtrLen 0 0) freed =
    (.error (.message "agent returned an empty result"), freed) := by
  unfold Instance.takeResult
  simp only [agent_memory, agent_dealloc, liftExcept_ok_bind, unpack_pack, true_or, if_true]
  rfl

end Halves

/-- The two blocks of an invocation, and the store at each stage of it. -/
structure Stages (Guest : Type) where
  input : Block
  output : Block
  allocated : Store Guest
  written : Store Guest
  ended : Store Guest
  returned : Store Guest
  freed : Store Guest

/-- An invocation in which both blocks are handed over. -/
structure HandedOver (platform : Platform) (sandbox : Sandbox) (input : AgentInput)
    (entered final : Store sandbox.Guest) (own : AgentOutput) (stages : Stages sandbox.Guest) : Prop where
  /-- The host allocates and writes the input, calls `tds_run`, and then frees the input. -/
  passed : InputPassed platform sandbox input entered stages.freed
    (packPtrLen stages.output.ptr stages.output.len) stages.input stages.allocated stages.written stages.returned
  /-- What the agent reads there decodes to the input, and it makes its output from that. -/
  decoded : platform.codec.fromSlice "AgentInput" AgentInput.decode (platform.codec.toVec input.encode) =
    .ok input
  produced : ((runAgent input).translate (hostOp platform.codec)).exec (sandbox.serve platform) stages.written =
    (.ok own, stages.ended)
  /-- `tds_run` has allocated the block of the output. -/
  alloc : ∃ computed given, sandbox.tdsAlloc stages.output.len computed = (.ok stages.output.ptr, given)
  /-- The host reads what the agent has encoded, and then frees the output. -/
  read : readGuest (some (sandbox.memory stages.freed.guest)) stages.output.ptr stages.output.len =
    some (platform.codec.toVec own.encode)
  free : sandbox.tdsDealloc stages.output.ptr stages.output.len stages.freed = (.ok (), final)
  /-- The blocks in use: none of the two, the input, both, the output, and none of the two again. -/
  fresh : stages.input ∉ sandbox.handed entered.guest ∧ stages.output ∉ sandbox.handed entered.guest ∧
    stages.input ≠ stages.output
  handed_allocated : sandbox.handed stages.allocated.guest = stages.input :: sandbox.handed entered.guest
  handed_returned : sandbox.handed stages.returned.guest =
    stages.output :: stages.input :: sandbox.handed entered.guest
  handed_freed : sandbox.handed stages.freed.guest = stages.output :: sandbox.handed entered.guest
  handed_final : sandbox.handed final.guest = sandbox.handed entered.guest

/-- How an invocation of the agent ends. -/
inductive Invoked (platform : Platform) (sandbox : Sandbox) (input : AgentInput)
    (entered final : Store sandbox.Guest) : Except Failure AgentOutput → Prop where
  | trapped (trap : Trap) : Invoked platform sandbox input entered final (.error (.trap trap))
  | inputRefused
      (halloc : sandbox.tdsAlloc (UInt32.ofNat (platform.codec.toVec input.encode).length) entered =
        (.ok 0, final)) :
      Invoked platform sandbox input entered final (.error (.message ("agent module could not allocate " ++
        toString (platform.codec.toVec input.encode).length ++ " bytes for its input")))
  | outputRefused (block : Block) (own : AgentOutput) (allocated written computed returned : Store sandbox.Guest)
      (hpassed : InputPassed platform sandbox input entered final (packPtrLen 0 0) block allocated written
        returned)
      (halloc : sandbox.tdsAlloc (UInt32.ofNat (platform.codec.toVec own.encode).length) computed =
        (.ok 0, returned)) :
      Invoked platform sandbox input entered final (.error (.message "agent returned an empty result"))
  | handedOver (own : AgentOutput) (stages : Stages sandbox.Guest)
      (h : HandedOver platform sandbox input entered final own stages) :
      Invoked platform sandbox input entered final (.ok own)

/-- The host can read every output that the agent comes to. -/
theorem decode_own {raw : Bytes} {own : AgentOutput} (hempty : store.host.history = [])
    (h : sandbox.agentOutput platform raw store = (.ok own, final)) :
    platform.codec.fromSlice "AgentOutput" AgentOutput.decode (platform.codec.toVec own.encode) = .ok own := by
  have hinputs : ∀ call ∈ own.toolCalls, call.input.toJson.depth < blockLevels := by
    rcases agentOutput_ok h with ⟨input, list, turns, trace, hrecorded, hcalls, haccounted⟩ | ⟨rfl, e, rfl⟩
    · exact (invocations_of_recorded hempty hrecorded hcalls haccounted).1
    · exact nofun
  have hread : AgentOutput.decode (Decode.recursionLimit - 1) own.encode = some own :=
    AgentOutput.decode_encode fun call hmem => Nat.le_of_lt (hinputs call hmem)
  exact platform.codec.fromSlice_toVec (platform.numbers _) hread

/-- The agent, entered with the input in its block, leaves a result for which there was no block, or one in a
fresh block that is in use beside that of the input. -/
theorem InputPassed.result {input : AgentInput} {entered freed allocated written returned : Store sandbox.Guest}
    {packed : UInt64} {block : Block} (hempty : entered.host.history = [])
    (h : InputPassed platform sandbox input entered freed packed block allocated written returned) :
    ∃ own ended computed,
      ((runAgent input).translate (hostOp platform.codec)).exec (sandbox.serve platform) written =
        (.ok own, ended) ∧
      platform.codec.fromSlice "AgentOutput" AgentOutput.decode (platform.codec.toVec own.encode) = .ok own ∧
      (packed = packPtrLen 0 0 ∧
          sandbox.tdsAlloc (UInt32.ofNat (platform.codec.toVec own.encode).length) computed = (.ok 0, returned) ∨
        ∃ output after, packed = packPtrLen output.ptr output.len ∧
          sandbox.tdsAlloc output.len computed = (.ok output.ptr, after) ∧
          sandbox.handed computed.guest = sandbox.handed written.guest ∧
          sandbox.Allotted computed.guest after.guest output ∧
          sandbox.handed returned.guest = sandbox.handed after.guest ∧
          readGuest (some (sandbox.memory returned.guest)) output.ptr output.len =
            some (platform.codec.toVec own.encode)) := by
  have hhost : written.host.history = [] := by
    rw [(Quiet.write _ _ _).host_eq h.write, (sandbox.quiet_tdsAlloc _).host_eq h.alloc]
    exact hempty
  obtain ⟨raw, own, ended, computed, hraw, hown, hcompute, hleak⟩ := tdsRun_ok h.run
  cases h.read.symm.trans hraw
  have hinput : platform.codec.fromSlice "AgentInput" AgentInput.decode (platform.codec.toVec input.encode) =
      .ok input := platform.codec.fromSlice_toVec (platform.numbers _) (AgentInput.decode_encode input _)
  have hproduced : sandbox.agentOutput platform (platform.codec.toVec input.encode) written =
      ((runAgent input).translate (hostOp platform.codec)).exec (sandbox.serve platform) written := by
    unfold agentOutput
    rw [hinput]
  refine ⟨own, ended, ⟨ended.host, computed⟩, hproduced ▸ hown, decode_own hhost hown, ?_⟩
  have hfits := sandbox.compute_fits _ _ _ hcompute
  rcases leakToHost_cases hfits hleak with hnull | ⟨output, given, hpacked, hout, hlen, halloc, hkept, hread⟩
  · exact Or.inl hnull
  · have hallotted := allotted_of_tdsAlloc halloc hout (hlen ▸ toVec_length_ne platform hfits)
    have hcomputed := sandbox.compute_handed ended.guest (platform.codec.toVec own.encode)
    rw [hcompute] at hcomputed
    exact Or.inr ⟨output, given, hpacked, halloc, hcomputed.trans (agentOutput_handed hown), hallotted, hkept,
      hread⟩

/-- An invocation ends in one of the four ways. -/
theorem invokeAgent_invoked {input : AgentInput} {entered : Store sandbox.Guest}
    {result : Except Failure AgentOutput} (hempty : entered.host.history = [])
    (hsize : (platform.codec.toVec input.encode).length < 2 ^ 32)
    (h : (sandbox.agent platform).invokeAgent platform input entered = (result, final)) :
    Invoked platform sandbox input entered final result := by
  rw [Instance.invokeAgent_eq] at h
  cases hreturned : (sandbox.agent platform).runAgent platform input entered with
  | mk outcome freed =>
      rcases runAgent_cases hsize hreturned with ⟨trap, rfl⟩ | ⟨rfl, halloc⟩ |
        ⟨packed, block, allocated, written, returned, rfl, hpassed⟩
      · rw [Call.bind_of_error hreturned] at h
        cases h
        exact .trapped trap
      · rw [Call.bind_of_error hreturned] at h
        cases h
        exact .inputRefused halloc
      rw [Call.bind_of_ok hreturned] at h
      obtain ⟨own, ended, computed, hproduced, hdecoded, ⟨rfl, halloc⟩ |
        ⟨output, after, rfl, halloc, hbefore, hallotted, hafter, hread⟩⟩ := hpassed.result hempty
      · rw [takeResult_null] at h
        cases h
        exact .outputRefused block own allocated written computed returned hpassed halloc
      -- the blocks in use, from the result back to the state in which the agent was invoked
      have hwritten : sandbox.handed written.guest = block :: sandbox.handed entered.guest :=
        hpassed.written_handed.trans hpassed.allotted.handed_eq
      have hinUse : sandbox.handed returned.guest = output :: block :: sandbox.handed entered.guest := by
        rw [hafter, hallotted.handed_eq, hbefore, hwritten]
      have hnew : output ∉ block :: sandbox.handed entered.guest := by
        rw [← hwritten, ← hbefore]
        exact hallotted.not_mem
      obtain ⟨hapart, hfresh⟩ := not_or.mp (mt List.mem_cons.mpr hnew)
      have hfreed : sandbox.handed freed.guest = output :: sandbox.handed entered.guest := by
        rw [tdsDealloc_erase hpassed.allotted hpassed.free, hinUse, List.erase_cons_tail (by simpa using hapart),
          List.erase_cons_head]
      have hkept : output.contents (sandbox.memory freed.guest) =
          output.contents (sandbox.memory returned.guest) := by
        apply tdsDealloc_ok hpassed.free
        rw [hinUse]
        exact (List.mem_erase_of_ne hapart).mpr List.mem_cons_self
      rcases takeResult_cases hallotted.above hallotted.len_ne (hkept.trans hread) hdecoded h with
        ⟨trap, rfl⟩ | ⟨rfl, hfree⟩
      · exact .trapped trap
      · refine .handedOver own ⟨block, output, allocated, written, ended, returned, freed⟩
          ⟨hpassed, platform.codec.fromSlice_toVec (platform.numbers _) (AgentInput.decode_encode input _), hproduced,
            ⟨computed, after, halloc⟩, hkept.trans hread, hfree, ⟨hpassed.allotted.not_mem, hfresh, Ne.symm hapart⟩,
            hpassed.allotted.handed_eq, hinUse, hfreed, ?_⟩
        rw [tdsDealloc_erase hallotted hfree, hfreed, List.erase_cons_head]

end Sandbox

/-- The hand-off of a run: it ends with a trap or with an allocation that failed, or the agent reads the input
that the host has encoded, the host returns the output that the agent has made, and both blocks are freed
once, after they were read. -/
theorem handoff_exact (platform : Platform) (sandbox : Sandbox) (policy : Policy) (llm : LlmProvider)
    (fresh : sandbox.Guest) (input : AgentInput) (report : RunReport) (result : Except Failure AgentOutput)
    (final : Store sandbox.Guest)
    (hrun : (Runtime.mk policy llm (sandbox.agent platform) fresh).run platform input = .ok report result final)
    (hsize : ∀ clamped opened,
      (Runtime.mk policy llm (sandbox.agent platform) fresh).opening platform input = some (clamped, opened) →
        (platform.codec.toVec clamped.encode).length < 2 ^ 32) :
    ∃ clamped opened entered,
      (Runtime.mk policy llm (sandbox.agent platform) fresh).opening platform input = some (clamped, opened) ∧
      (sandbox.agent platform).enter opened = (.ok (), entered) ∧
      sandbox.Invoked platform clamped entered final result := by
  obtain ⟨clamped, opened, entered, hopen, henter, hinvoke, _⟩ := Runtime.run_eq_ok platform hrun
  obtain ⟨tools, _, rfl, _⟩ := Runtime.opening_eq_some platform hopen
  have hempty : entered.host.history = [] := by
    rw [Sandbox.entered_host henter]
    rfl
  exact ⟨clamped, _, entered, hopen, henter,
    Sandbox.invokeAgent_invoked hempty (hsize clamped _ hopen) hinvoke⟩

theorem handoff_exact_answering : ∃ report own final clamped opened entered,
    answeringRun 40 = .ok report (.ok own) final ∧
      (answering 40).opening stillPlatform ⟨"Work.", none, 1⟩ = some (clamped, opened) ∧
      Sandbox.bump.Invoked stillPlatform clamped entered final (.ok own) := by
  obtain ⟨report, own, final, hok, _⟩ := exists_answeringRun
  obtain ⟨clamped, opened, entered, hopen, _, hinvoked⟩ := handoff_exact stillPlatform .bump _ _ _ _ report (.ok own)
    final hok (by
      intro clamped opened hopen
      cases hopen
      decide +kernel)
  exact ⟨report, own, final, clamped, opened, entered, hok, hopen, hinvoked⟩

end TdsWasm
