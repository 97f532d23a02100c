import TdsWasm.AgentChannel
import TdsWasm.HostSession
import TdsWasm.HostSteps

/-! The hand-off of the input and the output through guest memory. The host reads back the output that the
agent has encoded: the block that carries it is handed out while the one of the input is still in use, and
freeing the latter leaves it alone. -/

set_option autoImplicit false

namespace TdsWasm

/-! ### Packed pointers -/

theorem toNat_packPtrLen (ptr len : UInt32) :
    (packPtrLen ptr len).toNat = ptr.toNat * 2 ^ 32 + len.toNat := by
  have hptr := ptr.toNat_lt
  have hlen := len.toNat_lt
  have hshift : (32 : UInt64).toNat = 32 := rfl
  rw [packPtrLen, UInt64.toNat_or, UInt64.toNat_shiftLeft, UInt32.toNat_toUInt64, UInt32.toNat_toUInt64,
    hshift, Nat.mod_eq_of_lt (by decide : 32 < 64), Nat.mod_eq_of_lt (by rw [Nat.shiftLeft_eq]; omega),
    ← Nat.shiftLeft_add_eq_or_of_lt hlen, Nat.shiftLeft_eq]

/-- The host gets the pointer and the length that the guest has packed. -/
theorem unpack_pack (ptr len : UInt32) : unpackPtrLen (packPtrLen ptr len) = (ptr, len) := by
  have hptr := ptr.toNat_lt
  have hlen := len.toNat_lt
  have hpacked := toNat_packPtrLen ptr len
  have hshift : (32 : UInt64).toNat = 32 := rfl
  have hmask : (0xffffffff : UInt64).toNat = 2 ^ 32 - 1 := rfl
  rw [unpackPtrLen, Prod.mk.injEq]
  constructor
  · rw [← UInt32.toNat_inj, UInt64.toNat_toUInt32, UInt64.toNat_shiftRight, hshift, hpacked,
      Nat.shiftRight_eq_div_pow, Nat.mod_eq_of_lt (by decide : 32 < 64)]
    omega
  · rw [← UInt32.toNat_inj, UInt64.toNat_toUInt32, UInt64.toNat_and, hmask, hpacked,
      Nat.and_two_pow_sub_one_eq_mod]
    omega

/-! ### Code in the store -/

section Calls

variable {γ : Type} {store final : Store γ}

theorem GuestMemory.write_ok {memory : GuestMemory γ} {ptr : UInt32} {bytes : Bytes}
    (h : memory.write ptr bytes store = (.ok (), final)) :
    ∃ data, writeGuest (some (memory.data store.guest)) ptr bytes = some data ∧
      final = { store with guest := memory.setData store.guest data } := by
  rw [write_apply] at h
  cases hwrite : writeGuest (some (memory.data store.guest)) ptr bytes with
  | some data =>
      rw [hwrite] at h
      cases h
      exact ⟨data, rfl, rfl⟩
  | none =>
      rw [hwrite] at h
      cases h

theorem GuestMemory.read_ok {memory : GuestMemory γ} {ptr len : UInt32} {bytes : Bytes}
    (h : memory.read ptr len store = (.ok bytes, final)) :
    readGuest (some (memory.data store.guest)) ptr len = some bytes ∧ final = store := by
  rw [read_apply] at h
  cases hread : readGuest (some (memory.data store.guest)) ptr len with
  | some data =>
      rw [hread] at h
      cases h
      exact ⟨rfl, rfl⟩
  | none =>
      rw [hread] at h
      cases h

end Calls

/-! ### Code that leaves the host alone -/

def Quiet {γ α : Type} (call : GuestCall γ α) : Prop := ∀ store, (call store).2.host = store.host

namespace Quiet

variable {γ α β : Type}

theorem value (a : α) : Quiet (pure a : GuestCall γ α) := fun _ => rfl

theorem failure (failure : Failure) : Quiet (throw failure : GuestCall γ α) := fun _ => rfl

theorem bind {call : GuestCall γ α} {next : α → GuestCall γ β} (hcall : Quiet call)
    (hnext : ∀ a, Quiet (next a)) : Quiet (call >>= next) := by
  intro store
  have hfirst := hcall store
  rw [Call.bind_apply]
  cases h : call store with
  | mk outcome middle =>
      rw [h] at hfirst
      cases outcome with
      | ok a => exact (hnext a middle).trans hfirst
      | error e => exact hfirst

theorem write (memory : GuestMemory γ) (ptr : UInt32) (bytes : Bytes) : Quiet (memory.write ptr bytes) := by
  intro store
  rw [GuestMemory.write_apply]
  cases writeGuest (some (memory.data store.guest)) ptr bytes <;> rfl

theorem read (memory : GuestMemory γ) (ptr len : UInt32) : Quiet (memory.read ptr len) := by
  intro store
  rw [GuestMemory.read_apply]
  cases readGuest (some (memory.data store.guest)) ptr len <;> rfl

theorem host_eq {call : GuestCall γ α} (hcall : Quiet call) {store final : Store γ} {outcome : Except Failure α}
    (h : call store = (outcome, final)) : final.host = store.host := by
  have hhost := hcall store
  rw [h] at hhost
  exact hhost

end Quiet

/-! ### The allocator -/

namespace Sandbox

variable {platform : Platform} {sandbox : Sandbox} {store final : Store sandbox.Guest} {α : Type}

theorem inGuest_ok {code : sandbox.Guest → Except Trap α × sandbox.Guest} {value : α}
    (h : sandbox.inGuest code store = (.ok value, final)) :
    ∃ guest, code store.guest = (.ok value, guest) ∧ final = { store with guest := guest } := by
  unfold inGuest at h
  cases hcode : code store.guest with
  | mk outcome guest =>
      rw [hcode] at h
      cases outcome with
      | ok a =>
          cases h
          exact ⟨guest, rfl, rfl⟩
      | error trap => cases h

section Parts

variable (sandbox)

/-- The bytes at that place, as the agent finds them. -/
def readInput (ptr len : UInt32) : GuestCall sandbox.Guest Bytes :=
  sandbox.inGuest fun guest =>
    match readGuest (some (sandbox.memory guest)) ptr len with
    | some raw => (.ok raw, guest)
    | none => (.error outOfBounds, guest)

theorem quiet_inGuest {α : Type} (code : sandbox.Guest → Except Trap α × sandbox.Guest) :
    Quiet (sandbox.inGuest code) := fun _ => rfl

theorem quiet_tdsAlloc (len : UInt32) : Quiet (sandbox.tdsAlloc len) := by
  unfold tdsAlloc
  split_ifs
  · exact .value 1
  · exact .value 0
  · exact sandbox.quiet_inGuest _

theorem quiet_tdsDealloc (ptr len : UInt32) : Quiet (sandbox.tdsDealloc ptr len) := by
  unfold tdsDealloc
  split_ifs
  · exact .value ()
  · exact .value ()
  · exact sandbox.quiet_inGuest _

theorem quiet_leakToHost (bytes : Bytes) : Quiet (sandbox.leakToHost bytes) := by
  unfold leakToHost
  refine (sandbox.quiet_tdsAlloc _).bind fun out => ?_
  split_ifs
  · exact .value _
  · exact (sandbox.quiet_inGuest _).bind fun _ => .value _

end Parts

/-- The agent finds what lies at that place. -/
theorem readInput_ok {ptr len : UInt32} {raw : Bytes} (h : sandbox.readInput ptr len store = (.ok raw, final)) :
    readGuest (some (sandbox.memory store.guest)) ptr len = some raw ∧ final = store := by
  obtain ⟨guest, hread, rfl⟩ := inGuest_ok h
  cases hbytes : readGuest (some (sandbox.memory store.guest)) ptr len with
  | some bytes =>
      rw [hbytes] at hread
      cases hread
      exact ⟨rfl, rfl⟩
  | none =>
      rw [hbytes] at hread
      cases hread

/-- A block that the allocator has handed out between these two states. -/
structure Allotted (sandbox : Sandbox) (before after : sandbox.Guest) (block : Block) : Prop where
  above : 1 < block.ptr.toNat
  len_ne : block.len ≠ 0
  len_le : block.len.toNat ≤ isizeMax
  inside : block.ptr.toNat + block.len.toNat ≤ (sandbox.memory after).length
  apart : ∀ other ∈ sandbox.handed before, other.Disjoint block
  handed_eq : sandbox.handed after = block :: sandbox.handed before

theorem allotted_of_tdsAlloc {len ptr : UInt32} (h : sandbox.tdsAlloc len store = (.ok ptr, final))
    (hptr : ptr ≠ 0) (hlen : len ≠ 0) : sandbox.Allotted store.guest final.guest ⟨ptr, len⟩ := by
  unfold tdsAlloc at h
  rw [if_neg hlen] at h
  by_cases hsize : isizeMax < len.toNat
  · rw [if_pos hsize] at h
    cases h
    exact absurd rfl hptr
  · rw [if_neg hsize] at h
    obtain ⟨guest, hallocate, rfl⟩ := inGuest_ok h
    obtain ⟨habove, hinside, hapart, hhanded⟩ := sandbox.allocate_ok _ _ _ _ hallocate hptr
    exact ⟨habove, hlen, Nat.not_lt.mp hsize, hinside, hapart, hhanded⟩

/-- What stays in use keeps its contents. -/
theorem tdsDealloc_ok {ptr len : UInt32} (h : sandbox.tdsDealloc ptr len store = (.ok (), final)) :
    ∀ kept ∈ (sandbox.handed store.guest).erase ⟨ptr, len⟩,
      kept.contents (sandbox.memory final.guest) = kept.contents (sandbox.memory store.guest) := by
  unfold tdsDealloc at h
  split_ifs at h
  · cases h
    exact fun _ _ => rfl
  · cases h
    exact fun _ _ => rfl
  · obtain ⟨guest, hrelease, rfl⟩ := inGuest_ok h
    exact sandbox.release_keeps _ _ _ hrelease

/-- A buffer for the host: no block was left for it, or the bytes have been copied into a fresh one. -/
theorem leakToHost_cases {bytes : Bytes} {packed : UInt64} (hsize : bytes.length < 2 ^ 32)
    (h : sandbox.leakToHost bytes store = (.ok packed, final)) :
    packed = packPtrLen 0 0 ∧ sandbox.tdsAlloc (UInt32.ofNat bytes.length) store = (.ok 0, final) ∨
      ∃ (block : Block) (allocated : Store sandbox.Guest), packed = packPtrLen block.ptr block.len ∧ block.ptr ≠ 0 ∧
        block.len = UInt32.ofNat bytes.length ∧ sandbox.tdsAlloc block.len store = (.ok block.ptr, allocated) ∧
        sandbox.handed final.guest = sandbox.handed allocated.guest ∧
        readGuest (some (sandbox.memory final.guest)) block.ptr block.len = some bytes := by
  unfold leakToHost at h
  obtain ⟨out, allocated, halloc, h⟩ := Call.bind_eq_ok h
  by_cases hout : out = 0
  · rw [if_pos hout] at h
    cases h
    rw [hout] at halloc
    exact Or.inl ⟨rfl, halloc⟩
  rw [if_neg hout] at h
  obtain ⟨_, written, hwrite, h⟩ := Call.bind_eq_ok h
  cases h
  obtain ⟨guest, hcopy, rfl⟩ := inGuest_ok hwrite
  refine Or.inr ⟨⟨out, UInt32.ofNat bytes.length⟩, allocated, rfl, hout, rfl, halloc, ?_⟩
  cases hdata : writeGuest (some (sandbox.memory allocated.guest)) out bytes with
  | none =>
      rw [hdata] at hcopy
      cases hcopy
  | some data =>
      rw [hdata] at hcopy
      cases hcopy
      refine ⟨sandbox.handed_set _ _, ?_⟩
      rw [sandbox.memory_set]
      exact readGuest_writeGuest hdata (UInt32.toNat_ofNat_of_lt' hsize)

/-- The buffer of this pointer and length holds the bytes, in a block that has been handed out last. -/
def Leaked (sandbox : Sandbox) (before after : sandbox.Guest) (bytes : Bytes) (buffer : UInt32 × UInt32) :
    Prop :=
  sandbox.handed after = ⟨buffer.1, buffer.2⟩ :: sandbox.handed before ∧
    readGuest (some (sandbox.memory after)) buffer.1 buffer.2 = some bytes

/-- A buffer that the guest leaks to the host holds what was to be handed over, unless it is null or
empty. -/
theorem leakToHost_ok {bytes : Bytes} {packed : UInt64} (hsize : bytes.length < 2 ^ 32)
    (h : sandbox.leakToHost bytes store = (.ok packed, final)) (hptr : (unpackPtrLen packed).1 ≠ 0)
    (hlen : (unpackPtrLen packed).2 ≠ 0) :
    sandbox.Leaked store.guest final.guest bytes (unpackPtrLen packed) := by
  rcases leakToHost_cases hsize h with ⟨rfl, _⟩ | ⟨block, allocated, rfl, hout, hblock, halloc, hhanded, hread⟩
  · rw [unpack_pack] at hptr
    exact absurd rfl hptr
  · rw [unpack_pack] at hlen ⊢
    exact ⟨hhanded.trans (allotted_of_tdsAlloc halloc hout hlen).handed_eq, hread⟩

/-! ### The invocation -/

/-- No question to the host hands out a block or frees one. -/
theorem serve_handed (platform : Platform) (store : Store sandbox.Guest) (op : HostImport) :
    sandbox.handed (sandbox.serve platform store op).2.guest = sandbox.handed store.guest := by
  have hplaced := sandbox.place_handed store.guest op
  unfold serve
  cases hplace : sandbox.place store.guest op with
  | mk outcome guest =>
      rw [hplace] at hplaced
      cases outcome with
      | ok placement => exact (sandbox.handed_set _ _).trans hplaced
      | error trap => exact hplaced

theorem exec_handed (platform : Platform) (store : Store sandbox.Guest) (program : ImportProgram α) :
    sandbox.handed (program.exec (sandbox.serve platform) store).2.guest = sandbox.handed store.guest := by
  induction program generalizing store with
  | done result => rfl
  | ask op next ih =>
      have hserved := serve_handed platform store op
      rw [Program.exec]
      cases hserve : sandbox.serve platform store op with
      | mk outcome served =>
          rw [hserve] at hserved
          cases outcome with
          | ok answer => exact (ih answer served).trans hserved
          | error failure => exact hserved

theorem agentOutput_handed {raw : Bytes} {output : AgentOutput}
    (h : sandbox.agentOutput platform raw store = (.ok output, final)) :
    sandbox.handed final.guest = sandbox.handed store.guest := by
  unfold agentOutput at h
  cases hparsed : platform.codec.fromSlice "AgentInput" AgentInput.decode raw with
  | ok input =>
      simp only [hparsed] at h
      have hexec := exec_handed platform store ((runAgent input).translate (hostOp platform.codec))
      rw [h] at hexec
      exact hexec
  | error e =>
      simp only [hparsed] at h
      cases h
      rfl

/-- The agent's entry point runs the agent on the bytes that lie there, and leaks the encoded output. -/
theorem tdsRun_ok {ptr len : UInt32} {packed : UInt64}
    (h : sandbox.tdsRun platform ptr len store = (.ok packed, final)) :
    ∃ raw own ended computed, readGuest (some (sandbox.memory store.guest)) ptr len = some raw ∧
      sandbox.agentOutput platform raw store = (.ok own, ended) ∧
      sandbox.compute ended.guest (platform.codec.toVec own.encode) = (.ok (), computed) ∧
      sandbox.leakToHost (platform.codec.toVec own.encode) ⟨ended.host, computed⟩ = (.ok packed, final) := by
  unfold tdsRun at h
  obtain ⟨raw, opened, hraw, h⟩ := Call.bind_eq_ok h
  obtain ⟨hread, hopened⟩ := readInput_ok hraw
  rw [hopened] at h
  obtain ⟨own, ended, hown, h⟩ := Call.bind_eq_ok h
  obtain ⟨_, encoded, hencode, h⟩ := Call.bind_eq_ok h
  obtain ⟨computed, hcompute, rfl⟩ := inGuest_ok hencode
  exact ⟨raw, own, ended, computed, hread, hown, hcompute, h⟩

/-- The output that the agent leaks has been encoded in the state that the agent has left. -/
theorem leaked_of_tdsRun {ptr len : UInt32} {packed : UInt64}
    (h : sandbox.tdsRun platform ptr len store = (.ok packed, final)) :
    ∃ raw output ended, sandbox.agentOutput platform raw store = (.ok output, ended) ∧
      final.host = ended.host ∧ ((unpackPtrLen packed).1 ≠ 0 → (unpackPtrLen packed).2 ≠ 0 →
        sandbox.Leaked store.guest final.guest (platform.codec.toVec output.encode)
          (unpackPtrLen packed)) := by
  obtain ⟨raw, output, ended, computed, _, houtput, hcompute, hleak⟩ := tdsRun_ok h
  have hcomputed := sandbox.compute_handed ended.guest (platform.codec.toVec output.encode)
  rw [hcompute] at hcomputed
  have hhost := (sandbox.quiet_leakToHost _).host_eq hleak
  refine ⟨raw, output, ended, houtput, hhost, fun hptr hlen => ?_⟩
  obtain ⟨hhanded, hcontents⟩ := leakToHost_ok (sandbox.compute_fits _ _ _ hcompute) hleak hptr hlen
  refine ⟨?_, hcontents⟩
  calc sandbox.handed final.guest = _ :: sandbox.handed computed := hhanded
    _ = _ :: sandbox.handed ended.guest := by rw [hcomputed]
    _ = _ :: sandbox.handed store.guest := by rw [agentOutput_handed houtput]

/-- An invocation that comes to an output has run the agent on some bytes, and the output is what the host
decodes of the agent's own. -/
theorem invokeAgent_ok {input : AgentInput} {output : AgentOutput}
    (h : (sandbox.agent platform).invokeAgent platform input store = (.ok output, final)) :
    ∃ raw written own ended, written.host = store.host ∧
      sandbox.agentOutput platform raw written = (.ok own, ended) ∧ final.host = ended.host ∧
      platform.codec.fromSlice "AgentOutput" AgentOutput.decode (platform.codec.toVec own.encode) =
        .ok output := by
  unfold Instance.invokeAgent at h
  obtain ⟨alloc, _, halloc, h⟩ := Call.bind_eq_ok h
  cases halloc
  obtain ⟨dealloc, _, hdealloc, h⟩ := Call.bind_eq_ok h
  cases hdealloc
  obtain ⟨run, _, hrun, h⟩ := Call.bind_eq_ok h
  cases hrun
  obtain ⟨ptr, allocated, hallocated, h⟩ := Call.bind_eq_ok h
  by_cases hptr : ptr = 0
  · rw [if_pos hptr] at h
    cases h
  rw [if_neg hptr] at h
  obtain ⟨_, written, hwritten, h⟩ := Call.bind_eq_ok h
  obtain ⟨data, _, rfl⟩ := GuestMemory.write_ok hwritten
  obtain ⟨packed, returned, hreturned, h⟩ := Call.bind_eq_ok h
  obtain ⟨_, freed, hfreed, h⟩ := Call.bind_eq_ok h
  obtain ⟨raw, own, ended, houtput, hended, hleaked⟩ := leaked_of_tdsRun hreturned
  cases hunpack : unpackPtrLen packed with
  | mk outPtr outLen =>
      rw [hunpack] at h hleaked
      by_cases hempty : outPtr = 0 ∨ outLen = 0
      · simp only [if_pos hempty] at h
        cases h
      simp only [if_neg hempty] at h
      obtain ⟨hout, hlen⟩ := not_or.mp hempty
      obtain ⟨buffer, opened, hbuffer, hrest⟩ := Call.bind_eq_ok h
      obtain ⟨hread, hopened⟩ := GuestMemory.read_ok hbuffer
      obtain ⟨_, released, hreleased, hdecode⟩ := Call.bind_eq_ok hrest
      obtain ⟨hhanded, hcontents⟩ := hleaked hout hlen
      have hkept := tdsDealloc_ok hfreed
      -- The block of the output is still in use when the block of the input is not.
      have hmem : (⟨outPtr, outLen⟩ : Block) ∈ (sandbox.handed returned.guest).erase
          ⟨ptr, UInt32.ofNat (platform.codec.toVec input.encode).length⟩ := by
        rw [hhanded]
        by_cases hsame : (⟨outPtr, outLen⟩ : Block) =
            ⟨ptr, UInt32.ofNat (platform.codec.toVec input.encode).length⟩
        · obtain ⟨_, hinLen⟩ := Block.mk.inj hsame
          rw [hinLen] at hlen
          have hinHanded := (allotted_of_tdsAlloc hallocated hptr hlen).handed_eq
          rw [hsame, List.erase_cons_head]
          show _ ∈ sandbox.handed (sandbox.setMemory allocated.guest data)
          rw [sandbox.handed_set, hinHanded]
          exact List.mem_cons_self
        · exact (List.mem_erase_of_ne hsame).mpr List.mem_cons_self
      have hown : buffer = platform.codec.toVec own.encode := by
        apply Option.some.inj
        calc some buffer = _ := hread.symm
          _ = _ := hkept _ hmem
          _ = some (platform.codec.toVec own.encode) := hcontents
      subst hown
      have hfinal : final = released ∧ platform.codec.fromSlice "AgentOutput" AgentOutput.decode
          (platform.codec.toVec own.encode) = .ok output := by
        cases hparsed : platform.codec.fromSlice "AgentOutput" AgentOutput.decode
            (platform.codec.toVec own.encode) with
        | ok parsed =>
            simp only [hparsed] at hdecode
            cases hdecode
            exact ⟨rfl, rfl⟩
        | error e =>
            simp only [hparsed] at hdecode
            cases hdecode
      obtain ⟨rfl, hparsed⟩ := hfinal
      have hhost := (sandbox.quiet_tdsAlloc _).host_eq hallocated
      refine ⟨raw, ⟨allocated.host, sandbox.setMemory allocated.guest data⟩, own, ended,
        hhost, houtput, ?_, hparsed⟩
      rw [(sandbox.quiet_tdsDealloc _ _).host_eq hreleased, hopened, (sandbox.quiet_tdsDealloc _ _).host_eq hfreed,
        hended]

end Sandbox

end TdsWasm
