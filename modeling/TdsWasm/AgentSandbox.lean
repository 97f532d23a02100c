import TdsWasm.AgentChannel
import TdsWasm.HostSteps

/-! A sandbox that can be run: an allocator that only ever grows the memory, and fuel that is counted in
the engine's steps. -/

set_option autoImplicit false

namespace TdsWasm

structure BumpGuest where
  memory : Bytes
  handed : List Block
  fuel : Nat

namespace BumpGuest

/-- Do something for a unit of fuel. -/
def burn {α : Type} (guest : BumpGuest) (code : BumpGuest → Except Trap α × BumpGuest) :
    Except Trap α × BumpGuest :=
  match guest.fuel with
  | 0 => (.error .outOfFuel, guest)
  | fuel + 1 => code { guest with fuel := fuel }

/-- The bytes that the arguments of a host function need. -/
def argumentBytes : HostImport → Bytes
  | .log _ message => message
  | .call name request => name ++ request
  | .responseRead len => List.replicate len.toUInt32.toNat 0

/-- The length of what the first pointer refers to. -/
def firstLength : HostImport → Nat
  | .log _ message => message.length
  | .call name _ => name.length
  | .responseRead len => len.toUInt32.toNat

/-- Arguments are put behind the memory. A guest that cannot get the memory for them panics. -/
def place (guest : BumpGuest) (op : HostImport) : Except Trap Placement × BumpGuest :=
  guest.burn fun guest =>
    if guest.memory.length + (argumentBytes op).length < 2 ^ 32 then
      (.ok ⟨guest.memory ++ argumentBytes op, UInt32.ofNat guest.memory.length,
        UInt32.ofNat (guest.memory.length + firstLength op)⟩, guest)
    else (.error .unreachableCodeReached, guest)

def compute (guest : BumpGuest) (bytes : Bytes) : Except Trap Unit × BumpGuest :=
  guest.burn fun guest =>
    if bytes.length < 2 ^ 32 then (.ok (), guest) else (.error .unreachableCodeReached, guest)

/-- A new block goes behind the memory, with all blocks in use before it. -/
def allocate (guest : BumpGuest) (len : UInt32) : Except Trap UInt32 × BumpGuest :=
  guest.burn fun guest =>
    if 1 < guest.memory.length ∧ guest.memory.length + len.toNat < 2 ^ 32 ∧
        ∀ block ∈ guest.handed, block.ptr.toNat + block.len.toNat ≤ guest.memory.length then
      (.ok (UInt32.ofNat guest.memory.length),
        { guest with
          memory := guest.memory ++ List.replicate len.toNat 0
          handed := ⟨UInt32.ofNat guest.memory.length, len⟩ :: guest.handed })
    else (.ok 0, guest)

def release (guest : BumpGuest) (block : Block) : Except Trap Unit × BumpGuest :=
  guest.burn fun guest => (.ok (), { guest with handed := guest.handed.erase block })

variable {α : Type} {guest guest' : BumpGuest}

/-- What succeeds has burnt fuel and then done its work. -/
theorem burn_ok {code : BumpGuest → Except Trap α × BumpGuest} {value : α}
    (h : guest.burn code = (.ok value, guest')) : ∃ fuel, guest.fuel = fuel + 1 ∧
      code { guest with fuel := fuel } = (.ok value, guest') := by
  unfold burn at h
  cases hfuel : guest.fuel with
  | zero =>
      rw [hfuel] at h
      cases h
  | succ fuel =>
      rw [hfuel] at h
      exact ⟨fuel, rfl, h⟩

theorem burn_handed {code : BumpGuest → Except Trap α × BumpGuest}
    (h : ∀ guest, (code guest).2.handed = guest.handed) : (guest.burn code).2.handed = guest.handed := by
  unfold burn
  cases guest.fuel with
  | zero => rfl
  | succ fuel => exact h _

/-- With fuel and room left, the arguments of a host function are laid out. -/
theorem place_ok {fuel : Nat} {op : HostImport} (hfuel : guest.fuel = fuel + 1)
    (hsize : guest.memory.length + (argumentBytes op).length < 2 ^ 32) :
    guest.place op = (.ok ⟨guest.memory ++ argumentBytes op, UInt32.ofNat guest.memory.length,
      UInt32.ofNat (guest.memory.length + firstLength op)⟩, { guest with fuel := fuel }) := by
  unfold place burn
  rw [hfuel]
  exact if_pos hsize

/-- Bytes put behind a memory are read where it ended. -/
theorem holding_append (memory args rest : Bytes) (second : UInt32)
    (hsize : memory.length + args.length < 2 ^ 32) :
    Placement.Holding ⟨memory ++ (args ++ rest), UInt32.ofNat memory.length, second⟩
      (UInt32.ofNat memory.length) args := by
  have hptr : (UInt32.ofNat memory.length).toNat = memory.length :=
    UInt32.toNat_ofNat_of_lt' (by show _ < 2 ^ 32; omega)
  have hlen : (UInt32.ofNat args.length).toNat = args.length :=
    UInt32.toNat_ofNat_of_lt' (by show _ < 2 ^ 32; omega)
  exact ⟨by omega, readGuest_append memory rest hptr hlen⟩

theorem place_holds {op : HostImport} {placement : Placement}
    (h : guest.place op = (.ok placement, guest')) : placement.Holds op := by
  obtain ⟨fuel, _, hplaced⟩ := burn_ok h
  by_cases hsize : guest.memory.length + (argumentBytes op).length < 2 ^ 32
  swap
  · simp only [hsize, if_false] at hplaced
    cases hplaced
  simp only [hsize, if_true] at hplaced
  cases hplaced
  cases op with
  | log level message =>
      have hheld := holding_append guest.memory message [] (UInt32.ofNat (guest.memory.length +
        message.length)) hsize
      rw [List.append_nil] at hheld
      exact hheld
  | call name request =>
      rw [argumentBytes, List.length_append] at hsize
      refine ⟨holding_append guest.memory name request _ (by omega), ?_⟩
      have hheld := holding_append (guest.memory ++ name) request [] 0
        (by rw [List.length_append]; omega)
      rw [List.append_nil, List.append_assoc, List.length_append] at hheld
      exact hheld
  | responseRead len =>
      rw [argumentBytes, List.length_replicate] at hsize
      have hptr : (UInt32.ofNat guest.memory.length).toNat = guest.memory.length :=
        UInt32.toNat_ofNat_of_lt' (by show _ < 2 ^ 32; omega)
      show (UInt32.ofNat guest.memory.length).toNat + len.toUInt32.toNat ≤ _
      rw [hptr, argumentBytes, List.length_append, List.length_replicate]

theorem place_handed (guest : BumpGuest) (op : HostImport) :
    (guest.place op).2.handed = guest.handed :=
  burn_handed fun guest => by split_ifs <;> rfl

theorem compute_handed (guest : BumpGuest) (bytes : Bytes) :
    (guest.compute bytes).2.handed = guest.handed :=
  burn_handed fun guest => by split_ifs <;> rfl

theorem compute_fits {bytes : Bytes} (h : guest.compute bytes = (.ok (), guest')) :
    bytes.length < 2 ^ 32 := by
  obtain ⟨fuel, _, hcomputed⟩ := burn_ok h
  by_contra hsize
  simp only [hsize, if_false] at hcomputed
  cases hcomputed

theorem allocate_ok {len ptr : UInt32} (h : guest.allocate len = (.ok ptr, guest')) (hptr : ptr ≠ 0) :
    1 < ptr.toNat ∧ ptr.toNat + len.toNat ≤ guest'.memory.length ∧
      (∀ block ∈ guest.handed, block.Disjoint ⟨ptr, len⟩) ∧
        guest'.handed = ⟨ptr, len⟩ :: guest.handed := by
  obtain ⟨fuel, _, hallocated⟩ := burn_ok h
  simp only at hallocated
  split_ifs at hallocated with hroom
  · cases hallocated
    obtain ⟨hone, hsize, hbefore⟩ := hroom
    have haddress : (UInt32.ofNat guest.memory.length).toNat = guest.memory.length :=
      UInt32.toNat_ofNat_of_lt' (by show _ < 2 ^ 32; omega)
    refine ⟨by omega, ?_, fun block hmem => Or.inl ?_, rfl⟩
    · rw [haddress, List.length_append, List.length_replicate]
    · rw [haddress]
      exact hbefore block hmem
  · cases hallocated
    exact absurd rfl hptr

theorem allocate_keeps {len ptr : UInt32} (h : guest.allocate len = (.ok ptr, guest')) :
    ∀ block ∈ guest.handed, block.contents guest'.memory = block.contents guest.memory := by
  intro block hmem
  obtain ⟨fuel, _, hallocated⟩ := burn_ok h
  simp only at hallocated
  split_ifs at hallocated with hroom
  · cases hallocated
    have hinside := hroom.2.2 block hmem
    have hgrown : block.ptr.toNat + block.len.toNat ≤
        (guest.memory ++ List.replicate len.toNat 0).length := by
      rw [List.length_append]
      omega
    simp only [Block.contents, readGuest, Option.bind_some, if_pos hinside, if_pos hgrown]
    rw [List.drop_append_of_le_length (by omega), List.take_append_of_le_length]
    rw [List.length_drop]
    omega
  · cases hallocated
    rfl

end BumpGuest

/-- The sandbox of the growing allocator. -/
def Sandbox.bump : Sandbox where
  Guest := BumpGuest
  memory := BumpGuest.memory
  setMemory guest data := { guest with memory := data }
  handed := BumpGuest.handed
  place := BumpGuest.place
  compute := BumpGuest.compute
  allocate := BumpGuest.allocate
  release := BumpGuest.release
  memory_set _ _ := rfl
  handed_set _ _ := rfl
  place_holds _ _ _ _ := BumpGuest.place_holds
  place_handed := BumpGuest.place_handed
  compute_fits _ _ _ := BumpGuest.compute_fits
  compute_handed := BumpGuest.compute_handed
  allocate_ok _ _ _ _ := BumpGuest.allocate_ok
  allocate_keeps _ _ _ _ := BumpGuest.allocate_keeps
  release_ok guest block guest' h := by
    obtain ⟨fuel, _, hreleased⟩ := BumpGuest.burn_ok h
    cases hreleased
    rfl
  release_keeps guest block guest' h kept hmem := by
    obtain ⟨fuel, _, hreleased⟩ := BumpGuest.burn_ok h
    cases hreleased
    rfl

theorem Sandbox.place_bump (guest : BumpGuest) (op : HostImport) {fuel : Nat}
    (hfuel : guest.fuel = fuel + 1)
    (hsize : guest.memory.length + (BumpGuest.argumentBytes op).length < 2 ^ 32) :
    Sandbox.bump.place guest op = (.ok ⟨guest.memory ++ BumpGuest.argumentBytes op,
      UInt32.ofNat guest.memory.length, UInt32.ofNat (guest.memory.length + BumpGuest.firstLength op)⟩,
        ({ guest with fuel := fuel } : BumpGuest)) := BumpGuest.place_ok hfuel hsize

end TdsWasm
