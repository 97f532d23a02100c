import TdsWasm.HostModule

/-! What the check at load time settles about linking a module and entering it. The check looks at names; the
linker and the lookups of a run look at kinds and types. -/

set_option autoImplicit false

namespace TdsWasm

/-- The exports that a run looks up, each with the kind and the type it must have by then. -/
def lookedUp : List (String × ExternType) :=
  [("memory", .memory), ("tds_abi_version", .func ⟨[], [.i32]⟩), ("tds_alloc", .func ⟨[.i32], [.i32]⟩),
    ("tds_dealloc", .func ⟨[.i32, .i32], []⟩), ("tds_run", .func ⟨[.i32, .i32], [.i64]⟩)]

namespace ModuleShape

/-- Nothing that bears one of the names of the ABI is of another kind or type than the ABI gives it. -/
structure TypesMatch (shape : ModuleShape) : Prop where
  imports : ∀ entry ∈ shape.imports, ∀ host ∈ registerHostFunctions, entry.name = host.1 →
    entry.type = .func host.2
  exports : ∀ wanted ∈ lookedUp, ∀ found ∈ shape.exports.get wanted.1, found = wanted.2

/-- Every import is a host function at the type it is registered with, and every export that a run looks up is
there with its kind and type. -/
structure HasAbi (shape : ModuleShape) : Prop where
  imports : ∀ entry ∈ shape.imports, ∃ host ∈ registerHostFunctions,
    entry = ⟨hostModule, host.1, .func host.2⟩
  exports : ∀ wanted ∈ lookedUp, shape.exports.get wanted.1 = some wanted.2

/-- Linking succeeds, and so does every lookup in the instance. -/
structure Enterable {γ : Type} (shape : ModuleShape) (agent : Instance γ) : Prop where
  linked : shape.link = .ok ()
  memory : ∃ memory, agent.memory = some memory
  abiVersion : ∃ call, agent.abiVersion = .ok call
  alloc : ∃ call, agent.alloc = .ok call
  dealloc : ∃ call, agent.dealloc = .ok call
  run : ∃ call, agent.run = .ok call

/-- The linker goes by the first definition of a name, and there is one of each. -/
theorem lookup_host_iff {name : String} {type : FuncType} :
    registerHostFunctions.lookup name = some type ↔ (name, type) ∈ registerHostFunctions := by
  by_cases hlog : name = "log"
  · subst hlog
    simp [registerHostFunctions, eq_comm]
  by_cases hcall : name = "call"
  · subst hcall
    simp [registerHostFunctions, List.lookup_cons, eq_comm]
  by_cases hread : name = "response_read"
  · subst hread
    simp [registerHostFunctions, List.lookup_cons, eq_comm]
  · have hnone : registerHostFunctions.lookup name = none := by
      simp only [registerHostFunctions, List.lookup_cons, beq_false_of_ne hlog, beq_false_of_ne hcall,
        beq_false_of_ne hread, List.lookup_nil]
    rw [hnone]
    simp [registerHostFunctions, hlog, hcall, hread]

/-- What the linker defines is what the host registers, under its one module name. -/
theorem defines_iff {entry : ImportType} :
    defines entry = true ↔ ∃ host ∈ registerHostFunctions, entry = ⟨hostModule, host.1, .func host.2⟩ := by
  obtain ⟨moduleName, name, type⟩ := entry
  rw [defines, Bool.and_eq_true, decide_eq_true_eq, Option.any_eq_true]
  simp only [decide_eq_true_eq, lookup_host_iff, Prod.exists, ImportType.mk.injEq]
  constructor
  · rintro ⟨rfl, signature, hhost, rfl⟩
    exact ⟨name, signature, hhost, rfl, rfl, rfl⟩
  · rintro ⟨_, signature, hhost, rfl, rfl, rfl⟩
    exact ⟨rfl, signature, hhost, rfl⟩

theorem link_eq_ok_iff {shape : ModuleShape} :
    shape.link = .ok () ↔ ∀ entry ∈ shape.imports, defines entry = true := by
  unfold link
  cases hfind : shape.imports.find? fun entry => !defines entry with
  | none =>
      have hall := List.find?_eq_none.mp hfind
      simp only [true_iff]
      intro entry hmem
      simpa using hall entry hmem
  | some entry =>
      have hmem := List.mem_of_find?_eq_some hfind
      have hbad := List.find?_some hfind
      simp only [reduceCtorEq, false_iff]
      intro hall
      rw [hall entry hmem] at hbad
      cases hbad

theorem allowed_eq : allowed = registerHostFunctions.map Prod.fst := rfl

theorem requiredExports_eq : requiredExports = lookedUp.map Prod.fst := rfl

/-- Looking up a function finds a function of this type and nothing else. -/
theorem getTypedFunc_map_iff {α : Type} {shape : ModuleShape} {name : String} {type : FuncType} (call : α) :
    (∃ found, ((shape.getTypedFunc name type).map fun _ => call) = .ok found) ↔
      shape.exports.get name = some (.func type) := by
  unfold getTypedFunc
  by_cases h : shape.exports.get name = some (.func type)
  · rw [if_pos h]
    exact iff_of_true ⟨call, rfl⟩ h
  · rw [if_neg h]
    refine iff_of_false ?_ h
    rintro ⟨found, hfound⟩
    cases hfound

/-- The check at load time looks at names. -/
theorem verify_eq_ok_iff {platform : Platform} {shape : ModuleShape} :
    verifyModuleShape platform shape = .ok () ↔
      (∀ entry ∈ shape.imports, entry.moduleName = hostModule ∧ entry.name ∈ allowed) ∧
        ∀ name ∈ requiredExports, ∃ type, shape.exports.get name = some type := by
  unfold verifyModuleShape
  cases himport : shape.imports.find? fun entry =>
      entry.moduleName ≠ hostModule ∨ !allowed.contains entry.name with
  | some entry =>
      have hmem := List.mem_of_find?_eq_some himport
      have hbad := List.find?_some himport
      constructor
      · intro h
        cases h
      · rintro ⟨himports, _⟩
        simp [himports entry hmem] at hbad
  | none =>
      have himports := List.find?_eq_none.mp himport
      cases hexport : requiredExports.find? fun required => (shape.exports.get required).isNone with
      | some required =>
          have hmem := List.mem_of_find?_eq_some hexport
          have hbad := List.find?_some hexport
          constructor
          · intro h
            cases h
          · rintro ⟨_, hexports⟩
            obtain ⟨type, htype⟩ := hexports required hmem
            rw [htype] at hbad
            cases hbad
      | none =>
          have hexports := List.find?_eq_none.mp hexport
          refine iff_of_true rfl ⟨fun entry hmem => ?_, fun name hmem => ?_⟩
          · simpa using himports entry hmem
          · exact Option.ne_none_iff_exists'.mp (by simpa using hexports name hmem)

end ModuleShape

variable {γ : Type}

/-- What a module has passed once the runtime is there, and what the runtime makes of it. -/
theorem Runtime.of_new {platform : Platform} {policy : Policy} {module : AgentModule γ} {fresh : γ}
    {llm : LlmProvider} {runtime : Runtime γ} (hnew : new platform policy module fresh llm = .ok runtime) :
    policy.validate platform = .ok () ∧ verifyModuleShape platform module.shape = .ok () ∧
      runtime = ⟨policy, llm, module.toInstance platform, fresh⟩ := by
  unfold new at hnew
  cases hvalid : policy.validate platform with
  | error e =>
      rw [hvalid] at hnew
      cases hnew
  | ok valid =>
      cases hshape : verifyModuleShape platform module.shape with
      | error e =>
          rw [hvalid, hshape] at hnew
          cases hnew
      | ok accepted =>
          rw [hvalid, hshape] at hnew
          cases hnew
          exact ⟨rfl, rfl, rfl⟩

namespace ModuleShape

/-- Linking and the lookups find what they look for where the imports and exports are those of the ABI. -/
theorem enterable_toInstance_iff (platform : Platform) (module : AgentModule γ) :
    module.shape.Enterable (module.toInstance platform) ↔
      (∀ entry ∈ module.shape.imports, defines entry = true) ∧
        ∀ wanted ∈ lookedUp, module.shape.exports.get wanted.1 = some wanted.2 := by
  have hmemory : (∃ memory, (module.toInstance platform).memory = some memory) ↔
      module.shape.exports.get "memory" = some .memory := by
    by_cases h : module.shape.exports.get "memory" = some .memory
    · exact iff_of_true ⟨module.memory, if_pos (decide_eq_true h)⟩ h
    · refine iff_of_false ?_ h
      have hnone : (module.toInstance platform).memory = none := if_neg (by simpa [getMemory] using h)
      rw [hnone]
      rintro ⟨memory, hmem⟩
      cases hmem
  constructor
  · rintro ⟨hlink, hmem, habi, halloc, hdealloc, hrun⟩
    refine ⟨link_eq_ok_iff.mp hlink, ?_⟩
    simp only [lookedUp, List.forall_mem_cons]
    exact ⟨hmemory.mp hmem, (getTypedFunc_map_iff _).mp habi, (getTypedFunc_map_iff _).mp halloc,
      (getTypedFunc_map_iff _).mp hdealloc, (getTypedFunc_map_iff _).mp hrun, nofun⟩
  · rintro ⟨himports, hexports⟩
    simp only [lookedUp, List.forall_mem_cons] at hexports
    obtain ⟨hmem, habi, halloc, hdealloc, hrun, -⟩ := hexports
    exact ⟨link_eq_ok_iff.mpr himports, hmemory.mpr hmem, (getTypedFunc_map_iff _).mpr habi,
      (getTypedFunc_map_iff _).mpr halloc, (getTypedFunc_map_iff _).mpr hdealloc,
      (getTypedFunc_map_iff _).mpr hrun⟩

end ModuleShape

open ModuleShape in
/-- A module that was accepted at load time has the imports and exports of the ABI, and can be linked and
entered, if and only if nothing that bears a name of the ABI has another kind or type. -/
theorem enterable_iff (platform : Platform) (policy : Policy) (module : AgentModule γ) (fresh : γ)
    (llm : LlmProvider) (runtime : Runtime γ)
    (hnew : Runtime.new platform policy module fresh llm = .ok runtime) :
    (module.shape.HasAbi ↔ module.shape.TypesMatch) ∧
      (module.shape.Enterable runtime.agent ↔ module.shape.TypesMatch) := by
  obtain ⟨_, hshape, rfl⟩ := Runtime.of_new hnew
  obtain ⟨himports, hexports⟩ := verify_eq_ok_iff.mp hshape
  have habi : module.shape.HasAbi ↔ module.shape.TypesMatch := by
    constructor
    · rintro ⟨himport, hexport⟩
      constructor
      · intro entry hmem host hhost hname
        obtain ⟨own, hown, rfl⟩ := himport entry hmem
        -- two registered functions of one name are one function
        have hfirst := lookup_host_iff.mpr hown
        have hsecond := lookup_host_iff.mpr hhost
        rw [← hname] at hsecond
        exact congrArg ExternType.func (Option.some.inj (hfirst.symm.trans hsecond))
      · intro wanted hwanted found hfound
        rw [hexport wanted hwanted] at hfound
        exact (Option.some.inj hfound).symm
    · rintro ⟨himport, hexport⟩
      constructor
      · intro entry hmem
        obtain ⟨hmodule, hname⟩ := himports entry hmem
        rw [allowed_eq] at hname
        obtain ⟨host, hhost, heq⟩ := List.mem_map.mp hname
        refine ⟨host, hhost, ?_⟩
        rw [heq, ← hmodule, ← himport entry hmem host hhost heq.symm]
      · intro wanted hwanted
        have hrequired : wanted.1 ∈ requiredExports := by
          rw [requiredExports_eq]
          exact List.mem_map_of_mem hwanted
        obtain ⟨found, hget⟩ := hexports wanted.1 hrequired
        rw [hget, hexport wanted hwanted found hget]
  refine ⟨habi, (enterable_toInstance_iff platform module).trans (Iff.trans ?_ habi)⟩
  simp only [defines_iff]
  exact ⟨fun h => ⟨h.1, h.2⟩, fun h => ⟨h.imports, h.exports⟩⟩

/-! ### Modules with the right names -/

/-- The shape of a module that imports and exports exactly what the ABI gives. -/
def abiShape : ModuleShape where
  imports := registerHostFunctions.map fun (name, type) => ⟨hostModule, name, .func type⟩
  exports := lookedUp.foldl (fun exports (name, type) => exports.insert name type) .empty

/-- A module of this shape whose code does nothing. -/
def inertModule (shape : ModuleShape) : AgentModule Unit where
  shape := shape
  memory := ⟨fun _ => [], fun guest _ => guest⟩
  start guest := .done (.ok (), guest)
  abiVersion guest := .done (.ok abiVersion, guest)
  alloc _ guest := .done (.ok 0, guest)
  dealloc _ _ guest := .done (.ok (), guest)
  run _ _ guest := .done (.ok 0, guest)

/-- The memory is a function. -/
def functionForMemory : ModuleShape :=
  { abiShape with exports := abiShape.exports.insert "memory" (.func ⟨[], []⟩) }

/-- The host function `log` is imported as a global. -/
def globalForLog : ModuleShape := { abiShape with imports := [⟨hostModule, "log", .global .i32⟩] }

/-- What the runtime makes of a module, on a platform without a network. -/
def offlineRuntime (module : AgentModule Unit) : Runtime Unit :=
  ⟨.default, .constant (.error (.upstream "down")), module.toInstance .offline, ()⟩

theorem enterable_iff_abi : abiShape.Enterable (offlineRuntime (inertModule abiShape)).agent :=
  (enterable_iff .offline .default (inertModule abiShape) () (.constant (.error (.upstream "down")))
    (offlineRuntime (inertModule abiShape)) rfl).2.mpr ⟨by decide, by decide⟩

/-- Two modules that are accepted: the first cannot be entered, the second cannot be linked. -/
theorem accepted_not_enterable :
    (Runtime.new .offline .default (inertModule functionForMemory) () (offlineRuntime (inertModule abiShape)).llm =
        .ok (offlineRuntime (inertModule functionForMemory)) ∧ ¬ functionForMemory.HasAbi ∧
      ¬ functionForMemory.Enterable (offlineRuntime (inertModule functionForMemory)).agent) ∧
    Runtime.new .offline .default (inertModule globalForLog) () (offlineRuntime (inertModule abiShape)).llm =
        .ok (offlineRuntime (inertModule globalForLog)) ∧ ¬ globalForLog.HasAbi ∧
      ¬ globalForLog.Enterable (offlineRuntime (inertModule globalForLog)).agent := by
  refine ⟨⟨rfl, fun h => ?_, fun h => ?_⟩, rfl, fun h => ?_, fun h => ?_⟩
  · have hmemory := h.exports ("memory", .memory) (by decide)
    cases hmemory
  · obtain ⟨memory, hmemory⟩ := h.memory
    cases hmemory
  · obtain ⟨host, _, heq⟩ := h.imports _ (List.mem_singleton_self _)
    cases congrArg ImportType.type heq
  · have hlinked := h.linked
    cases hlinked

end TdsWasm
