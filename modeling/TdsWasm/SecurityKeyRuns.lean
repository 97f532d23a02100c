import TdsWasm.HostSession
import TdsWasm.SecurityKey
import TdsWasm.SecurityShape

/-! Two runs of one module under two API keys. As long as the world gives the same answers, the guest makes the
same moves with the same memory, and neither the guest nor the API user can tell the two runs apart. -/

set_option autoImplicit false

namespace TdsWasm

open Call (Coupled Comparison)

/-! ### Runs of the host -/

/-- A move adds to the record. -/
theorem HostRun.prefix_step (platform : Platform) (run : HostRun) (move : GuestMove) :
    run.history <+: (run.step platform move).1.history := by
  have hmoved := step_moved platform run move
  change Moved platform run move (run.step platform move).1 at hmoved
  generalize (run.step platform move).1 = next at hmoved ⊢
  cases hmoved with
  | quiet pending logs _ => exact List.prefix_rfl
  | request name body _ state events pending _ => exact List.prefix_append _ _

theorem HostRun.prefix_run (platform : Platform) (run : HostRun) (moves : List GuestMove) :
    run.history <+: ((machine platform).run run moves).history := by
  induction moves generalizing run with
  | nil => exact List.prefix_rfl
  | cons move rest ih => exact (prefix_step platform run move).trans (ih _)

/-- What a moment of a run shows: the move, its reply, and what waits and has been logged after it. -/
def HostRun.shown (m : HostMoment) : GuestMove × HostReply × Bytes × List LogLine :=
  (m.input, m.output, m.after.data.pending, m.after.data.logs)

section Hosts

variable {platform : Platform} {first second : AnthropicProvider}

theorem Indistinct.pending {left right : HostRun} (h : Indistinct platform first second left right) :
    left.data.pending = right.data.pending := by rw [h.data]

theorem Indistinct.logs {left right : HostRun} (h : Indistinct platform first second left right) :
    left.data.logs = right.data.logs := by rw [h.data]

/-- The same moves show the same of both hosts. -/
theorem Indistinct.shown (hkey : second = { first with apiKey := second.apiKey }) {left right : HostRun}
    (h : Indistinct platform first second left right) (moves : List GuestMove)
    (hsame : SameAnswers ((HostRun.machine platform).run left moves).history
      ((HostRun.machine platform).run right moves).history) :
    ((HostRun.machine platform).moments left moves).map HostRun.shown =
      ((HostRun.machine platform).moments right moves).map HostRun.shown := by
  induction moves generalizing left right with
  | nil => rfl
  | cons move rest ih =>
      obtain ⟨hreply, hnext⟩ := h.step hkey move
        (hsame.before (HostRun.prefix_run platform _ rest) (HostRun.prefix_run platform _ rest))
      have hhead : HostRun.shown ((HostRun.machine platform).moment left move) =
          HostRun.shown ((HostRun.machine platform).moment right move) := by
        simp only [HostRun.shown, Machine.moment_input, Machine.moment_output, Machine.moment_after]
        exact congrArg _ (Prod.ext hreply (Prod.ext hnext.pending hnext.logs))
      exact congrArg₂ List.cons hhead (ih hnext hsame)

end Hosts

/-! ### Modules -/

section Modules

variable (platform : Platform) (first second : AnthropicProvider)

/-- Two hosts that differ in the key, and are given the same answers until the end. -/
def hostPair : Comparison Failure HostRun HostRun where
  related := Indistinct platform first second
  failed _ := Indistinct platform first second
  agree left right := SameAnswers left.history right.history
  left before after := before.history <+: after.history
  right before after := before.history <+: after.history
  left_refl _ := List.prefix_rfl
  left_trans := List.IsPrefix.trans
  right_refl _ := List.prefix_rfl
  right_trans := List.IsPrefix.trans
  agree_before := SameAnswers.before

/-- Two stores with the same guest and two such hosts. -/
def storePair (γ : Type) : Comparison Failure (Store γ) (Store γ) where
  related left right := Indistinct platform first second left.host right.host ∧ left.guest = right.guest
  failed _ left right := Indistinct platform first second left.host right.host ∧ left.guest = right.guest
  agree left right := SameAnswers left.host.history right.host.history
  left before after := before.host.history <+: after.host.history
  right before after := before.host.history <+: after.host.history
  left_refl _ := List.prefix_rfl
  left_trans := List.IsPrefix.trans
  right_refl _ := List.prefix_rfl
  right_trans := List.IsPrefix.trans
  agree_before := SameAnswers.before

theorem storePair_plain (γ : Type) : Instance.Plain (storePair platform first second γ) where
  message h := h
  context h := h

variable {platform first second} {γ α : Type} (hkey : second = { first with apiKey := second.apiKey })

/-- Whatever the outcome is, it leaves the same guest and two such hosts. -/
theorem storePair_ended {outcome : Except Failure α} {left right : Store γ} :
    (storePair platform first second γ).ended outcome left right ↔
      Indistinct platform first second left.host right.host ∧ left.guest = right.guest := by
  cases outcome <;> exact Iff.rfl

include hkey

theorem coupled_answer (move : GuestMove) :
    Coupled (hostPair platform first second)
      (fun run => (Except.ok (HostRun.answer platform run move).1, (HostRun.answer platform run move).2))
      (fun run => (Except.ok (HostRun.answer platform run move).1, (HostRun.answer platform run move).2)) where
  left run := HostRun.prefix_step platform run move
  right run := HostRun.prefix_step platform run move
  both {left right} h hsame := by
    obtain ⟨hreply, hnext⟩ := Indistinct.step hkey h move hsame
    exact ⟨congrArg Except.ok hreply, hnext⟩

/-- Code of the guest does the same in both stores. -/
theorem GuestCode.coupled_key (code : GuestCode γ α) :
    Coupled (storePair platform first second γ) (code.inStore platform) (code.inStore platform) := by
  have hprogram : ∀ guest, Coupled (hostPair platform first second) _ _ := fun guest =>
    Coupled.program (coupled_answer hkey) (code guest)
  constructor
  · exact fun store => (hprogram store.guest).left store.host
  · exact fun store => (hprogram store.guest).right store.host
  · rintro ⟨left, guest⟩ ⟨right, _⟩ ⟨hhosts, rfl⟩ hsame
    obtain ⟨hresult, hafter⟩ := (hprogram guest).both hhosts hsame
    have hended : ((code guest).run (HostRun.answer platform) left).result =
        ((code guest).run (HostRun.answer platform) right).result := Except.ok.inj hresult
    refine ⟨?_, storePair_ended.mpr ⟨hafter, congrArg Prod.snd hended⟩⟩
    simp only [GuestCode.inStore, hended]

omit hkey in
/-- Code that leaves the host alone does the same in both stores. -/
theorem coupled_guest {call : GuestCall γ α}
    (hcall : ∀ guest, ∃ outcome after, ∀ host, call ⟨host, guest⟩ = (outcome, ⟨host, after⟩)) :
    Coupled (storePair platform first second γ) call call := by
  have hstill : ∀ store : Store γ, store.host.history <+: (call store).2.host.history := by
    rintro ⟨host, guest⟩
    obtain ⟨outcome, after, hsame⟩ := hcall guest
    have hhost : (call ⟨host, guest⟩).2.host = host := congrArg (fun ended => ended.2.host) (hsame host)
    exact hhost.symm ▸ List.prefix_rfl
  refine ⟨hstill, hstill, ?_⟩
  rintro ⟨left, guest⟩ ⟨right, _⟩ ⟨hhosts, rfl⟩ _
  obtain ⟨outcome, after, hsame⟩ := hcall guest
  rw [hsame left, hsame right]
  exact ⟨rfl, storePair_ended.mpr ⟨hhosts, rfl⟩⟩

omit hkey in
/-- The host reads and writes the same memory in both stores. -/
theorem GuestMemory.coupled_key (memory : GuestMemory γ) :
    (∀ ptr bytes, Coupled (storePair platform first second γ) (memory.write ptr bytes) (memory.write ptr bytes)) ∧
      ∀ ptr len, Coupled (storePair platform first second γ) (memory.read ptr len) (memory.read ptr len) := by
  constructor
  · intro ptr bytes
    apply coupled_guest
    intro guest
    simp only [write_apply]
    cases writeGuest (some (memory.data guest)) ptr bytes with
    | some data => exact ⟨_, _, fun _ => rfl⟩
    | none => exact ⟨_, _, fun _ => rfl⟩
  · intro ptr len
    apply coupled_guest
    intro guest
    simp only [read_apply]
    cases readGuest (some (memory.data guest)) ptr len with
    | some bytes => exact ⟨_, _, fun _ => rfl⟩
    | none => exact ⟨_, _, fun _ => rfl⟩

theorem AgentModule.alike_key (module : AgentModule γ) :
    Instance.Alike (storePair platform first second γ) (module.toInstance platform) (module.toInstance platform) :=
  alike platform (storePair_plain platform first second γ) rfl (module.start.coupled_key hkey)
    module.memory.coupled_key (module.abiVersion.coupled_key hkey) (fun len => (module.alloc len).coupled_key hkey)
    (fun ptr len => (module.dealloc ptr len).coupled_key hkey) fun ptr len => (module.run ptr len).coupled_key hkey

end Modules

/-! ### What can be observed -/

/-- What the API user gets of a run: a panic, an error, or the report, with the guest and the response that
were left. -/
def RunResult.visible {γ : Type} : RunResult γ → Option (Except Failure (RunReport × γ × Bytes))
  | .panicked => none
  | .err failure => some (.error failure)
  | .ok report _ store => some (.ok (report, store.guest, store.host.data.pending))

/-- All that the guest and the API user can observe of a run: its result, the moves of the guest with the memory
it had at each of them, and what the host has shown it after each. -/
structure Observation (γ : Type) where
  result : Option (Except Failure (RunReport × γ × Bytes))
  record : Option (Watched γ)
  shown : List (GuestMove × HostReply × Bytes × List LogLine)

namespace AgentModule

variable {γ : Type} (platform : Platform) (policy : Policy) (module : AgentModule γ) (fresh : γ)
  (llm : LlmProvider) (input : AgentInput)

def observe : Observation γ where
  result := ((module.toRuntime platform policy fresh llm).run platform input).visible
  record := module.record platform policy fresh llm input
  shown := match ToolBox.new platform policy, module.record platform policy fresh llm input with
    | .ok tools, some watched =>
        ((HostRun.machine platform).moments (.start policy llm tools) watched.moves).map HostRun.shown
    | _, _ => []

/-- What has happened in the world by the end of a run. -/
def history : History :=
  match (module.toRuntime platform policy fresh llm).session platform input with
  | some (_, store) => store.host.history
  | none => []

end AgentModule

/-- A run does not look at the environment of its process. -/
theorem observe_env {γ : Type} (platform : Platform) (policy : Policy) (module : AgentModule γ) (fresh : γ)
    (llm : LlmProvider) (input : AgentInput) (env : String → Option String) :
    module.observe { platform with envVar := env } policy fresh llm input =
        module.observe platform policy fresh llm input ∧
      module.history { platform with envVar := env } policy fresh llm input =
        module.history platform policy fresh llm input := ⟨rfl, rfl⟩

/-- Nor does a provider, once it has been made. -/
theorem AnthropicProvider.toProvider_env (platform : Platform) (provider : AnthropicProvider)
    (env : String → Option String) :
    provider.toProvider { platform with envVar := env } = provider.toProvider platform := by
  have hloop : ∀ history http attempt done,
      provider.completeLoop { platform with envVar := env } history http attempt done =
        provider.completeLoop platform history http attempt done := by
    intro history http attempt done
    apply completeLoop_induction platform provider history http (motive := fun attempt done result =>
      provider.completeLoop { platform with envVar := env } history http attempt done = result)
    · intro attempt done answer hjudge
      have hsame : judge { platform with envVar := env } provider.config attempt
          (provider.attemptNext history http done).outcome = .inl answer := hjudge
      rw [completeLoop_eq, hsame]
    · intro attempt done wait hjudge ih
      have hsame : judge { platform with envVar := env } provider.config attempt
          (provider.attemptNext history http done).outcome = .inr wait := hjudge
      rw [completeLoop_eq, hsame]
      exact ih
  unfold toProvider complete
  simp only [hloop]

/-- Two providers made of one configuration differ in the key at most. -/
theorem AnthropicProvider.new_key {platform : Platform} {config : LlmConfig} {env env' : String → Option String}
    {first second : AnthropicProvider} (hfirst : new { platform with envVar := env } config = .ok first)
    (hsecond : new { platform with envVar := env' } config = .ok second) :
    second = { first with apiKey := second.apiKey } := by
  have hmade : ∀ {env : String → Option String} {provider : AnthropicProvider},
      new { platform with envVar := env } config = .ok provider →
      provider.config = config ∧ platform.buildModelClient config.requestTimeoutMs = .ok provider.client := by
    intro env provider h
    unfold new at h
    cases hkey : env config.apiKeyEnv with
    | none =>
        simp only [hkey] at h
        cases h
    | some key =>
        simp only [hkey] at h
        by_cases hempty : (Text.trim key).isEmpty = true
        · simp only [pure_bind, if_pos hempty] at h
          cases h
        · simp only [pure_bind, if_neg hempty] at h
          cases hclient : platform.buildModelClient config.requestTimeoutMs with
          | error e =>
              rw [hclient] at h
              cases h
          | ok client =>
              rw [hclient] at h
              cases h
              exact ⟨rfl, rfl⟩
  obtain ⟨hconfig, hclient⟩ := hmade hfirst
  obtain ⟨hconfig', hclient'⟩ := hmade hsecond
  obtain ⟨config₁, key₁, client₁⟩ := first
  obtain ⟨config₂, key₂, client₂⟩ := second
  simp only at hconfig hconfig' hclient hclient'
  cases hclient.symm.trans hclient'
  subst hconfig hconfig'
  rfl

/-! ### Two runs -/

section Runs

variable {γ : Type} (platform : Platform) (policy : Policy) (module : AgentModule γ) (fresh : γ)

/-- What is opened for a run: the same for every provider, or nothing. -/
theorem opening_start (llm : LlmProvider) (input : AgentInput) :
    (module.toRuntime platform policy fresh llm).opening platform input =
      match clamp input.maxSteps 1 policy.limits.maxSteps, ToolBox.new platform policy with
      | some maxSteps, .ok tools =>
          some ({ input with maxSteps := maxSteps }, ⟨.start policy llm tools, fresh⟩)
      | _, _ => none := rfl

/-- Watching the guest does not change the host. -/
theorem watched_host (input : AgentInput) (host : HostRun) :
    ((module.watched.toInstance platform).session platform input ⟨host, ⟨fresh, [], none⟩⟩).2.host =
      ((module.toInstance platform).session platform input ⟨host, fresh⟩).2.host := by
  have hrelated : (watching platform host).related (⟨host, fresh⟩ : Store γ) ⟨host, ⟨fresh, [], none⟩⟩ :=
    ⟨⟨rfl, rfl, rfl⟩, rfl⟩
  obtain ⟨_, hended⟩ := ((module.alike_watched platform host).session (watching_plain platform host) platform
    input).both hrelated trivial
  cases houtcome : ((module.toInstance platform).session platform input ⟨host, fresh⟩).1 with
  | ok output =>
      rw [houtcome] at hended
      exact hended.1.host_eq.symm
  | error failure =>
      rw [houtcome] at hended
      exact hended.1.host_eq.symm

variable {platform policy module fresh} {first second : AnthropicProvider}
  (hkey : second = { first with apiKey := second.apiKey })

theorem indistinct_start (tools : ToolBox) :
    Indistinct platform first second (.start policy (first.toProvider platform) tools)
      (.start policy (second.toProvider platform) tools) := ⟨rfl, rfl, rfl, rfl, rfl, rfl⟩

include hkey

/-- Sessions from fresh hosts that differ in the key end in the same way. -/
theorem session_same {tools : ToolBox} {input : AgentInput}
    (hsame : SameAnswers
      ((module.toInstance platform).session platform input
        ⟨.start policy (first.toProvider platform) tools, fresh⟩).2.host.history
      ((module.toInstance platform).session platform input
        ⟨.start policy (second.toProvider platform) tools, fresh⟩).2.host.history) :
    ((module.toInstance platform).session platform input
        ⟨.start policy (first.toProvider platform) tools, fresh⟩).2.guest =
      ((module.toInstance platform).session platform input
        ⟨.start policy (second.toProvider platform) tools, fresh⟩).2.guest := by
  have hboth := ((module.alike_key hkey).session (storePair_plain platform first second γ) platform input).both
    (s := ⟨.start policy (first.toProvider platform) tools, fresh⟩)
    (t := ⟨.start policy (second.toProvider platform) tools, fresh⟩) ⟨indistinct_start tools, rfl⟩ hsame
  exact (storePair_ended.mp hboth.2).2

/-- Runs from such hosts give the API user the same. -/
theorem run_same {tools : ToolBox} {input clamped : AgentInput}
    (hfirst : (module.toRuntime platform policy fresh (first.toProvider platform)).opening platform input =
      some (clamped, ⟨.start policy (first.toProvider platform) tools, fresh⟩))
    (hsecond : (module.toRuntime platform policy fresh (second.toProvider platform)).opening platform input =
      some (clamped, ⟨.start policy (second.toProvider platform) tools, fresh⟩))
    (hsame : SameAnswers
      ((module.toInstance platform).session platform clamped
        ⟨.start policy (first.toProvider platform) tools, fresh⟩).2.host.history
      ((module.toInstance platform).session platform clamped
        ⟨.start policy (second.toProvider platform) tools, fresh⟩).2.host.history) :
    ((module.toRuntime platform policy fresh (first.toProvider platform)).run platform input).visible =
      ((module.toRuntime platform policy fresh (second.toProvider platform)).run platform input).visible := by
  have halike : Instance.Alike (storePair platform first second γ) (module.toInstance platform)
      (module.toInstance platform) := module.alike_key hkey
  have hplain := storePair_plain platform first second γ
  have hinvoke := halike.invokeAgent hplain platform clamped
  have hagree := Coupled.agree_first (x := (module.toInstance platform).enter)
    (y := (module.toInstance platform).enter) (fun _ => hinvoke) hsame
  obtain ⟨hentered, hstores⟩ := (halike.enter hplain).both
    (s := ⟨.start policy (first.toProvider platform) tools, fresh⟩)
    (t := ⟨.start policy (second.toProvider platform) tools, fresh⟩) ⟨indistinct_start tools, rfl⟩ hagree
  have hagent : ∀ llm, (module.toRuntime platform policy fresh llm).agent = module.toInstance platform := fun _ => rfl
  rw [Runtime.run_eq platform hfirst, Runtime.run_eq platform hsecond, hagent, hagent]
  unfold Instance.session at hsame
  rw [Call.bind_apply, Call.bind_apply] at hsame
  cases hleft : (module.toInstance platform).enter ⟨.start policy (first.toProvider platform) tools, fresh⟩ with
  | mk outcome left =>
      cases hright : (module.toInstance platform).enter
          ⟨.start policy (second.toProvider platform) tools, fresh⟩ with
      | mk outcome' right =>
          rw [hleft, hright] at hentered hstores hsame
          simp only at hentered
          subst hentered
          cases outcome with
          | error failure => rfl
          | ok _ =>
              obtain ⟨hresult, hfinal⟩ := hinvoke.both hstores hsame
              obtain ⟨hhosts, hguest⟩ := storePair_ended.mp hfinal
              have hconfig : second.config = first.config := by rw [hkey]
              have hdescribe : (first.toProvider platform).describe = (second.toProvider platform).describe := by
                simp only [AnthropicProvider.toProvider, hconfig]
              simp only [RunResult.visible, Runtime.report, AgentModule.toRuntime, hresult, hguest, hdescribe,
                hhosts.pending, hhosts.logs]

omit hkey in
/-- A run that is not opened does not ask its provider. -/
theorem observe_unopened (llm llm' : LlmProvider) {input : AgentInput}
    (hopen : (module.toRuntime platform policy fresh llm).opening platform input = none) :
    module.observe platform policy fresh llm input = module.observe platform policy fresh llm' input := by
  have hpolicy : ∀ llm, (module.toRuntime platform policy fresh llm).policy = policy := fun _ => rfl
  obtain ⟨visible, hclosed⟩ : ∃ visible, ∀ llm, module.record platform policy fresh llm input = none ∧
      ((module.toRuntime platform policy fresh llm).run platform input).visible = visible := by
    rw [opening_start] at hopen
    unfold AgentModule.record Runtime.session Runtime.run
    simp only [opening_start, hpolicy]
    cases hclamp : clamp input.maxSteps 1 policy.limits.maxSteps with
    | none => exact ⟨none, fun _ => ⟨rfl, rfl⟩⟩
    | some maxSteps =>
        cases htools : ToolBox.new platform policy with
        | error e => exact ⟨some (.error (.message e)), fun _ => ⟨rfl, rfl⟩⟩
        | ok tools =>
            rw [hclamp, htools] at hopen
            cases hopen
  unfold AgentModule.observe
  rw [(hclosed llm).1, (hclosed llm).2, (hclosed llm').1, (hclosed llm').2]
  cases ToolBox.new platform policy <;> rfl

/-- What is observed of a run that is opened. -/
theorem observe_opened {tools : ToolBox} {input : AgentInput} {maxSteps : UInt32}
    (hclamp : clamp input.maxSteps 1 policy.limits.maxSteps = some maxSteps)
    (htools : ToolBox.new platform policy = .ok tools)
    (hsame : SameAnswers (module.history platform policy fresh (first.toProvider platform) input)
      (module.history platform policy fresh (second.toProvider platform) input)) :
    module.observe platform policy fresh (first.toProvider platform) input =
      module.observe platform policy fresh (second.toProvider platform) input := by
  have hopen : ∀ llm, (module.toRuntime platform policy fresh llm).opening platform input =
      some ({ input with maxSteps := maxSteps }, ⟨.start policy llm tools, fresh⟩) := by
    intro llm
    rw [opening_start, hclamp, htools]
  have hwatch : ∀ llm, (module.watched.toRuntime platform policy ⟨fresh, [], none⟩ llm).opening platform
      input = some ({ input with maxSteps := maxSteps }, ⟨.start policy llm tools, ⟨fresh, [], none⟩⟩) := by
    intro llm
    rw [opening_start, hclamp, htools]
  have hhistory : ∀ llm, module.history platform policy fresh llm input =
      ((module.toInstance platform).session platform { input with maxSteps := maxSteps }
        ⟨.start policy llm tools, fresh⟩).2.host.history := by
    intro llm
    unfold AgentModule.history Runtime.session
    rw [hopen]
    rfl
  have hrecord : ∀ llm, module.record platform policy fresh llm input =
      some ((module.watched.toInstance platform).session platform { input with maxSteps := maxSteps }
        ⟨.start policy llm tools, ⟨fresh, [], none⟩⟩).2.guest := by
    intro llm
    unfold AgentModule.record Runtime.session
    rw [hwatch]
    rfl
  -- the history of a run is the one that its moves lead to
  have hmoves : ∀ llm watched, module.record platform policy fresh llm input = some watched →
      ((HostRun.machine platform).run (.start policy llm tools) watched.moves).history =
        module.history platform policy fresh llm input := by
    intro llm watched hwatched
    obtain ⟨clamped, tools', outcome, store, hopened, hsession, _, hhost, _⟩ :=
      AgentModule.record_eq_some platform hwatched
    rw [hopen] at hopened
    cases hopened
    rw [← hhost, hhistory, hsession]
  have hwatched : module.record platform policy fresh (first.toProvider platform) input =
      module.record platform policy fresh (second.toProvider platform) input := by
    rw [hrecord, hrecord]
    apply congrArg some
    apply session_same hkey
    rw [watched_host, watched_host, ← hhistory, ← hhistory]
    exact hsame
  have hshown : ∀ watched, module.record platform policy fresh (first.toProvider platform) input = some watched →
      ((HostRun.machine platform).moments (.start policy (first.toProvider platform) tools)
        watched.moves).map HostRun.shown =
      ((HostRun.machine platform).moments (.start policy (second.toProvider platform) tools)
        watched.moves).map HostRun.shown := by
    intro watched hleft
    apply (indistinct_start tools).shown hkey
    rw [hmoves _ _ hleft, hmoves _ _ (hwatched ▸ hleft)]
    exact hsame
  have hresult := run_same hkey (hopen _) (hopen _) (by
    rw [← hhistory, ← hhistory]
    exact hsame)
  unfold AgentModule.observe
  rw [hresult, ← hwatched, hrecord, htools]
  simp only [hshown _ (hrecord _)]

theorem observe_same {input : AgentInput}
    (hsame : SameAnswers (module.history platform policy fresh (first.toProvider platform) input)
      (module.history platform policy fresh (second.toProvider platform) input)) :
    module.observe platform policy fresh (first.toProvider platform) input =
      module.observe platform policy fresh (second.toProvider platform) input := by
  cases hopen : (module.toRuntime platform policy fresh (first.toProvider platform)).opening platform input with
  | none => exact observe_unopened _ _ hopen
  | some opened =>
      obtain ⟨tools, htools, _, maxSteps, hclamp, _⟩ := Runtime.opening_eq_some platform hopen
      exact observe_opened hkey hclamp htools hsame

end Runs

/-- The API key is not to be told from a run. Whatever the policy and the guest are, two keys under which the
world gives the same answers lead to the same observation: the same moves of the guest with the same memory, the
same replies, pending responses and lines after each of them, and the same result for the API user. -/
theorem key_noninterference {γ : Type} (platform : Platform) (policy : Policy) (module : AgentModule γ) (fresh : γ)
    (input : AgentInput) (env env' : String → Option String) (first second : AnthropicProvider)
    (hfirst : AnthropicProvider.new { platform with envVar := env } policy.llm = .ok first)
    (hsecond : AnthropicProvider.new { platform with envVar := env' } policy.llm = .ok second)
    (hsame : SameAnswers
      (module.history { platform with envVar := env } policy fresh
        (first.toProvider { platform with envVar := env }) input)
      (module.history { platform with envVar := env' } policy fresh
        (second.toProvider { platform with envVar := env' }) input)) :
    module.observe { platform with envVar := env } policy fresh
        (first.toProvider { platform with envVar := env }) input =
      module.observe { platform with envVar := env' } policy fresh
        (second.toProvider { platform with envVar := env' }) input := by
  rw [AnthropicProvider.toProvider_env platform first env, AnthropicProvider.toProvider_env platform second env'] at *
  rw [(observe_env platform policy module fresh _ input env).2,
    (observe_env platform policy module fresh _ input env').2] at hsame
  rw [(observe_env platform policy module fresh _ input env).1,
    (observe_env platform policy module fresh _ input env').1]
  exact observe_same (AnthropicProvider.new_key hfirst hsecond) hsame

/-- A module whose start function asks for one completion of an empty conversation. -/
def asking : AgentModule Unit :=
  { inertModule abiShape with
    start := fun guest => .ask (.request Cap.llmComplete (Text.utf8 "\x7b\"messages\":[]\x7d"))
      fun _ => .done (.ok (), guest) }

def askingInput : AgentInput := ⟨"task", none, 1⟩

/-- A provider with this key, on a network that answers nothing. -/
def unheard (key : String) : AnthropicProvider := ⟨.default, key, .unreachable⟩

/-- What the world answers to the module under this key. -/
def asked (key : String) : History :=
  asking.history { Platform.offline with envVar := fun _ => some key } .default ()
    ((unheard key).toProvider { Platform.offline with envVar := fun _ => some key }) askingInput

/-- Nothing but this transport error. -/
def unheardOnly (history : History) : Bool :=
  (history.upstream.all fun
    | .error text => text = "unreachable"
    | .ok _ => false) && history.fetched.isEmpty && history.times.isEmpty

theorem sameAnswers_of_unheardOnly {first second : History} (hfirst : unheardOnly first = true)
    (hsecond : unheardOnly second = true) : SameAnswers first second := by
  have hall : ∀ {history : History}, unheardOnly history = true →
      (∀ outcome ∈ history.upstream, outcome = .error "unreachable") ∧ history.fetched = [] ∧
        history.times = [] := by
    intro history h
    simp only [unheardOnly, Bool.and_eq_true, List.all_eq_true, List.isEmpty_iff] at h
    refine ⟨fun outcome hmem => ?_, h.1.2, h.2⟩
    have houtcome := h.1.1 outcome hmem
    cases outcome with
    | error text => exact congrArg Except.error (of_decide_eq_true houtcome)
    | ok response => cases houtcome
  obtain ⟨hupstream, hfetched, htimes⟩ := hall hfirst
  obtain ⟨hupstream', hfetched', htimes'⟩ := hall hsecond
  refine ⟨.of_constant hupstream hupstream', ?_, ?_⟩
  · rw [hfetched, hfetched']
    exact Or.inl List.prefix_rfl
  · rw [htimes, htimes']
    exact Or.inl List.prefix_rfl

/-- The module has asked under both keys, and cannot tell them apart. -/
theorem key_noninterference_asking :
    (asked "first").upstream.length = 3 ∧ (asked "second").upstream.length = 3 ∧
      asking.observe { Platform.offline with envVar := fun _ => some "first" } .default ()
          ((unheard "first").toProvider { Platform.offline with envVar := fun _ => some "first" }) askingInput =
        asking.observe { Platform.offline with envVar := fun _ => some "second" } .default ()
          ((unheard "second").toProvider { Platform.offline with envVar := fun _ => some "second" }) askingInput :=
  ⟨by decide +kernel, by decide +kernel,
    key_noninterference .offline .default asking () askingInput (fun _ => some "first") (fun _ => some "second")
      (unheard "first") (unheard "second") rfl rfl
      (sameAnswers_of_unheardOnly (by decide +kernel)
        (by decide +kernel))⟩

end TdsWasm
