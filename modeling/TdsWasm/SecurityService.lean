import TdsWasm.SecurityIsolation

/-! What a service reaches and what it spends, with any number of runs under way in any order. The policy says
what the host may ask of the world at all, and how many requests a run may give to the client of the model, which
follows redirects by itself. -/

set_option autoImplicit false

namespace TdsWasm

variable {γ : Type}

/-- The question gives the client of the model a request to send. -/
def Question.isSend (question : Question) : Bool :=
  match question.op with
  | .send _ => true
  | _ => false

/-- Requests to the model are paid for. -/
abbrev spending : Program.Ledger worldSignature Nat := .paying Question.isSend

/-- The request goes to the endpoint of this policy, with the key that its variable holds. -/
structure Policy.Addresses (platform : Platform) (policy : Policy) (request : ModelRequest) : Prop where
  provider_eq : policy.llm.provider = .anthropic
  url_eq : request.url = AnthropicProvider.trimEndSlashes policy.llm.baseUrl ++ "/v1/messages"
  key_eq : ∀ key, ("x-api-key", key) ∈ request.headers → platform.envVar policy.llm.apiKeyEnv = some key

/-- What the host may ask the world under this policy. -/
def Policy.Reaches (platform : Platform) (policy : Policy) : WorldOp → Prop
  | .get url => policy.Fetches url
  | .send request => policy.Addresses platform request
  | .sleep _ => policy.llm.provider = .anthropic
  | .now => "now" ∈ policy.tools.enabled

/-! ### Providers -/

namespace WorldProvider

/-- A completion asks the world nothing else than this. -/
def Asks (llm : WorldProvider) (allowed : WorldOp → Prop) : Prop :=
  ∀ history request, (llm.complete history request).Keeps (.only fun question : Question => allowed question.op)
    (fun _ _ => True) ()

/-- A completion sends so many requests at most. -/
def Sends (llm : WorldProvider) (bound : Nat) : Prop :=
  ∀ history request, (llm.complete history request).Keeps spending (fun _ _ => True) bound

end WorldProvider

/-- A provider has the configuration it was made for, and the key of the variable named there. -/
theorem AnthropicProvider.of_new {platform : Platform} {config : LlmConfig} {provider : AnthropicProvider}
    (h : new platform config = .ok provider) :
    provider.config = config ∧ platform.envVar config.apiKeyEnv = some provider.apiKey := by
  unfold new at h
  cases hkey : platform.envVar config.apiKeyEnv with
  | none =>
      rw [hkey] at h
      cases h
  | some key =>
      simp only [hkey, pure_bind] at h
      split_ifs at h
      · cases h
      cases hclient : platform.buildModelClient config.requestTimeoutMs with
      | error e =>
          rw [hclient] at h
          cases h
      | ok client =>
          rw [hclient] at h
          cases h
          exact ⟨rfl, rfl⟩

namespace Stepwise

variable (platform : Platform)

/-- Every attempt sends the one request of the completion. -/
theorem anthropic_asks (provider : AnthropicProvider) {allowed : WorldOp → Prop}
    (hsend : ∀ request, allowed (.send (provider.httpRequest request))) (hsleep : ∀ wait, allowed (.sleep wait)) :
    (anthropic platform provider).Asks allowed := by
  intro history request
  apply completeLoop_keeps platform fun _ _ _ => True
  · intro _ _ _ _
    exact ⟨hsend request, fun _ _ => trivial⟩
  · intro _ _ _ _ wait _ _
    exact ⟨hsleep wait, trivial⟩
  · exact trivial

/-- A completion pays for the attempt it is in and for each retry that is left. -/
theorem anthropic_sends (provider : AnthropicProvider) :
    (anthropic platform provider).Sends (provider.config.maxRetries.toNat + 1) := by
  intro history request
  apply completeLoop_keeps platform fun attempt _ left => provider.config.maxRetries.toNat - attempt.toNat + 1 ≤ left
  · intro attempt done left hleft
    exact ⟨fun _ => by omega, fun _ _ => trivial⟩
  · intro attempt done left exchange wait hleft hlt
    have hnat := UInt32.lt_iff_toNat_lt.mp hlt
    refine ⟨nofun, ?_⟩
    show provider.config.maxRetries.toNat - (attempt + 1).toNat + 1 ≤ left - 1
    rw [Word.toNat_add_one hlt]
    omega
  · exact Nat.le_refl _

/-- The provider of a policy keeps to the policy. -/
theorem build_keeps {policy : Policy} {llm : WorldProvider} (h : build platform policy.llm = .ok llm) :
    llm.Asks (policy.Reaches platform) ∧ llm.Sends (policy.llm.maxRetries.toNat + 1) := by
  unfold build at h
  cases hprovider : policy.llm.provider with
  | mock =>
      rw [hprovider] at h
      cases h
      exact ⟨fun _ _ => trivial, fun _ _ => trivial⟩
  | anthropic =>
      rw [hprovider] at h
      cases hnew : AnthropicProvider.new platform policy.llm with
      | error e =>
          rw [hnew] at h
          cases h
      | ok provider =>
          rw [hnew] at h
          cases h
          obtain ⟨hconfig, hkey⟩ := AnthropicProvider.of_new hnew
          refine ⟨anthropic_asks platform provider (fun request => ⟨hprovider, ?_, ?_⟩) fun _ => hprovider, ?_⟩
          · rw [← hconfig]
            rfl
          · intro key hmem
            have hheader : key = provider.apiKey := by
              simp only [AnthropicProvider.httpRequest] at hmem
              split_ifs at hmem <;> simpa using hmem
            rw [hkey, hheader]
          · rw [← hconfig]
            exact anthropic_sends platform provider

/-! ### Runs -/

/-- The host functions ask for nothing beyond the policy. -/
theorem kept_reaches {policy : Policy} {llm : WorldProvider} (hllm : llm.Asks (policy.Reaches platform)) :
    Kept platform llm (.only fun question : Question => policy.Reaches platform question.op)
      fun run _ => run.data.tools.policy = policy where
  quiet _ _ h := h
  invoked {run _} req h := by
    subst h
    exact invoke_keeps platform (fun tools _ _ => tools.policy = run.data.tools.policy) run.data.tools req.name
      req.input (fun _ => rfl) (fun url hfetches => ⟨hfetches, fun _ => rfl⟩) fun henabled => ⟨henabled, rfl⟩
  completed {run _} req h _ := (hllm run.history req).mono fun _ _ _ => h

/-- What is left to a run that has its turns left, each of them with so many requests. -/
structure Affords (policy : Policy) (bound : Nat) (run : HostRun) (left : Nat) : Prop where
  policy_eq : run.data.policy = policy
  turns_le : (policy.limits.maxSteps.toNat - run.data.llmCalls.toNat) * bound ≤ left

theorem kept_affords (policy : Policy) {llm : WorldProvider} {bound : Nat} (hllm : llm.Sends bound) :
    Kept platform llm spending (Affords policy bound) where
  quiet _ _ h := ⟨h.policy_eq, h.turns_le⟩
  invoked {run left} req h := by
    obtain ⟨hpolicy, hleft⟩ := h
    -- a tool call sends nothing to the model, so that nothing is paid for it
    have hfree : ∀ op, Question.isSend ⟨run.history, op⟩ = false →
        spending.admits left ⟨run.history, op⟩ ∧
          (policy.limits.maxSteps.toNat - run.data.llmCalls.toNat) * bound ≤
            spending.enter left ⟨run.history, op⟩ := by
      intro op hop
      refine ⟨fun hsend => absurd (hop.symm.trans hsend) Bool.false_ne_true, ?_⟩
      show _ ≤ if Question.isSend ⟨run.history, op⟩ then left - 1 else left
      rw [hop]
      exact hleft
    have hinvoke : (invoke platform run.data.tools run.history req.name req.input).Keeps spending
        (fun _ left => (policy.limits.maxSteps.toNat - run.data.llmCalls.toNat) * bound ≤ left) left :=
      invoke_keeps platform (fun _ _ left => (policy.limits.maxSteps.toNat - run.data.llmCalls.toNat) * bound ≤ left)
        run.data.tools req.name req.input (fun _ => hleft)
        (fun url _ => ⟨(hfree (.get url) rfl).1, fun _ => (hfree (.get url) rfl).2⟩) fun _ => hfree .now rfl
    exact hinvoke.mono fun answered left hle => ⟨hpolicy, hle⟩
  completed {run left} req h hturns := by
    obtain ⟨hpolicy, hleft⟩ := h
    rw [hpolicy] at hturns
    have hnat := UInt32.lt_iff_toNat_lt.mp hturns
    obtain ⟨turns, hsub⟩ : ∃ turns, policy.limits.maxSteps.toNat - run.data.llmCalls.toNat = turns + 1 :=
      ⟨policy.limits.maxSteps.toNat - run.data.llmCalls.toNat - 1, by omega⟩
    have hnext : policy.limits.maxSteps.toNat - (run.data.llmCalls + 1).toNat = turns := by
      rw [Word.toNat_add_one hturns]
      omega
    rw [hsub, Nat.succ_mul] at hleft
    have hpaid := (hllm run.history req).more (left - bound)
    rw [Nat.add_sub_cancel' (Nat.le_trans (Nat.le_add_left _ _) hleft)] at hpaid
    apply hpaid.mono
    rintro answered rest ⟨kept, -, rfl⟩
    refine ⟨hpolicy, ?_⟩
    show (policy.limits.maxSteps.toNat - (run.data.llmCalls + 1).toNat) * bound ≤ _
    rw [hnext]
    omega

end Stepwise

/-! ### The service -/

namespace Shared

variable {platform : Platform} {policy : Policy} {module : AgentModule γ} {fresh : γ} {shared : Shared γ}

theorem of_fromFiles (h : fromFiles platform policy module fresh = .ok shared) :
    Stepwise.build platform policy.llm = .ok shared.llm ∧ policy.validate platform = .ok () ∧
      shared = ⟨policy, shared.llm, module, fresh⟩ := by
  unfold fromFiles new at h
  cases hbuild : Stepwise.build platform policy.llm with
  | error e =>
      rw [hbuild] at h
      cases h
  | ok llm =>
      rw [hbuild] at h
      cases hvalid : policy.validate platform with
      | error e =>
          simp only [hvalid] at h
          cases h
      | ok _ =>
          simp only [hvalid] at h
          cases hshape : verifyModuleShape platform module.shape with
          | error e =>
              simp only [hshape] at h
              cases h
          | ok _ =>
              simp only [hshape] at h
              cases h
              exact ⟨rfl, rfl, rfl⟩

/-- What every handler keeps, every program of the pool keeps. -/
theorem started_keeps {κ : Type} {ledger : Program.Ledger worldSignature κ} {k : κ}
    (hkeeps : ∀ request, (shared.runHandler platform request).Keeps ledger (fun _ _ => True) k)
    (moves : List ServiceMove) : ∀ program ∈ Pool.started (moves.map (shared.poolMove platform)),
      program.Keeps ledger (fun _ _ => True) k := by
  intro program hmem
  rw [started_poolMoves] at hmem
  obtain ⟨request, _, rfl⟩ := List.mem_map.mp hmem
  exact hkeeps request

variable {σ : Type} (world : Nat → worldSignature.Handler σ) (outside : σ) (moves : List ServiceMove)

/-- **A service stays within its policy.** Whatever is posted, whatever the guests do and in whatever order the runs
ask, the host fetches only what the tools of the policy may fetch, gives the client of the model requests for the
endpoint of the policy only, with the key of the variable named there, and asks for the time only where the tool is
enabled. -/
theorem served_reaches (hfiles : fromFiles platform policy module fresh = .ok shared) :
    ∀ entry ∈ shared.served platform world outside moves, policy.Reaches platform entry.2.op.op := by
  obtain ⟨hbuild, _, hshared⟩ := of_fromFiles hfiles
  have hpolicy : shared.policy = policy := congrArg Shared.policy hshared
  have hkept := Stepwise.kept_reaches platform (Stepwise.build_keeps platform hbuild).1
  have hkeeps := started_keeps (fun request => runHandler_keeps (k := ()) hkept (fun tools htools =>
    ToolBox.policy_of_new (hpolicy ▸ htools)) request) moves
  exact Pool.forall_record world outside hkeeps

/-- A platform that holds a key, and the service on it whose module asks the model when it starts. -/
def keyedPlatform : Platform := { Platform.offline with envVar := fun _ => some "key" }

theorem served_reaches_overtaken : ∃ shared, fromFiles keyedPlatform .default asking () = .ok shared ∧
    ∀ entry ∈ shared.served keyedPlatform ticking 9 overtaken, Policy.default.Reaches keyedPlatform entry.2.op.op := by
  have hfiles : fromFiles keyedPlatform .default asking () = .ok _ := rfl
  exact ⟨_, hfiles, served_reaches ticking 9 overtaken hfiles⟩

/-- **A service spends what its policy allows.** At any time a run has had its client send one request at most for
every turn and every retry of a turn, and all of them together no more than the requests posted by then account for.
What the client sends by itself to follow a redirect is not counted. -/
theorem served_sends_le (hfiles : fromFiles platform policy module fresh = .ok shared) :
    let spent := shared.served platform world outside moves
    let budget := policy.limits.maxSteps.toNat * (policy.llm.maxRetries.toNat + 1)
    (∀ run, (Pool.own run spent).countP (fun event => event.op.isSend) ≤ budget) ∧
      spent.countP (fun entry => entry.2.op.isSend) ≤ (posted moves).length * budget := by
  intro spent budget
  obtain ⟨hbuild, _, hshared⟩ := of_fromFiles hfiles
  have hpolicy : shared.policy = policy := congrArg Shared.policy hshared
  have hkept := Stepwise.kept_affords platform policy (Stepwise.build_keeps platform hbuild).2
  have hstart : ∀ tools, Stepwise.Affords policy (policy.llm.maxRetries.toNat + 1) (shared.store tools).host budget :=
    fun tools => ⟨hpolicy, Nat.le_refl budget⟩
  have hkeeps := started_keeps (fun request => runHandler_keeps hkept (fun tools _ => hstart tools) request) moves
  refine ⟨fun run => Program.Ledger.count_le_of_paying (Pool.own_admits world outside hkeeps run), ?_⟩
  have hcount := Pool.countP_record_le world outside hkeeps
  rw [started_poolMoves, List.length_map] at hcount
  exact hcount

theorem served_sends_le_overtaken : ∃ shared, fromFiles keyedPlatform .default asking () = .ok shared ∧
    (shared.served keyedPlatform ticking 9 overtaken).countP (fun entry => entry.2.op.isSend) ≤
      (posted overtaken).length *
        (Policy.default.limits.maxSteps.toNat * (Policy.default.llm.maxRetries.toNat + 1)) := by
  have hfiles : fromFiles keyedPlatform .default asking () = .ok _ := rfl
  exact ⟨_, hfiles, (served_sends_le ticking 9 overtaken hfiles).2⟩

end Shared

end TdsWasm
