import TdsWasm.HostRetry
import TdsWasm.HostSteps

/-! What a guest can spend on the model. Every turn is counted before it is taken, a turn sends at
most one request for each attempt, and a request is one POST unless the endpoint answers it with a
redirect that keeps the method. -/

set_option autoImplicit false

namespace TdsWasm

/-- The exchanges with the model endpoint among the effects of a completion. -/
def exchanges (effects : List ModelEffect) : List (Exchange defaultRedirects) :=
  effects.filterMap fun
    | .send _ exchange => some exchange
    | .sleep _ => none

namespace History

def modelEffects (history : History) : List ModelEffect :=
  history.filterMap fun
    | .model effect => some effect
    | _ => none

/-- How often the provider has been asked for a completion. -/
def completions (history : History) : Nat :=
  history.countP fun
    | .completed _ _ => true
    | _ => false

/-- How many POSTs the provider has put on the wire. -/
def posts (history : History) : Nat :=
  ((exchanges history.modelEffects).flatMap fun exchange => Exchange.methods .post exchange.hops).count
    .post

theorem modelEffects_append (first second : History) :
    modelEffects (first ++ second) = modelEffects first ++ modelEffects second :=
  List.filterMap_append

theorem completions_append (first second : History) :
    completions (first ++ second) = completions first + completions second := List.countP_append

end History

theorem exchanges_append (first second : List ModelEffect) :
    exchanges (first ++ second) = exchanges first ++ exchanges second := List.filterMap_append

/-! ### One completion -/

/-- A provider that sends at most so many requests for one completion. -/
def LlmProvider.SendsAtMost (llm : LlmProvider) (bound : Nat) : Prop :=
  ∀ history request, (exchanges (llm.complete history request).2).length ≤ bound

namespace AnthropicProvider

variable (platform : Platform) (provider : AnthropicProvider)

/-- The loop sends one request for the attempt it is in and one for each retry that is left. -/
theorem exchanges_completeLoop (history : History) (http : ModelRequest) (attempt : UInt32)
    (done : List ModelEffect) :
    (exchanges (provider.completeLoop platform history http attempt done).2).length ≤
      (exchanges done).length + (provider.config.maxRetries.toNat - attempt.toNat) + 1 := by
  apply completeLoop_induction platform provider history http (motive := fun attempt done result =>
    (exchanges result.2).length ≤ (exchanges done).length + (provider.config.maxRetries.toNat - attempt.toNat) + 1)
  · intro attempt done answer _
    rw [exchanges_append, List.length_append]
    simp only [exchanges, List.filterMap_cons, List.filterMap_nil, List.length_singleton]
    omega
  · intro attempt done wait hjudge hrest
    have hlt := lt_of_judge hjudge
    have hnat := UInt32.lt_iff_toNat_lt.mp hlt
    rw [Word.toNat_add_one hlt] at hrest
    simp only [exchanges_append, List.length_append] at hrest
    simp only [exchanges, List.filterMap_cons, List.filterMap_nil, List.length_singleton,
      List.length_nil] at hrest ⊢
    omega

theorem sendsAtMost_toProvider :
    (provider.toProvider platform).SendsAtMost (provider.config.maxRetries.toNat + 1) := by
  intro history request
  have hloop := exchanges_completeLoop platform provider history (provider.httpRequest request) 0 []
  have hzero : (0 : UInt32).toNat = 0 := rfl
  have hnil : (exchanges []).length = 0 := rfl
  rw [hzero, hnil] at hloop
  show (exchanges (provider.complete platform history request).2).length ≤ _
  rw [complete]
  omega

end AnthropicProvider

/-! ### Runs -/

/-- What the counters of a run say about its record. -/
structure Counted (policy : Policy) (llm : LlmProvider) (run : HostRun) : Prop where
  policy_eq : run.data.policy = policy
  llm_eq : run.data.llm = llm
  calls_eq : run.data.llmCalls.toNat = run.history.completions
  calls_le : run.data.llmCalls ≤ policy.limits.maxSteps
  sends_le : ∀ bound, llm.SendsAtMost bound →
    (exchanges run.history.modelEffects).length ≤ run.history.completions * bound

variable (platform : Platform)

/-- A tool call asks the model nothing. -/
theorem invoke_silent (tools : ToolBox) (history : History) (name : String) (input : JsonValue) :
    History.modelEffects (tools.invoke platform history name input).2.2 = [] ∧
      History.completions (tools.invoke platform history name input).2.2 = 0 := by
  constructor
  · exact ToolBox.filterMap_invoke platform (fun _ _ => rfl) tools history name input
  · apply List.countP_eq_zero.mpr
    intro event hmem
    obtain ⟨url, exchange, rfl⟩ := ToolBox.get_of_invoke platform tools history name input event hmem
    exact Bool.false_ne_true

theorem completion_counted (effects : List ModelEffect) (request : LlmRequest)
    (answer : Except CapError LlmResponse) :
    History.modelEffects (effects.map .model ++ [.completed request answer]) = effects ∧
      History.completions (effects.map .model ++ [.completed request answer]) = 1 := by
  constructor
  · rw [History.modelEffects_append, History.modelEffects, List.filterMap_map]
    simp [History.modelEffects]
  · rw [History.completions_append, History.completions, List.countP_map]
    simp [History.completions, Function.comp_def]

theorem counted_step {policy : Policy} {llm : LlmProvider} (run : HostRun) (move : GuestMove)
    (h : Counted policy llm run) : Counted policy llm ((HostRun.machine platform).step run move).1 := by
  have hmoved := HostRun.step_moved platform run move
  generalize ((HostRun.machine platform).step run move).1 = next at hmoved ⊢
  cases hmoved with
  | quiet pending logs _ => exact ⟨h.policy_eq, h.llm_eq, h.calls_eq, h.calls_le, h.sends_le⟩
  | request name body hreceive state events pending hhandled =>
      cases hhandled with
      | quiet name _ _ =>
          rw [List.append_nil]
          exact ⟨h.policy_eq, h.llm_eq, h.calls_eq, h.calls_le, h.sends_le⟩
      | invoked req hread =>
          obtain ⟨heffects, hcount⟩ :=
            invoke_silent platform run.data.tools run.history req.name req.input
          have hsame : ∀ answer, History.modelEffects
              ((run.data.tools.invoke platform run.history req.name req.input).2.2 ++
                [.invoked req answer]) = [] ∧ History.completions
              ((run.data.tools.invoke platform run.history req.name req.input).2.2 ++
                [.invoked req answer]) = 0 := fun answer => by
            rw [History.modelEffects_append, History.completions_append, heffects, hcount]
            exact ⟨rfl, rfl⟩
          refine ⟨h.policy_eq, h.llm_eq, ?_, h.calls_le, fun bound hbound => ?_⟩
          · rw [History.completions_append, (hsame _).2, Nat.add_zero]
            exact h.calls_eq
          · rw [History.completions_append, History.modelEffects_append, (hsame _).1, (hsame _).2,
              List.append_nil, Nat.add_zero]
            exact h.sends_le bound hbound
      | completed req hturns hread =>
          obtain ⟨heffects, hcount⟩ := completion_counted
            (run.data.llm.complete run.history req).2 req (run.data.llm.complete run.history req).1
          have hcalls := Word.toNat_add_one hturns
          refine ⟨h.policy_eq, h.llm_eq, ?_, ?_, fun bound hbound => ?_⟩
          · rw [History.completions_append, hcount, ← h.calls_eq]
            exact hcalls
          · have hlt := UInt32.lt_iff_toNat_lt.mp hturns
            rw [h.policy_eq] at hlt
            rw [UInt32.le_iff_toNat_le]
            show (run.data.llmCalls + 1).toNat ≤ _
            omega
          · have hsends := hbound run.history req
            rw [← h.llm_eq] at hsends
            rw [History.completions_append, History.modelEffects_append, heffects, hcount,
              exchanges_append, List.length_append, Nat.add_mul, Nat.one_mul]
            exact Nat.add_le_add (h.sends_le bound hbound) hsends

theorem counted_run (policy : Policy) (llm : LlmProvider) (tools : ToolBox) (moves : List GuestMove) :
    Counted policy llm ((HostRun.machine platform).run (.start policy llm tools) moves) :=
  (HostRun.machine platform).run_invariant (motive := Counted policy llm) (counted_step platform)
    ⟨rfl, rfl, rfl, UInt32.le_iff_toNat_le.mpr (Nat.zero_le _), fun _ _ => Nat.zero_le _⟩ moves

/-! ### POSTs on the wire -/

namespace Exchange

variable {maxRedirects : Nat}

/-- The endpoint did not answer with a redirect that keeps the method. -/
def Direct (exchange : Exchange maxRedirects) : Prop := exchange.hops.head?.any keepsMethod = false

instance (exchange : Exchange maxRedirects) : Decidable exchange.Direct :=
  inferInstanceAs (Decidable (_ = false))

theorem count_post_methods_get (hops : List Hop) : (methods .get hops).count .post = 0 := by
  induction hops with
  | nil => rfl
  | cons hop rest ih =>
      rw [methods, ite_self, List.count_cons_of_ne (by decide), ih]

theorem posts_of_direct {exchange : Exchange maxRedirects} (hdirect : exchange.Direct) :
    exchange.posts = 1 := by
  unfold posts
  cases hhops : exchange.hops with
  | nil => rfl
  | cons hop rest =>
      have hhop : keepsMethod hop = false := by
        rw [Direct, hhops] at hdirect
        exact hdirect
      rw [methods, hhop, if_neg (by decide), List.count_cons_self, count_post_methods_get]

end Exchange

theorem posts_of_direct {history : History}
    (hdirect : ∀ exchange ∈ exchanges history.modelEffects, exchange.Direct) :
    history.posts = (exchanges history.modelEffects).length := by
  unfold History.posts
  generalize exchanges history.modelEffects = sent at hdirect ⊢
  induction sent with
  | nil => rfl
  | cons exchange rest ih =>
      obtain ⟨hhead, htail⟩ := List.forall_mem_cons.mp hdirect
      have hone : (Exchange.methods .post exchange.hops).count .post = 1 :=
        Exchange.posts_of_direct hhead
      rw [List.flatMap_cons, List.count_append, hone, ih htail, List.length_cons, Nat.add_comm]

/-- Model spend is bounded at every state a guest can reach: turns are counted exactly and capped, the
provider's requests are capped with them, and so are the POSTs on the wire unless the endpoint
answers with a redirect that repeats them. -/
theorem model_spend_bounded (policy : Policy) (llm : LlmProvider) (tools : ToolBox)
    (moves : List GuestMove) :
    let run := (HostRun.machine platform).run (.start policy llm tools) moves
    run.data.llmCalls.toNat = run.history.completions ∧
      run.data.llmCalls ≤ policy.limits.maxSteps ∧
      ∀ provider : AnthropicProvider, llm = provider.toProvider platform →
        (∀ exchange ∈ exchanges run.history.modelEffects, exchange.Direct) →
        run.history.posts ≤ policy.limits.maxSteps.toNat * (provider.config.maxRetries.toNat + 1) := by
  intro run
  have hcounted : Counted policy llm run := counted_run platform policy llm tools moves
  refine ⟨hcounted.calls_eq, hcounted.calls_le, fun provider hllm hdirect => ?_⟩
  have hsends := hcounted.sends_le _ (hllm ▸ provider.sendsAtMost_toProvider platform)
  have hcalls := UInt32.le_iff_toNat_le.mp hcounted.calls_le
  rw [hcounted.calls_eq] at hcalls
  calc run.history.posts
      = (exchanges run.history.modelEffects).length := posts_of_direct hdirect
    _ ≤ run.history.completions * (provider.config.maxRetries.toNat + 1) := hsends
    _ ≤ policy.limits.maxSteps.toNat * (provider.config.maxRetries.toNat + 1) := Nat.mul_le_mul_right _ hcalls

/-- One model turn without retries. -/
def oneTurnPolicy : Policy :=
  { Policy.default with
    limits := { Limits.default with maxSteps := 1 }
    llm := { LlmConfig.default with maxRetries := 0 } }

def oneTurnProvider (endpoint : HttpClient ModelRequest defaultRedirects) : AnthropicProvider :=
  ⟨oneTurnPolicy.llm, "key", endpoint⟩

def oneTurnPlatform (endpoint : HttpClient ModelRequest defaultRedirects) : Platform :=
  .scripted ⟨"https", some "example.com", "https://example.com/"⟩ .unreachable endpoint

/-- A guest that asks for one completion of an empty conversation. -/
def oneTurn (endpoint : HttpClient ModelRequest defaultRedirects) : HostRun :=
  (HostRun.machine (oneTurnPlatform endpoint)).run
    (.start oneTurnPolicy ((oneTurnProvider endpoint).toProvider (oneTurnPlatform endpoint))
      ⟨oneTurnPolicy, .unreachable, .empty⟩)
    [.request Cap.llmComplete (Text.utf8 "\x7b\"messages\":[]\x7d")]

theorem model_spend_bounded_unreachable : (oneTurn .unreachable).history.posts ≤ 1 * (0 + 1) :=
  (model_spend_bounded (oneTurnPlatform .unreachable) oneTurnPolicy
    ((oneTurnProvider .unreachable).toProvider (oneTurnPlatform .unreachable))
    ⟨oneTurnPolicy, .unreachable, .empty⟩
    [.request Cap.llmComplete (Text.utf8 "\x7b\"messages\":[]\x7d")]).2.2
    (oneTurnProvider .unreachable) rfl (by decide +kernel)

/-- An endpoint that has moved for good: the client repeats the POST at the new location. -/
def movedEndpoint : HttpClient ModelRequest defaultRedirects :=
  .constant ⟨[⟨308, "https://elsewhere.example/v1/messages"⟩], by decide,
    .ok ⟨200, [], Text.utf8 "\x7b\x7d", none, "\x7b\x7d"⟩⟩

theorem model_spend_exceeded_moved :
    oneTurnPolicy.validate (oneTurnPlatform movedEndpoint) = .ok () ∧
      ¬ (oneTurn movedEndpoint).history.posts ≤
        oneTurnPolicy.limits.maxSteps.toNat * ((oneTurnProvider movedEndpoint).config.maxRetries.toNat + 1) :=
  ⟨rfl, by decide +kernel⟩

end TdsWasm
