import TdsWasm.HostLlm

/-! The retry loop of the provider, one attempt at a time: what an outcome of the upstream comes to, and the
induction by which a property of the whole loop is proved. -/

set_option autoImplicit false

namespace TdsWasm.AnthropicProvider

/-- What the loop makes of an outcome: an answer, or a time to wait before the next attempt. -/
def judge (platform : Platform) (config : LlmConfig) (attempt : UInt32) :
    Except String HttpResponse → Except CapError LlmResponse ⊕ Nat
  | .error e =>
      if attempt < config.maxRetries then .inr (backoff (attempt + 1))
      else .inl (.error (.upstream ("request to the model failed: " ++ e)))
  | .ok response =>
      if response.isSuccess then .inl (accepted platform response)
      else if retryable response ∧ attempt < config.maxRetries then
        .inr (match retryAfter response with
          | some seconds => seconds * 1000
          | none => backoff (attempt + 1))
      else .inl (.error (rejected response))

/-- Only an attempt below the limit is followed by another one. -/
theorem lt_of_judge {platform : Platform} {config : LlmConfig} {attempt : UInt32}
    {outcome : Except String HttpResponse} {wait : Nat}
    (h : judge platform config attempt outcome = .inr wait) : attempt < config.maxRetries := by
  cases outcome with
  | error e =>
      simp only [judge] at h
      split_ifs at h with hleft
      exact hleft
  | ok response =>
      simp only [judge] at h
      split_ifs at h with hsuccess hretry
      exact hretry.2

variable (platform : Platform) (provider : AnthropicProvider) (history : History) (http : ModelRequest)

/-- The exchange of the next attempt, when this has been done for the completion. -/
def attemptNext (done : List ModelEffect) : Exchange defaultRedirects :=
  provider.client.send (history ++ done.map .model) http

theorem completeLoop_eq (attempt : UInt32) (done : List ModelEffect) :
    provider.completeLoop platform history http attempt done =
      match judge platform provider.config attempt (provider.attemptNext history http done).outcome with
      | .inl answer => (answer, done ++ [.send http (provider.attemptNext history http done)])
      | .inr wait => provider.completeLoop platform history http (attempt + 1)
          (done ++ [.send http (provider.attemptNext history http done)] ++ [.sleep wait]) := by
  rw [completeLoop]
  unfold attemptNext
  simp only
  cases (provider.client.send (history ++ done.map .model) http).outcome with
  | error e =>
      simp only [judge]
      split_ifs <;> rfl
  | ok response =>
      simp only [judge]
      split_ifs <;> rfl

/-- The induction over the attempts that are left. -/
theorem completeLoop_induction
    {motive : UInt32 → List ModelEffect → Except CapError LlmResponse × List ModelEffect → Prop}
    (answered : ∀ attempt done answer,
      judge platform provider.config attempt (provider.attemptNext history http done).outcome = .inl answer →
      motive attempt done (answer, done ++ [.send http (provider.attemptNext history http done)]))
    (again : ∀ attempt done wait,
      judge platform provider.config attempt (provider.attemptNext history http done).outcome = .inr wait →
      motive (attempt + 1) (done ++ [.send http (provider.attemptNext history http done)] ++ [.sleep wait])
        (provider.completeLoop platform history http (attempt + 1)
          (done ++ [.send http (provider.attemptNext history http done)] ++ [.sleep wait])) →
      motive attempt done (provider.completeLoop platform history http (attempt + 1)
        (done ++ [.send http (provider.attemptNext history http done)] ++ [.sleep wait])))
    (attempt : UInt32) (done : List ModelEffect) :
    motive attempt done (provider.completeLoop platform history http attempt done) := by
  generalize hleft : provider.config.maxRetries.toNat - attempt.toNat = left
  induction left using Nat.strong_induction_on generalizing attempt done with
  | _ left ih =>
      rw [completeLoop_eq]
      cases hjudge : judge platform provider.config attempt (provider.attemptNext history http done).outcome with
      | inl answer => exact answered attempt done answer hjudge
      | inr wait =>
          have hlt := lt_of_judge hjudge
          have hnat := UInt32.lt_iff_toNat_lt.mp hlt
          refine again attempt done wait hjudge (ih _ ?_ _ _ rfl)
          rw [Word.toNat_add_one hlt]
          omega

/-- The loop adds to what has been done. -/
theorem prefix_completeLoop (attempt : UInt32) (done : List ModelEffect) :
    done <+: (provider.completeLoop platform history http attempt done).2 := by
  apply completeLoop_induction platform provider history http (motive := fun _ done result => done <+: result.2)
  · intro attempt done answer _
    exact List.prefix_append _ _
  · intro attempt done wait _ hrest
    rw [List.append_assoc] at hrest ⊢
    exact (List.prefix_append _ _).trans hrest

/-- The next attempt comes first among what it adds. -/
theorem attempt_prefix_completeLoop (attempt : UInt32) (done : List ModelEffect) :
    done ++ [.send http (provider.attemptNext history http done)] <+:
      (provider.completeLoop platform history http attempt done).2 := by
  rw [completeLoop_eq]
  cases judge platform provider.config attempt (provider.attemptNext history http done).outcome with
  | inl answer => exact List.prefix_rfl
  | inr wait => exact (List.prefix_append _ _).trans (prefix_completeLoop platform provider history http _ _)

/-! ### Attempts -/

/-- The attempts that the upstream leads to: the first one, and one after every outcome that is retried, with
what has been done before it. -/
inductive Attempts : UInt32 → List ModelEffect → Prop where
  | first : Attempts 0 []
  | again (attempt : UInt32) (done : List ModelEffect) (wait : Nat) (hbefore : Attempts attempt done)
      (hretried : judge platform provider.config attempt (provider.attemptNext history http done).outcome =
        .inr wait) :
      Attempts (attempt + 1) (done ++ [.send http (provider.attemptNext history http done)] ++ [.sleep wait])

variable {platform provider history http}

/-- The loop comes to every attempt that the upstream leads to. -/
theorem Attempts.completeLoop_eq {attempt : UInt32} {done : List ModelEffect}
    (h : Attempts platform provider history http attempt done) :
    provider.completeLoop platform history http 0 [] =
      provider.completeLoop platform history http attempt done := by
  induction h with
  | first => rfl
  | again attempt done wait _ hretried ih =>
      rw [ih, AnthropicProvider.completeLoop_eq, hretried]

end TdsWasm.AnthropicProvider
