import TdsWasm.HostRetry
import TdsWasm.HostWire

/-! Where the API key is sent. The client of the model provider is built without a redirect policy, so it follows
redirects by itself and takes the key along, to whatever origin they lead. What the origin of a URL is, if it has
one, is left to the URL library. -/

set_option autoImplicit false

namespace TdsWasm

namespace WireRequest

section Redirects

variable {ω : Type} [DecidableEq ω] (origin : String → Option ω)

/-- What one send puts on the wire. Nothing is sent to a URL without an origin. -/
def ofSend (request : ModelRequest) (hops : List Hop) : List WireRequest :=
  if origin request.url = none then [] else chain origin ⟨.post, request.url, request.headers, some request.body⟩ hops

/-- What a completion puts on the wire. -/
def ofEffects (effects : List ModelEffect) : List WireRequest :=
  effects.flatMap fun
    | .send request exchange => ofSend origin request exchange.hops
    | .sleep _ => []

end Redirects

def CarriesKey (wire : WireRequest) : Prop := ∃ key, ("x-api-key", key) ∈ wire.headers

variable {ω : Type} [DecidableEq ω] {origin : String → Option ω}

theorem mem_without {names : List String} {headers : List (String × String)} {header : String × String}
    (hmem : header ∈ headers) (hname : header.1 ∉ names) : header ∈ without names headers :=
  List.mem_filter.mpr ⟨hmem, by simpa using hname⟩

/-- A redirect takes the key along. -/
theorem carriesKey_follow {wire : WireRequest} (hkey : wire.CarriesKey) (hop : Hop) :
    (follow origin wire hop).CarriesKey := by
  obtain ⟨key, hmem⟩ := hkey
  have hkept : ("x-api-key", key) ∈ (if Exchange.keepsMethod hop then wire
      else ⟨.get, wire.url, without payloadHeaders wire.headers, none⟩ : WireRequest).headers := by
    split_ifs
    · exact hmem
    · exact mem_without hmem (by decide : "x-api-key" ∉ payloadHeaders)
  refine ⟨key, ?_⟩
  unfold follow
  simp only
  by_cases hsame : origin hop.location = origin wire.url
  · rw [if_pos hsame]
    exact hkept
  · rw [if_neg hsame]
    exact mem_without hkept (by decide : "x-api-key" ∉ sensitiveHeaders)

variable (origin) in
/-- All requests with the key go where the first one and the redirects lead. -/
theorem forall_chain_iff (allowed : String → Prop) {wire : WireRequest} (hkey : wire.CarriesKey)
    (hops : List Hop) :
    (∀ sent ∈ chain origin wire hops, sent.CarriesKey → allowed sent.url) ↔
      allowed wire.url ∧ ∀ hop ∈ hops, allowed hop.location := by
  induction hops generalizing wire with
  | nil =>
      rw [chain, List.forall_mem_singleton]
      exact ⟨fun h => ⟨h hkey, fun hop hhop => absurd hhop List.not_mem_nil⟩, fun h _ => h.1⟩
  | cons hop rest ih =>
      rw [chain, List.forall_mem_cons, ih (carriesKey_follow hkey hop), List.forall_mem_cons]
      exact ⟨fun h => ⟨h.1 hkey, h.2⟩, fun h => ⟨fun _ => h.1, h.2⟩⟩

end WireRequest

namespace AnthropicProvider

variable {platform : Platform} {provider : AnthropicProvider} {history : History} {http : ModelRequest}

theorem sends_completeLoop (attempt : UInt32) (done : List ModelEffect)
    (hattempt : Attempts platform provider history http attempt done) :
    ∀ effect ∈ (provider.completeLoop platform history http attempt done).2, effect ∈ done ∨
      (∃ wait, effect = .sleep wait) ∨ ∃ attempt done, Attempts platform provider history http attempt done ∧
        effect = .send http (provider.attemptNext history http done) := by
  revert hattempt
  apply completeLoop_induction platform provider history http
    (motive := fun attempt done result => Attempts platform provider history http attempt done →
      ∀ effect ∈ result.2, effect ∈ done ∨ (∃ wait, effect = .sleep wait) ∨
        ∃ attempt done, Attempts platform provider history http attempt done ∧
          effect = .send http (provider.attemptNext history http done))
  · intro attempt done answer _ hattempt effect hmem
    rcases List.mem_append.mp hmem with hdone | hlast
    · exact Or.inl hdone
    · exact Or.inr (Or.inr ⟨attempt, done, hattempt, List.mem_singleton.mp hlast⟩)
  · intro attempt done wait hjudge ih hattempt effect hmem
    rcases ih (.again attempt done wait hattempt hjudge) effect hmem with hdone | hlater
    · rcases List.mem_append.mp hdone with hsent | hslept
      · rcases List.mem_append.mp hsent with hbefore | hlast
        · exact Or.inl hbefore
        · exact Or.inr (Or.inr ⟨attempt, done, hattempt, List.mem_singleton.mp hlast⟩)
      · exact Or.inr (Or.inl ⟨wait, List.mem_singleton.mp hslept⟩)
    · exact Or.inr hlater

/-- The sends of a completion are those of its attempts. -/
theorem send_mem_complete_iff {request : LlmRequest} {sent : ModelRequest} {exchange : Exchange defaultRedirects} :
    .send sent exchange ∈ (provider.complete platform history request).2 ↔
      sent = provider.httpRequest request ∧
        ∃ attempt done, Attempts platform provider history (provider.httpRequest request) attempt done ∧
          exchange = provider.attemptNext history (provider.httpRequest request) done := by
  constructor
  · intro hmem
    rcases sends_completeLoop 0 [] .first _ hmem with hnone | ⟨wait, hsleep⟩ | ⟨attempt, done, hattempt, hsend⟩
    · cases hnone
    · cases hsleep
    · cases hsend
      exact ⟨rfl, attempt, done, hattempt, rfl⟩
  · rintro ⟨rfl, attempt, done, hattempt, rfl⟩
    have hstarts := attempt_prefix_completeLoop platform provider history (provider.httpRequest request) attempt done
    rw [← hattempt.completeLoop_eq] at hstarts
    exact hstarts.subset (List.mem_append_right _ (List.mem_singleton_self _))

/-- A property of all that a completion puts on the wire, one send at a time. -/
theorem forall_ofEffects_iff {ω : Type} [DecidableEq ω] {origin : String → Option ω} {request : LlmRequest}
    {allowed : WireRequest → Prop} :
    (∀ wire ∈ WireRequest.ofEffects origin (provider.complete platform history request).2, allowed wire) ↔
      ∀ attempt done, Attempts platform provider history (provider.httpRequest request) attempt done →
        ∀ wire ∈ WireRequest.ofSend origin (provider.httpRequest request)
          (provider.attemptNext history (provider.httpRequest request) done).hops, allowed wire := by
  unfold WireRequest.ofEffects
  rw [List.forall_mem_flatMap]
  constructor
  · intro h attempt done hattempt
    exact h _ (send_mem_complete_iff.mpr ⟨rfl, attempt, done, hattempt, rfl⟩)
  · intro h effect hmem wire hwire
    cases effect with
    | sleep wait => cases hwire
    | send sent exchange =>
        obtain ⟨rfl, attempt, done, hattempt, rfl⟩ := send_mem_complete_iff.mp hmem
        exact h attempt done hattempt wire hwire

variable (platform provider history)
variable {ω : Type} [DecidableEq ω] (origin : String → Option ω)

/-- Every request with the key that a completion puts on the wire is addressed to the origin of the configured base
URL. -/
def KeyConfined (request : LlmRequest) : Prop :=
  ∀ wire ∈ WireRequest.ofEffects origin (provider.complete platform history request).2, wire.CarriesKey →
    origin wire.url = origin provider.config.baseUrl

/-- The URL that the completion is sent to has the origin of the base URL, and so has the target of every redirect
with which the upstream answers an attempt. -/
structure StaysAtOrigin (request : LlmRequest) : Prop where
  endpoint : origin (provider.httpRequest request).url = origin provider.config.baseUrl
  redirects : ∀ attempt done,
    Attempts platform provider history (provider.httpRequest request) attempt done →
    ∀ hop ∈ (provider.attemptNext history (provider.httpRequest request) done).hops,
      origin hop.location = origin provider.config.baseUrl

theorem carriesKey_httpRequest (request : LlmRequest) :
    (⟨.post, (provider.httpRequest request).url, (provider.httpRequest request).headers,
      some (provider.httpRequest request).body⟩ : WireRequest).CarriesKey :=
  ⟨provider.apiKey, List.mem_append_left _ List.mem_cons_self⟩

/-- The key stays with the origin exactly when nothing leads away from it, or the endpoint has no origin, so that
nothing is sent. -/
theorem keyConfined_iff (request : LlmRequest) :
    provider.KeyConfined platform history origin request ↔
      origin (provider.httpRequest request).url = none ∨ provider.StaysAtOrigin platform history origin request := by
  unfold KeyConfined
  rw [forall_ofEffects_iff]
  unfold WireRequest.ofSend
  by_cases hnone : origin (provider.httpRequest request).url = none
  · simp only [if_pos hnone]
    exact ⟨fun _ => Or.inl hnone, fun _ attempt done _ wire hwire => absurd hwire List.not_mem_nil⟩
  · simp only [if_neg hnone]
    have hchain := fun hops => WireRequest.forall_chain_iff origin (origin · = origin provider.config.baseUrl)
      (provider.carriesKey_httpRequest request) hops
    constructor
    · intro hconfined
      have hall := fun attempt done hattempt => (hchain _).mp (hconfined attempt done hattempt)
      exact Or.inr ⟨(hall 0 [] .first).1, fun attempt done hattempt => (hall attempt done hattempt).2⟩
    · rintro (h | hstays) attempt done hattempt
      · exact absurd h hnone
      · exact (hchain _).mpr ⟨hstays.endpoint, hstays.redirects attempt done hattempt⟩

end AnthropicProvider

/-- Whatever the configuration, the request and the answers of the upstream, this is exactly when the key is sent to
the configured origin only. -/
theorem key_confined_iff {ω : Type} [DecidableEq ω] (platform : Platform) (provider : AnthropicProvider)
    (origin : String → Option ω) (history : History) (request : LlmRequest) :
    provider.KeyConfined platform history origin request ↔
      origin (provider.httpRequest request).url = none ∨
        provider.StaysAtOrigin platform history origin request :=
  AnthropicProvider.keyConfined_iff platform provider history origin request

/-- The host of an `https` URL with its port, as it is written. -/
def httpsOrigin (url : String) : Option (List Char) :=
  if "https://".toList.isPrefixOf url.toList then some ((url.toList.drop 8).takeWhile (· ≠ '/')) else none

/-- An upstream that redirects the request, method and body with it, to another host. -/
def movedProvider : AnthropicProvider :=
  ⟨.default, "key", .constant ⟨[⟨307, "https://collector.example/v1/messages"⟩], by decide, .error "closed"⟩⟩

theorem key_follows_redirect :
    ¬ movedProvider.KeyConfined .offline [] httpsOrigin ⟨none, [.user [.text "hello"]], []⟩ := by
  rw [AnthropicProvider.keyConfined_iff]
  rintro (hnone | hstays)
  · exact absurd hnone (by decide)
  · have hmoved := hstays.redirects 0 [] .first ⟨307, "https://collector.example/v1/messages"⟩
      (List.mem_singleton.mpr rfl)
    exact absurd hmoved (by decide)

end TdsWasm
