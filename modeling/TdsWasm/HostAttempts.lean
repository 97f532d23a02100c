import Mathlib.Data.ENat.Lattice
import TdsWasm.HostRetry
import TdsWasm.HostWire
import TdsWasm.LibBoundary
import TdsWasm.LibDecimal

/-! What a completion sends and how long it waits, for every sequence of outcomes that the upstream may have in
store. The outcomes are numbered as if every one were retried; the loop takes the transient ones at their front, as
far as the limit goes, and one more. Every redirect that the client follows on the way is a request more. -/

set_option autoImplicit false

namespace TdsWasm

/-! ### Sequences of outcomes -/

section Leading

variable {ω : Type} {p : ω → Prop} {outcomes : Nat → ω}

open Classical in
/-- How many of the outcomes come before the first one without the property. -/
noncomputable def leading (p : ω → Prop) (outcomes : Nat → ω) : ℕ∞ :=
  if h : ∃ n, ¬ p (outcomes n) then (Nat.find h : ℕ) else ⊤

/-- A bounded search that stops at the first outcome without the property stops there. -/
theorem min_leading {n bound : Nat} (hle : n ≤ bound) (hfront : ∀ i < n, p (outcomes i))
    (hstop : n < bound → ¬ p (outcomes n)) : min (leading p outcomes) bound = n := by
  classical
  unfold leading
  by_cases h : ∃ n, ¬ p (outcomes n)
  · rw [dif_pos h]
    have hlow : n ≤ Nat.find h := (Nat.le_find_iff h n).mpr fun i hi => not_not.mpr (hfront i hi)
    rcases Nat.lt_or_ge n bound with hlt | hge
    · have hfound : Nat.find h = n := Nat.le_antisymm (Nat.find_min' h (hstop hlt)) hlow
      rw [hfound]
      exact min_eq_left (Nat.cast_le.mpr hle)
    · have hsame : n = bound := Nat.le_antisymm hle hge
      rw [← hsame]
      exact min_eq_right (Nat.cast_le.mpr hlow)
  · rw [dif_neg h, min_eq_right le_top]
    rcases Nat.lt_or_ge n bound with hlt | hge
    · exact absurd ⟨n, hstop hlt⟩ h
    · exact congrArg _ (Nat.le_antisymm hge hle)

end Leading

/-! ### Outcomes of an attempt -/

abbrev Outcome : Type := Except String HttpResponse

namespace Outcome

/-- A failure that may pass: nothing came back, or a 429 or a 5xx. -/
def Transient : Outcome → Prop
  | .error _ => True
  | .ok response => response.status = 429 ∨ 500 ≤ response.status ∧ response.status < 600

/-- The number of 64 bits that bytes spell: digits, after a plus sign perhaps. -/
def spelled (bytes : Bytes) : Option Nat :=
  let digits := if bytes.head? = some 43 then bytes.tail else bytes
  if Text.Digits digits ∧ Text.number digits < 2 ^ 64 then some (Text.number digits) else none

/-- The waiting time that the server asks for in a `retry-after` header, in seconds. -/
def asked : Outcome → Option Nat
  | .error _ => none
  | .ok response => (response.headers.lookup "retry-after").bind spelled

/-- The time before the attempt of this number, in milliseconds: what the server asks for, or half a second, doubled
with each attempt up to sixteen seconds. -/
def wait (attempt : Nat) (outcome : Outcome) : Nat :=
  match outcome.asked with
  | some seconds => seconds * 1000
  | none => 500 * 2 ^ min attempt 5

/-- A 2xx whose body decodes to this response. -/
def Accepted (platform : Platform) (outcome : Outcome) (parsed : ApiResponse) : Prop :=
  ∃ response, outcome = .ok response ∧ (200 ≤ response.status ∧ response.status < 300) ∧ response.bodyError = none ∧
    platform.codec.fromSlice "ApiResponse" ApiResponse.decode response.body = .ok parsed

/-- The text that an answer other than a 2xx is described with. -/
def detail (response : HttpResponse) : String := if response.bodyError = none then response.charsetText else ""

/-- An error that says what went wrong: nothing came back, the body of a 2xx cannot be read or does not decode, or the
status is another one, with the text of the answer cut to 512 bytes. -/
inductive Described (platform : Platform) : Outcome → CapError → Prop where
  | unsent (cause : String) : Described platform (.error cause) ⟨"upstream", "request to the model failed: " ++ cause⟩
  | unread (response : HttpResponse) (cause : String) (hstatus : 200 ≤ response.status ∧ response.status < 300)
      (hbody : response.bodyError = some cause) :
      Described platform (.ok response) ⟨"upstream", "malformed model response: " ++ cause⟩
  | malformed (response : HttpResponse) (cause : String) (hstatus : 200 ≤ response.status ∧ response.status < 300)
      (hbody : response.bodyError = none)
      (hdecode : platform.codec.fromSlice "ApiResponse" ApiResponse.decode response.body = .error cause) :
      Described platform (.ok response) ⟨"upstream", "malformed model response: " ++ cause⟩
  | refused (response : HttpResponse) (told : String) (hstatus : ¬ (200 ≤ response.status ∧ response.status < 300))
      (htold : Text.Shortened (fun _ => "…") (detail response) 512 told) :
      Described platform (.ok response)
        ⟨"upstream", "model returned HTTP " ++ toString response.status ++ ": " ++ told⟩

/-- What a completion answers after the last outcome. -/
def conclude (platform : Platform) : Outcome → Except CapError LlmResponse
  | .error e => .error (.upstream ("request to the model failed: " ++ e))
  | .ok response =>
      if response.isSuccess then AnthropicProvider.accepted platform response
      else .error (AnthropicProvider.rejected response)

/-! ### The header -/

/-- Characters that are read as digits spell the number of their bytes. -/
theorem read_digits {digits : Bytes} (hascii : ∀ b ∈ digits, b.toNat < 128) :
    (if digits.map Text.asciiChar ≠ [] ∧ (digits.map Text.asciiChar).all Char.isDigit ∧
        Nat.ofDigitChars 10 (digits.map Text.asciiChar) 0 < 2 ^ 64 then
      some (Nat.ofDigitChars 10 (digits.map Text.asciiChar) 0) else none) =
      if Text.Digits digits ∧ Text.number digits < 2 ^ 64 then some (Text.number digits) else none := by
  have hchars := Text.all_isDigit_ascii hascii
  by_cases hdigits : Text.Digits digits
  · obtain ⟨hne, hall⟩ := hchars.mpr hdigits
    have hnumber := Text.ofDigitChars_ascii hdigits.2
    simp only [hne, hall, hnumber, hdigits, ne_eq, not_false_eq_true, true_and]
  · rw [if_neg fun h => hdigits (hchars.mp ⟨h.1, h.2.1⟩), if_neg fun h => hdigits h.1]

/-- The parser takes off a plus sign and reads the rest. -/
theorem parseU64_ascii {bytes : Bytes} (hascii : ∀ b ∈ bytes, b.toNat < 128) :
    parseU64 (String.ofList (bytes.map Text.asciiChar)) = spelled bytes := by
  unfold parseU64 spelled
  rw [String.toList_ofList]
  cases bytes with
  | nil => rfl
  | cons b rest =>
      obtain ⟨hb, hrest⟩ := List.forall_mem_cons.mp hascii
      by_cases hplus : b = 43
      · subst hplus
        exact read_digits hrest
      · have hother : Text.asciiChar b ≠ '+' := by
          intro hchar
          apply hplus
          rw [← UInt8.toNat_inj, ← Text.toNat_asciiChar hb, hchar]
          rfl
        have hhead : ¬ (b :: rest).head? = some 43 := fun h => hplus (Option.some.inj h)
        rw [if_neg hhead, ← read_digits hascii]
        dsimp only
        split
        · rename_i chars heq
          exact absurd (List.cons.inj heq).1 hother
        · rfl

example : spelled (Text.utf8 "+0120") = some 120 ∧ spelled (Text.utf8 "120s") = none ∧
    spelled (Text.utf8 "18446744073709551616") = none := by
  decide +kernel

/-- Bytes that spell a number are visible ASCII. -/
theorem visible_of_spelled {bytes : Bytes} {seconds : Nat} (h : spelled bytes = some seconds) :
    ∀ b ∈ bytes, 32 ≤ b.toNat ∧ b.toNat ≤ 126 := by
  unfold spelled at h
  dsimp only at h
  by_cases hplus : bytes.head? = some 43
  · rw [if_pos hplus] at h
    split_ifs at h with hdigits
    obtain ⟨rest, rfl⟩ := List.head?_eq_some_iff.mp hplus
    refine List.forall_mem_cons.mpr ⟨by decide, fun b hb => ?_⟩
    have hdigit := hdigits.1.2 b hb
    omega
  · rw [if_neg hplus] at h
    split_ifs at h with hdigits
    intro b hb
    have hdigit := hdigits.1.2 b hb
    omega

theorem visible_iff {b : UInt8} :
    (b = 9 || Text.inRange 32 126 b) = true ↔ b = 9 ∨ 32 ≤ b.toNat ∧ b.toNat ≤ 126 := by
  simp [Text.inRange, UInt8.le_iff_toNat_le]

/-- The loop reads the header as it is to be read. -/
theorem retryAfter_eq (response : HttpResponse) : AnthropicProvider.retryAfter response = asked (.ok response) := by
  show ((response.headers.lookup "retry-after").bind _).bind parseU64 =
    (response.headers.lookup "retry-after").bind spelled
  cases response.headers.lookup "retry-after" with
  | none => rfl
  | some bytes =>
      rw [Option.bind_some, Option.bind_some]
      by_cases hvisible : (bytes.all fun b => b = 9 || Text.inRange 32 126 b) = true
      · have hascii : ∀ b ∈ bytes, b.toNat < 128 := by
          intro b hb
          rcases visible_iff.mp (List.all_eq_true.mp hvisible b hb) with rfl | ⟨_, hhigh⟩
          · decide
          · exact Nat.lt_of_le_of_lt hhigh (by decide)
        rw [if_pos hvisible, Text.fromUtf8_ascii hascii, Option.bind_some, parseU64_ascii hascii]
      · rw [if_neg hvisible, Option.bind_none]
        refine (Option.eq_none_iff_forall_ne_some.mpr fun seconds hspelled => hvisible ?_).symm
        exact List.all_eq_true.mpr fun b hb => visible_iff.mpr (Or.inr (visible_of_spelled hspelled b hb))

/-! ### Conclusions -/

variable {platform : Platform}

theorem isSuccess_iff {response : HttpResponse} :
    response.isSuccess = true ↔ 200 ≤ response.status ∧ response.status < 300 := by
  simp [HttpResponse.isSuccess]

theorem retryable_iff {response : HttpResponse} : AnthropicProvider.retryable response = true ↔
    Transient (.ok response) := by
  simp [AnthropicProvider.retryable, HttpResponse.isServerError, Transient]

theorem accepted_of_unread {response : HttpResponse} {cause : String} (hbody : response.bodyError = some cause) :
    AnthropicProvider.accepted platform response = .error (.upstream ("malformed model response: " ++ cause)) := by
  simp only [AnthropicProvider.accepted, HttpResponse.bytes, hbody, bind, Except.bind]

theorem accepted_of_malformed {response : HttpResponse} {cause : String} (hbody : response.bodyError = none)
    (hdecode : platform.codec.fromSlice "ApiResponse" ApiResponse.decode response.body = .error cause) :
    AnthropicProvider.accepted platform response = .error (.upstream ("malformed model response: " ++ cause)) := by
  simp only [AnthropicProvider.accepted, HttpResponse.bytes, hbody, bind, Except.bind, hdecode]

theorem accepted_of_decoded {response : HttpResponse} {parsed : ApiResponse} (hbody : response.bodyError = none)
    (hdecode : platform.codec.fromSlice "ApiResponse" ApiResponse.decode response.body = .ok parsed) :
    AnthropicProvider.accepted platform response = .ok parsed.toLlmResponse := by
  simp only [AnthropicProvider.accepted, HttpResponse.bytes, hbody, bind, Except.bind, hdecode]

/-- An outcome is accepted, and the answer is its response, or the answer is an error that describes it. -/
theorem conclude_cases (platform : Platform) (outcome : Outcome) :
    (∃ parsed, outcome.Accepted platform parsed ∧ outcome.conclude platform = .ok parsed.toLlmResponse) ∨
      (∀ parsed, ¬ outcome.Accepted platform parsed) ∧
        ∃ e, outcome.Described platform e ∧ outcome.conclude platform = .error e := by
  cases outcome with
  | error cause =>
      refine Or.inr ⟨?_, _, .unsent cause, rfl⟩
      rintro parsed ⟨_, h, _⟩
      cases h
  | ok response =>
      rw [conclude]
      by_cases hsuccess : response.isSuccess = true
      · have hstatus := isSuccess_iff.mp hsuccess
        rw [if_pos hsuccess]
        cases hbody : response.bodyError with
        | some cause =>
            refine Or.inr ⟨?_, _, .unread response cause hstatus hbody, accepted_of_unread hbody⟩
            rintro parsed ⟨_, ⟨⟩, _, hread, _⟩
            rw [hbody] at hread
            cases hread
        | none =>
            cases hdecode : platform.codec.fromSlice "ApiResponse" ApiResponse.decode response.body with
            | ok parsed =>
                exact Or.inl ⟨parsed, ⟨response, rfl, hstatus, hbody, hdecode⟩, accepted_of_decoded hbody hdecode⟩
            | error cause =>
                refine Or.inr ⟨?_, _, .malformed response cause hstatus hbody hdecode,
                  accepted_of_malformed hbody hdecode⟩
                rintro parsed ⟨_, ⟨⟩, _, _, hread⟩
                rw [hdecode] at hread
                cases hread
      · rw [if_neg hsuccess]
        have htold : Text.Shortened (fun _ => "…") (detail response) 512 (truncateDetail (detail response) 512) :=
          Text.shortened_takeBytes _ _ _
        have hrejected : AnthropicProvider.rejected response =
            .upstream ("model returned HTTP " ++ toString response.status ++ ": " ++
              truncateDetail (detail response) 512) := by
          unfold AnthropicProvider.rejected detail
          cases response.bodyError <;> rfl
        refine Or.inr ⟨?_, _, .refused response _ (fun hstatus => hsuccess (isSuccess_iff.mpr hstatus)) htold,
          congrArg _ hrejected⟩
        rintro parsed ⟨_, ⟨⟩, hstatus, _⟩
        exact hsuccess (isSuccess_iff.mpr hstatus)

/-- The answer is a response exactly when the outcome is accepted. -/
theorem conclude_eq_ok_iff {outcome : Outcome} {answer : LlmResponse} :
    outcome.conclude platform = .ok answer ↔
      ∃ parsed, outcome.Accepted platform parsed ∧ parsed.toLlmResponse = answer := by
  rcases conclude_cases platform outcome with ⟨parsed, haccepted, hanswer⟩ | ⟨hnone, e, _, hanswer⟩
  · rw [hanswer]
    constructor
    · intro h
      exact ⟨parsed, haccepted, Except.ok.inj h⟩
    · rintro ⟨other, hother, rfl⟩
      obtain ⟨_, rfl, _, _, hdecode⟩ := haccepted
      obtain ⟨_, ⟨⟩, _, _, hsame⟩ := hother
      rw [Except.ok.inj (hdecode.symm.trans hsame)]
  · rw [hanswer]
    refine ⟨nofun, ?_⟩
    rintro ⟨parsed, haccepted, _⟩
    exact absurd haccepted (hnone parsed)

/-- An answer that is an error describes the outcome. -/
theorem described_of_conclude {outcome : Outcome} {e : CapError} (h : outcome.conclude platform = .error e) :
    outcome.Described platform e := by
  rcases conclude_cases platform outcome with ⟨_, _, hanswer⟩ | ⟨_, described, hdescribed, hanswer⟩
  · rw [hanswer] at h
    cases h
  · rw [hanswer] at h
    cases h
    exact hdescribed

end Outcome

/-! ### Waiting times -/

theorem backoff_eq (attempt : UInt32) : backoff attempt = 500 * 2 ^ min attempt.toNat 5 := by
  have hpow : 2 ^ min attempt.toNat 5 ≤ 2 ^ 5 := Nat.pow_le_pow_right (by decide) (Nat.min_le_right _ _)
  rw [backoff]
  omega

/-- The back-off does not shrink from one attempt to the next. -/
theorem backoff_mono {first second : UInt32} (hle : first ≤ second) : backoff first ≤ backoff second := by
  rw [backoff_eq, backoff_eq]
  apply Nat.mul_le_mul_left
  apply Nat.pow_le_pow_right (by decide)
  exact min_le_min_right 5 (UInt32.le_iff_toNat_le.mp hle)

/-- The back-off is sixteen seconds at most. -/
theorem backoff_le (attempt : UInt32) : backoff attempt ≤ 16000 := by
  rw [backoff_eq]
  calc 500 * 2 ^ min attempt.toNat 5
      ≤ 500 * 2 ^ 5 := Nat.mul_le_mul_left _ (Nat.pow_le_pow_right (by decide) (Nat.min_le_right _ _))
    _ = 16000 := rfl

/-! ### The attempts of a completion -/

namespace AnthropicProvider

/-- The back-off of the next attempt, as it is counted. -/
theorem backoff_next {attempt limit : UInt32} (hleft : attempt < limit) :
    backoff (attempt + 1) = 500 * 2 ^ min (attempt.toNat + 1) 5 := by
  rw [backoff_eq, Word.toNat_add_one hleft]

/-- An outcome is retried when it is transient and the limit is not reached, after the time it calls for. -/
theorem judge_eq (platform : Platform) (config : LlmConfig) (attempt : UInt32) (outcome : Outcome) :
    (outcome.Transient ∧ attempt < config.maxRetries ∧
      judge platform config attempt outcome = .inr (outcome.wait (attempt.toNat + 1))) ∨
    (¬ (outcome.Transient ∧ attempt < config.maxRetries) ∧
      judge platform config attempt outcome = .inl (outcome.conclude platform)) := by
  cases outcome with
  | error e =>
      rw [judge]
      by_cases hleft : attempt < config.maxRetries
      · rw [if_pos hleft, backoff_next hleft]
        exact Or.inl ⟨trivial, hleft, rfl⟩
      · rw [if_neg hleft]
        exact Or.inr ⟨fun h => hleft h.2, rfl⟩
  | ok response =>
      rw [judge]
      by_cases hsuccess : response.isSuccess = true
      · rw [if_pos hsuccess, Outcome.conclude, if_pos hsuccess]
        refine Or.inr ⟨fun h => ?_, rfl⟩
        have hstatus := Outcome.isSuccess_iff.mp hsuccess
        rcases h.1 with hlimited | hserver
        · omega
        · omega
      · rw [if_neg hsuccess, Outcome.conclude, if_neg hsuccess]
        by_cases hretry : retryable response = true ∧ attempt < config.maxRetries
        · rw [if_pos hretry, Outcome.retryAfter_eq, backoff_next hretry.2, Outcome.wait]
          exact Or.inl ⟨Outcome.retryable_iff.mp hretry.1, hretry.2, rfl⟩
        · rw [if_neg hretry]
          exact Or.inr ⟨fun h => hretry ⟨Outcome.retryable_iff.mpr h.1, h.2⟩, rfl⟩

variable (provider : AnthropicProvider) (history : History) (http : ModelRequest)

/-- What has been done before the attempt of this number, if all outcomes before it are retried. -/
def doneBefore : Nat → List ModelEffect
  | 0 => []
  | n + 1 =>
      let exchange := provider.attemptNext history http (doneBefore n)
      doneBefore n ++ [.send http exchange, .sleep (Outcome.wait (n + 1) exchange.outcome)]

/-- The exchange that the upstream has in store for the attempt of this number. -/
def exchangeAt (n : Nat) : Exchange defaultRedirects :=
  provider.attemptNext history http (provider.doneBefore history http n)

def outcomeAt (n : Nat) : Outcome := (provider.exchangeAt history http n).outcome

/-- The upstream leads the loop to the attempt of this number: the limit allows it, and every outcome before it is
transient. -/
structure Attempted (n : Nat) : Prop where
  le : n ≤ provider.config.maxRetries.toNat
  front : ∀ i < n, (provider.outcomeAt history http i).Transient

variable {provider history http} {platform : Platform}

/-- The loop comes to every attempt that the upstream leads it to, and counts it rightly. -/
theorem Attempted.attempts {n : Nat} (h : provider.Attempted history http n) :
    Attempts platform provider history http (UInt32.ofNat n) (provider.doneBefore history http n) := by
  induction n with
  | zero => exact .first
  | succ n ih =>
      have hbefore := ih ⟨Nat.le_of_succ_le h.le, fun i hi => h.front i (Nat.lt_succ_of_lt hi)⟩
      have hsize := provider.config.maxRetries.toNat_lt
      have hle := h.le
      have hcount : (UInt32.ofNat n).toNat = n := UInt32.toNat_ofNat_of_lt' (show n < 2 ^ 32 by omega)
      have hattempt : UInt32.ofNat n < provider.config.maxRetries := by
        rw [UInt32.lt_iff_toNat_lt, hcount]
        exact hle
      have hnext : UInt32.ofNat (n + 1) = UInt32.ofNat n + 1 := UInt32.ofNat_add n 1
      rcases judge_eq platform provider.config (UInt32.ofNat n) (provider.outcomeAt history http n) with
        ⟨_, _, hjudge⟩ | ⟨hstop, _⟩
      · have hagain := Attempts.again _ _ _ hbefore hjudge
        rw [List.append_assoc, List.singleton_append, hcount] at hagain
        rw [doneBefore, hnext]
        exact hagain
      · exact absurd ⟨h.front n (Nat.lt_succ_self n), hattempt⟩ hstop

/-- There is a last attempt that the upstream leads the loop to. -/
theorem exists_last_attempt (provider : AnthropicProvider) (history : History) (http : ModelRequest) :
    ∃ n, provider.Attempted history http n ∧
      (n < provider.config.maxRetries.toNat → ¬ (provider.outcomeAt history http n).Transient) := by
  classical
  have hstop : ∃ n, n < provider.config.maxRetries.toNat → ¬ (provider.outcomeAt history http n).Transient :=
    ⟨provider.config.maxRetries.toNat, fun h => absurd h (Nat.lt_irrefl _)⟩
  refine ⟨Nat.find hstop, ⟨Nat.find_min' hstop fun h => absurd h (Nat.lt_irrefl _), ?_⟩, Nat.find_spec hstop⟩
  intro i hi
  exact not_not.mp (Classical.not_imp.mp (Nat.find_min hstop hi)).2

/-- The upstream leads to no attempt after the last one. -/
theorem Attempted.le_last {n last : Nat} (h : provider.Attempted history http n)
    (hlast : last < provider.config.maxRetries.toNat → ¬ (provider.outcomeAt history http last).Transient) :
    n ≤ last := by
  by_contra hlater
  have hlt := Nat.not_le.mp hlater
  exact hlast (Nat.lt_of_lt_of_le hlt h.le) (h.front last hlt)

theorem Attempted.of_le {n last : Nat} (h : provider.Attempted history http last) (hle : n ≤ last) :
    provider.Attempted history http n :=
  ⟨hle.trans h.le, fun i hi => h.front i (Nat.lt_of_lt_of_le hi hle)⟩

/-- The whole of a completion: the attempts up to the last one, and what is concluded from its outcome. -/
theorem completeLoop_concluded {n : Nat} (hattempted : provider.Attempted history http n)
    (hlast : n < provider.config.maxRetries.toNat → ¬ (provider.outcomeAt history http n).Transient) :
    provider.completeLoop platform history http 0 [] =
      ((provider.outcomeAt history http n).conclude platform, provider.doneBefore history http n ++
        [.send http (provider.exchangeAt history http n)]) := by
  have hsize := provider.config.maxRetries.toNat_lt
  have hle := hattempted.le
  have hattempts : Attempts platform provider history http _ _ := hattempted.attempts
  rw [hattempts.completeLoop_eq, completeLoop_eq]
  rcases judge_eq platform provider.config (UInt32.ofNat n) (provider.outcomeAt history http n) with
    ⟨htransient, hleft, _⟩ | ⟨_, hjudge⟩
  · rw [UInt32.lt_iff_toNat_lt, UInt32.toNat_ofNat_of_lt' (show n < 2 ^ 32 by omega)] at hleft
    exact absurd htransient (hlast hleft)
  · unfold outcomeAt exchangeAt at hjudge
    rw [hjudge]
    rfl

end AnthropicProvider

/-! ### What a completion does -/

namespace ModelEffect

/-- A send with what came of it. The redirects that the client has followed on the way are not seen in it. -/
def attempt : ModelEffect → Option (ModelRequest × Outcome)
  | send request exchange => some (request, exchange.outcome)
  | sleep _ => none

def slept : ModelEffect → Option Nat
  | send _ _ => none
  | sleep milliseconds => some milliseconds

end ModelEffect

namespace AnthropicProvider

variable {platform : Platform} {provider : AnthropicProvider} {history : History} {http : ModelRequest}

theorem attempt_doneBefore (n : Nat) : (provider.doneBefore history http n).filterMap ModelEffect.attempt =
    (List.range n).map fun i => (http, provider.outcomeAt history http i) := by
  induction n with
  | zero => rfl
  | succ n ih =>
      rw [doneBefore, List.filterMap_append, ih, List.range_succ, List.map_append]
      rfl

theorem slept_doneBefore (n : Nat) : (provider.doneBefore history http n).filterMap ModelEffect.slept =
    (List.range n).map fun i => (provider.outcomeAt history http i).wait (i + 1) := by
  induction n with
  | zero => rfl
  | succ n ih =>
      rw [doneBefore, List.filterMap_append, ih, List.range_succ, List.map_append]
      rfl

section Wire

variable {ω : Type} [DecidableEq ω] {origin : String → Option ω}

theorem made_doneBefore (n : Nat) : WireRequest.made origin (provider.doneBefore history http n) =
    (List.range n).flatMap fun i =>
      WireRequest.chain origin (.first http) (provider.exchangeAt history http i).hops := by
  induction n with
  | zero => rfl
  | succ n ih =>
      rw [doneBefore, WireRequest.made_append, ih, List.range_succ, List.flatMap_append]
      rfl

/-- The requests that go out are as many as the attempts exactly when no redirect is followed, and then they are the
same each time. -/
theorem made_eq_replicate_iff {effects : List ModelEffect} {exchanges : List (Exchange defaultRedirects)}
    (hmade : WireRequest.made origin effects =
      exchanges.flatMap fun exchange => WireRequest.chain origin (.first http) exchange.hops) :
    WireRequest.made origin effects = List.replicate exchanges.length (.first http) ↔
      ∀ exchange ∈ exchanges, exchange.hops = [] := by
  rw [hmade]
  constructor
  · intro h
    have hlength := congrArg List.length h
    simp only [List.length_flatMap, WireRequest.length_chain, List.sum_map_add, List.map_const', List.sum_replicate,
      smul_eq_mul, Nat.mul_one, List.length_replicate, Nat.add_eq_right, List.sum_eq_zero_iff_forall_eq_nat,
      List.forall_mem_map, List.length_eq_zero_iff] at hlength
    exact hlength
  · intro h
    calc exchanges.flatMap (fun exchange => WireRequest.chain origin (.first http) exchange.hops)
        = exchanges.flatMap fun _ => [WireRequest.first http] := by
          refine List.flatMap_congr fun exchange hmem => ?_
          rw [h exchange hmem]
          rfl
      _ = List.replicate exchanges.length (.first http) := by
          rw [← List.map_eq_flatMap, List.map_const']

end Wire

/-- At every attempt the counter is the number of attempts that were made before it, and the limit is not passed. -/
theorem Attempts.counted {attempt : UInt32} {done : List ModelEffect}
    (h : Attempts platform provider history http attempt done) :
    attempt.toNat = (done.filterMap ModelEffect.attempt).length ∧ attempt ≤ provider.config.maxRetries := by
  induction h with
  | first => exact ⟨rfl, UInt32.le_iff_toNat_le.mpr (Nat.zero_le _)⟩
  | again attempt done wait _ hretried ih =>
      have hlt := lt_of_judge hretried
      have hnext := Word.toNat_add_one hlt
      constructor
      · rw [hnext, ih.1, List.filterMap_append, List.filterMap_append, List.length_append, List.length_append]
        rfl
      · rw [UInt32.le_iff_toNat_le, hnext]
        exact UInt32.lt_iff_toNat_lt.mp hlt

/-- A completion that met these outcomes has sent its request once more for every transient one at their front, as
far as the limit goes, and made no other request. -/
structure RetriesTransient {ω : Type} [DecidableEq ω] (platform : Platform) (provider : AnthropicProvider)
    (origin : String → Option ω) (http : ModelRequest) (outcomes : Nat → Outcome) (retries : Nat)
    (result : Except CapError LlmResponse × List ModelEffect) : Prop where
  retries_eq : min (leading Outcome.Transient outcomes) (provider.config.maxRetries.toNat : ℕ∞) = retries
  /-- The same request each time, one more than there are retries. -/
  requests : WireRequest.made origin result.2 = List.replicate (retries + 1) (.first http)
  /-- Each attempt has met the outcome of its number. -/
  attempts : result.2.filterMap ModelEffect.attempt = (List.range (retries + 1)).map fun i => (http, outcomes i)
  /-- One wait after each outcome that is retried. -/
  slept : result.2.filterMap ModelEffect.slept = (List.range retries).map fun i => (outcomes i).wait (i + 1)
  retried : ∀ i < retries, (outcomes i).Transient
  answered : ∀ answer, result.1 = .ok answer ↔
    ∃ parsed, (outcomes retries).Accepted platform parsed ∧ parsed.toLlmResponse = answer
  failed : ∀ e, result.1 = .error e → (outcomes retries).Described platform e

/-- No attempt that the upstream leads to is answered with a redirect that the client follows. -/
def Undiverted (provider : AnthropicProvider) (history : History) (http : ModelRequest) : Prop :=
  ∀ n, provider.Attempted history http n → (provider.exchangeAt history http n).hops = []

/-- A completion resends exactly the transient failures when no redirect is followed, and only then. -/
theorem retriesTransient_iff {ω : Type} [DecidableEq ω] (platform : Platform) (provider : AnthropicProvider)
    (origin : String → Option ω) (history : History) (request : LlmRequest) :
    (∃ retries, RetriesTransient platform provider origin (provider.httpRequest request)
      (provider.outcomeAt history (provider.httpRequest request)) retries
      (provider.complete platform history request)) ↔
      provider.Undiverted history (provider.httpRequest request) := by
  obtain ⟨n, hattempted, hlast⟩ := exists_last_attempt provider history (provider.httpRequest request)
  have hretries := min_leading hattempted.le hattempted.front hlast
  have hcomplete : provider.complete platform history request = _ := completeLoop_concluded hattempted hlast
  have hmade : WireRequest.made origin (provider.complete platform history request).2 =
      ((List.range (n + 1)).map (provider.exchangeAt history (provider.httpRequest request))).flatMap fun exchange =>
        WireRequest.chain origin (.first (provider.httpRequest request)) exchange.hops := by
    rw [hcomplete, WireRequest.made_append, made_doneBefore, List.flatMap_map, List.range_succ, List.flatMap_append]
    rfl
  have hrequests := made_eq_replicate_iff hmade
  rw [List.length_map, List.length_range, List.forall_mem_map] at hrequests
  constructor
  · rintro ⟨retries, hresult⟩ i hi
    obtain rfl : n = retries := by
      have hsame := hretries.symm.trans hresult.retries_eq
      exact_mod_cast hsame
    exact hrequests.mp hresult.requests i (List.mem_range.mpr (Nat.lt_succ_of_le (hi.le_last hlast)))
  · intro hdirect
    refine ⟨n, hretries, hrequests.mpr fun i hi => ?_, ?_, ?_, hattempted.front, ?_, ?_⟩
    · exact hdirect i (hattempted.of_le (Nat.le_of_lt_succ (List.mem_range.mp hi)))
    · rw [hcomplete, List.filterMap_append, attempt_doneBefore, List.range_succ, List.map_append]
      rfl
    · rw [hcomplete, List.filterMap_append, slept_doneBefore]
      exact List.append_nil _
    · rw [hcomplete]
      exact fun answer => Outcome.conclude_eq_ok_iff
    · rw [hcomplete]
      exact fun e => Outcome.described_of_conclude

end AnthropicProvider

/-- For every limit and every sequence of outcomes, this is exactly when a completion resends the transient failures
and makes no other request. Its counter does not wrap, and the back-off grows to sixteen seconds at most. -/
theorem retries_transient_iff {ω : Type} [DecidableEq ω] (platform : Platform) (provider : AnthropicProvider)
    (origin : String → Option ω) (history : History) (request : LlmRequest) :
    ((∃ retries, provider.RetriesTransient platform origin (provider.httpRequest request)
        (provider.outcomeAt history (provider.httpRequest request)) retries
        (provider.complete platform history request)) ∧
      (∀ attempt done, AnthropicProvider.Attempts platform provider history (provider.httpRequest request) attempt done →
        attempt.toNat = (done.filterMap ModelEffect.attempt).length ∧ attempt ≤ provider.config.maxRetries) ∧
      (∀ first second : UInt32, first ≤ second → backoff first ≤ backoff second) ∧
      ∀ attempt : UInt32, backoff attempt ≤ 16000) ↔
      provider.Undiverted history (provider.httpRequest request) := by
  rw [← AnthropicProvider.retriesTransient_iff platform provider origin history request]
  exact and_iff_left ⟨fun attempt done h => h.counted, fun first second => backoff_mono, backoff_le⟩

/-- An endpoint that has moved, which the client finds out by itself, and no retries. -/
def relocatedProvider : AnthropicProvider :=
  ⟨{ LlmConfig.default with maxRetries := 0 }, "key",
    .constant ⟨[⟨308, "https://api.anthropic.com/v2/messages"⟩], by decide, .error "closed"⟩⟩

/-- Two requests go out for a completion that may send one. -/
theorem retries_redirected_moved :
    ¬ ∃ retries, relocatedProvider.RetriesTransient .offline (fun url => some url)
        (relocatedProvider.httpRequest ⟨none, [.user [.text "hello"]], []⟩)
        (relocatedProvider.outcomeAt [] (relocatedProvider.httpRequest ⟨none, [.user [.text "hello"]], []⟩)) retries
        (relocatedProvider.complete .offline [] ⟨none, [.user [.text "hello"]], []⟩) := by
  rw [AnthropicProvider.retriesTransient_iff]
  intro hdirect
  cases hdirect 0 ⟨Nat.zero_le _, nofun⟩

end TdsWasm
