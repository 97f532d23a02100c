import TdsWasm.HostPolicy
import TdsWasm.LibWord

/-! Model access on the host side (`llm.rs`): the provider interface and the Messages API provider
with its retry loop. -/

set_option autoImplicit false

namespace TdsWasm

open Decode

/-- A model provider. It sees the record of the run so far, and its answer comes with what it did
to get it. -/
structure LlmProvider where
  complete : History → LlmRequest → Except CapError LlmResponse × List ModelEffect
  describe : String

/-- A provider that always gives this answer and does nothing for it. -/
def LlmProvider.constant (answer : Except CapError LlmResponse) : LlmProvider where
  complete _ _ := (answer, [])
  describe := "constant"

/-! ### Messages API -/

def fallbackBeta : String := "server-side-fallback-2026-07-01"

structure ApiUsage where
  inputTokens : UInt64
  outputTokens : UInt64

def ApiUsage.decode (levels : Nat) (j : Json) : Option ApiUsage :=
  record ["input_tokens", "output_tokens"] levels j fun _ fields => do
    let inputTokens ← defaulted "input_tokens" 0 u64 fields
    let outputTokens ← defaulted "output_tokens" 0 u64 fields
    return ⟨inputTokens, outputTokens⟩

structure ApiResponse where
  stopReason : Option String
  content : List Content
  usage : ApiUsage

namespace ApiResponse

def decode (levels : Nat) (j : Json) : Option ApiResponse :=
  record ["stop_reason", "content", "usage"] levels j fun levels fields => do
    let stopReason ← defaulted "stop_reason" none (option string) fields
    let content ← defaulted "content" [] (list levels Content.decode) fields
    let usage ← defaulted "usage" ⟨0, 0⟩ (ApiUsage.decode levels) fields
    return ⟨stopReason, content, usage⟩

def toLlmResponse (r : ApiResponse) : LlmResponse where
  stopReason := r.stopReason.getD "end_turn"
  content := r.content
  usage := ⟨r.usage.inputTokens, r.usage.outputTokens⟩

end ApiResponse

/-- The waiting time before a retry, in milliseconds, with `u64` saturation. -/
def backoff (attempt : UInt32) : Nat := min (500 * 2 ^ min attempt.toNat 5) (2 ^ 64 - 1)

/-- Cut a text to at most `max` bytes at a character boundary. -/
def truncateDetail (s : String) (max : Nat) : String :=
  if s.utf8ByteSize ≤ max then s
  else Text.takeBytes s (Text.floorCharBoundary s max) ++ "…"

/-- A `u64` in decimal, with an optional plus sign. -/
def parseU64 (s : String) : Option Nat :=
  let digits := match s.toList with
    | '+' :: rest => rest
    | cs => cs
  if digits ≠ [] ∧ digits.all Char.isDigit ∧ Nat.ofDigitChars 10 digits 0 < 2 ^ 64 then
    some (Nat.ofDigitChars 10 digits 0)
  else none

structure AnthropicProvider where
  config : LlmConfig
  apiKey : String
  client : HttpClient ModelRequest defaultRedirects

namespace AnthropicProvider

def new (platform : Platform) (config : LlmConfig) : Except String AnthropicProvider := do
  let apiKey ← match platform.envVar config.apiKeyEnv with
    | some key => pure key
    | none => throw (config.apiKeyEnv ++ " is not set; export an API key or set llm.provider = " ++
        "\"mock\" in the policy")
  if (Text.trim apiKey).isEmpty then
    throw (config.apiKeyEnv ++ " is set but empty")
  let client ← platform.buildModelClient config.requestTimeoutMs
  return ⟨config, apiKey, client⟩

variable (platform : Platform) (provider : AnthropicProvider)

def body (request : LlmRequest) : JsonValue :=
  let config := provider.config
  let base := [("model", Json.str config.model),
    ("max_tokens", .num (Numeral.ofNat config.maxTokens.toNat)),
    ("messages", .arr (request.messages.map Message.encode)),
    ("output_config", .obj [("effort", .str config.effort.asStr)])]
  let thinking := match config.thinking with
    | .adaptive => [("type", Json.str "adaptive")] ++
        if config.summarizeThinking then [("display", .str "summarized")] else []
    | .disabled => [("type", .str "disabled")]
  let system := match request.system with
    | some system => [("system", Json.str system)]
    | none => []
  let tools := if request.tools.isEmpty then []
    else [("tools", Json.arr (request.tools.map ToolSpec.encode))]
  let fallbacks := if config.serverSideFallback then [("fallbacks", Json.str "default")] else []
  (Json.obj (base ++ [("thinking", .obj thinking)] ++ system ++ tools ++ fallbacks)).toValue

def trimEndSlashes (s : String) : String :=
  String.ofList ((s.toList.reverse.dropWhile (· = '/')).reverse)

/-- The one request that a completion sends, and sends again. -/
def httpRequest (request : LlmRequest) : ModelRequest where
  url := trimEndSlashes provider.config.baseUrl ++ "/v1/messages"
  headers := [("x-api-key", provider.apiKey), ("anthropic-version", provider.config.apiVersion),
    ("content-type", "application/json")] ++
    if provider.config.serverSideFallback then [("anthropic-beta", fallbackBeta)] else []
  body := provider.body request

/-- What a successful response decodes to. -/
def accepted (response : HttpResponse) : Except CapError LlmResponse :=
  let parsed := do
    platform.codec.fromSlice "ApiResponse" ApiResponse.decode (← response.bytes)
  match parsed with
  | .ok parsed => .ok parsed.toLlmResponse
  | .error e => .error (.upstream ("malformed model response: " ++ e))

def rejected (response : HttpResponse) : CapError :=
  let detail := match response.bodyError with
    | some _ => ""
    | none => response.charsetText
  .upstream ("model returned HTTP " ++ toString response.status ++ ": " ++ truncateDetail detail 512)

def retryAfter (response : HttpResponse) : Option Nat :=
  (response.header "retry-after").bind parseU64

/-- 429 and 5xx are transient; any other failure is final. -/
def retryable (response : HttpResponse) : Bool := response.status == 429 || response.isServerError

/-- The retry loop, entered with the attempts made so far and what has been done. -/
def completeLoop (history : History) (http : ModelRequest) (attempt : UInt32)
    (done : List ModelEffect) : Except CapError LlmResponse × List ModelEffect :=
  let exchange := provider.client.send (history ++ done.map .model) http
  let done := done ++ [.send http exchange]
  match exchange.outcome with
  | .error e =>
      if attempt < provider.config.maxRetries then
        completeLoop history http (attempt + 1) (done ++ [.sleep (backoff (attempt + 1))])
      else (.error (.upstream ("request to the model failed: " ++ e)), done)
  | .ok response =>
      if response.isSuccess then (accepted platform response, done)
      else if retryable response ∧ attempt < provider.config.maxRetries then
        let wait := match retryAfter response with
          | some seconds => seconds * 1000
          | none => backoff (attempt + 1)
        completeLoop history http (attempt + 1) (done ++ [.sleep wait])
      else (.error (rejected response), done)
termination_by provider.config.maxRetries.toNat - attempt.toNat
decreasing_by
  all_goals
    have hlt : attempt < provider.config.maxRetries := by
      first | assumption | exact And.right (by assumption)
    have hnat := UInt32.lt_iff_toNat_lt.mp hlt
    rw [Word.toNat_add_one hlt]
    omega

def complete (history : History) (request : LlmRequest) :
    Except CapError LlmResponse × List ModelEffect :=
  completeLoop platform provider history (provider.httpRequest request) 0 []

/-- The Messages API behind the provider interface. -/
def toProvider : LlmProvider where
  complete := provider.complete platform
  describe := "anthropic:" ++ provider.config.model

end AnthropicProvider

end TdsWasm
