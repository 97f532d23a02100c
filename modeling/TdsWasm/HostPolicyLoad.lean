import TdsWasm.LibToml
import TdsWasm.HostPolicy

/-! Loading a policy file (`Policy::load` of `policy.rs`): the text, the document, the policy it decodes to
and the checks on it. -/

set_option autoImplicit false

namespace TdsWasm

/-! ### Decoding -/

def Provider.variants : List (String × Provider) := [("Anthropic", anthropic), ("Mock", mock)]

def Effort.variants : List (String × Effort) := [low, medium, high, xHigh, max].map fun effort =>
  (effort.debug, effort)

def Thinking.variants : List (String × Thinking) := [("Adaptive", adaptive), ("Disabled", disabled)]

def Limits.ofToml (doc : Toml) : Option Limits := do
  let fields ← Toml.fields ["fuel", "wall_clock_ms", "memory_bytes", "table_elements", "max_steps",
    "max_request_bytes"] doc
  let fuel ← Toml.required "fuel" Toml.u64 fields
  let wallClockMs ← Toml.required "wall_clock_ms" Toml.u64 fields
  let memoryBytes ← Toml.required "memory_bytes" Toml.usize fields
  let tableElements ← Toml.required "table_elements" Toml.usize fields
  let maxSteps ← Toml.required "max_steps" Toml.u32 fields
  let maxRequestBytes ← Toml.required "max_request_bytes" Toml.usize fields
  return ⟨fuel, wallClockMs, memoryBytes, tableElements, maxSteps, maxRequestBytes⟩

def LlmConfig.ofToml (doc : Toml) : Option LlmConfig := do
  let fields ← Toml.fields ["provider", "model", "max_tokens", "effort", "thinking", "summarize_thinking",
    "base_url", "api_version", "api_key_env", "request_timeout_ms", "max_retries",
    "server_side_fallback"] doc
  let provider ← Toml.required "provider" (Toml.variant Provider.variants) fields
  let model ← Toml.required "model" Toml.text fields
  let maxTokens ← Toml.required "max_tokens" Toml.u32 fields
  let effort ← Toml.required "effort" (Toml.variant Effort.variants) fields
  let thinking ← Toml.required "thinking" (Toml.variant Thinking.variants) fields
  let summarizeThinking ← Toml.required "summarize_thinking" Toml.flag fields
  let baseUrl ← Toml.required "base_url" Toml.text fields
  let apiVersion ← Toml.required "api_version" Toml.text fields
  let apiKeyEnv ← Toml.required "api_key_env" Toml.text fields
  let requestTimeoutMs ← Toml.required "request_timeout_ms" Toml.u64 fields
  let maxRetries ← Toml.required "max_retries" Toml.u32 fields
  let serverSideFallback ← Toml.required "server_side_fallback" Toml.flag fields
  return ⟨provider, model, maxTokens, effort, thinking, summarizeThinking, baseUrl, apiVersion, apiKeyEnv,
    requestTimeoutMs, maxRetries, serverSideFallback⟩

def HttpToolConfig.ofToml (doc : Toml) : Option HttpToolConfig := do
  let fields ← Toml.fields ["allowed_hosts", "max_response_bytes", "timeout_ms"] doc
  let allowedHosts ← Toml.required "allowed_hosts" Toml.texts fields
  let maxResponseBytes ← Toml.required "max_response_bytes" Toml.usize fields
  let timeoutMs ← Toml.required "timeout_ms" Toml.u64 fields
  return ⟨allowedHosts, maxResponseBytes, timeoutMs⟩

def KvToolConfig.ofToml (doc : Toml) : Option KvToolConfig := do
  let fields ← Toml.fields ["max_keys", "max_value_bytes"] doc
  let maxKeys ← Toml.required "max_keys" Toml.usize fields
  let maxValueBytes ← Toml.required "max_value_bytes" Toml.usize fields
  return ⟨maxKeys, maxValueBytes⟩

def ToolsConfig.ofToml (doc : Toml) : Option ToolsConfig := do
  let fields ← Toml.fields ["enabled", "http", "kv"] doc
  let enabled ← Toml.required "enabled" Toml.texts fields
  let http ← Toml.defaulted "http" .default HttpToolConfig.ofToml fields
  let kv ← Toml.defaulted "kv" .default KvToolConfig.ofToml fields
  return ⟨enabled, http, kv⟩

def Policy.ofToml (doc : Toml) : Option Policy := do
  let fields ← Toml.fields ["limits", "llm", "tools"] doc
  let limits ← Toml.defaulted "limits" .default Limits.ofToml fields
  let llm ← Toml.defaulted "llm" .default LlmConfig.ofToml fields
  let tools ← Toml.defaulted "tools" .default ToolsConfig.ofToml fields
  return ⟨limits, llm, tools⟩

/-! ### Files -/

/-- The files of the host and its TOML library: the text of a file, the document of a text, and what is
said of a text whose document does not decode. -/
structure PolicyReader where
  readToString : String → Except String String
  parse : String → Except String Toml
  refusal : String → String

def withContext {α : Type} (context : String) : Except String α → Except String α :=
  Except.mapError fun cause => context ++ ": " ++ cause

/-- Decode the document of a text. -/
def PolicyReader.fromStr (reader : PolicyReader) (text : String) : Except String Policy := do
  match Policy.ofToml (← reader.parse text) with
  | some policy => return policy
  | none => throw (reader.refusal text)

def Policy.load (platform : Platform) (reader : PolicyReader) (path : String) : Except String Policy := do
  let text ← withContext ("reading policy " ++ path) (reader.readToString path)
  let policy ← withContext ("parsing policy " ++ path) (reader.fromStr text)
  policy.validate platform
  return policy

/-! ### Loading -/

theorem bind_eq_ok_iff {α β : Type} {first : Except String α} {next : α → Except String β} {b : β} :
    first >>= next = .ok b ↔ ∃ a, first = .ok a ∧ next a = .ok b := by
  cases first <;> simp [bind, Except.bind]

theorem withContext_eq_ok_iff {α : Type} {context : String} {result : Except String α} {a : α} :
    withContext context result = .ok a ↔ result = .ok a := by
  cases result <;> simp [withContext, Except.mapError]

theorem PolicyReader.fromStr_eq_ok_iff {reader : PolicyReader} {text : String} {policy : Policy} :
    reader.fromStr text = .ok policy ↔ ∃ doc, reader.parse text = .ok doc ∧ Policy.ofToml doc = some policy := by
  rw [fromStr, bind_eq_ok_iff]
  apply exists_congr
  intro doc
  apply and_congr_right
  intro _
  cases Policy.ofToml doc <;> simp [pure, Except.pure, throw, throwThe, MonadExceptOf.throw]

/-- A policy is loaded exactly when the file has a text, the text has a document, the document decodes to it
and it is valid. -/
theorem Policy.load_eq_ok_iff {platform : Platform} {reader : PolicyReader} {path : String} {policy : Policy} :
    load platform reader path = .ok policy ↔
      ∃ text doc, reader.readToString path = .ok text ∧ reader.parse text = .ok doc ∧
        ofToml doc = some policy ∧ policy.Valid := by
  simp only [load, bind_eq_ok_iff, withContext_eq_ok_iff, PolicyReader.fromStr_eq_ok_iff]
  constructor
  · rintro ⟨text, hread, decoded, ⟨doc, hparse, hdecode⟩, _, hvalid, hreturn⟩
    cases hreturn
    exact ⟨text, doc, hread, hparse, hdecode, validate_eq_ok_iff.mp hvalid⟩
  · rintro ⟨text, doc, hread, hparse, hdecode, hvalid⟩
    exact ⟨text, hread, policy, ⟨doc, hparse, hdecode⟩, (), validate_eq_ok_iff.mpr hvalid, rfl⟩

end TdsWasm
