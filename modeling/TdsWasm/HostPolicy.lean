import TdsWasm.HostHttp

/-! The sandbox policy (`policy.rs`): everything the agent is allowed to consume and reach. -/

set_option autoImplicit false

namespace TdsWasm

structure Limits where
  /-- Fuel budget for the whole run. -/
  fuel : UInt64
  wallClockMs : UInt64
  memoryBytes : Nat
  tableElements : Nat
  /-- Host-side cap on model turns, independent of what the guest asks for. -/
  maxSteps : UInt32
  /-- Cap on bytes the guest may hand the host in a single capability call. -/
  maxRequestBytes : Nat

def Limits.default : Limits where
  fuel := 1000000000
  wallClockMs := 120000
  memoryBytes := 64 * 1024 * 1024
  tableElements := 10000
  maxSteps := 8
  maxRequestBytes := 4 * 1024 * 1024

inductive Provider where
  | anthropic
  | mock
  deriving DecidableEq

inductive Effort where
  | low
  | medium
  | high
  | xHigh
  | max
  deriving DecidableEq

namespace Effort

def asStr : Effort → String
  | low => "low"
  | medium => "medium"
  | high => "high"
  | xHigh => "xhigh"
  | max => "max"

/-- The derived debug text. -/
def debug : Effort → String
  | low => "Low"
  | medium => "Medium"
  | high => "High"
  | xHigh => "XHigh"
  | max => "Max"

end Effort

inductive Thinking where
  | adaptive
  | disabled
  deriving DecidableEq

structure LlmConfig where
  provider : Provider
  model : String
  maxTokens : UInt32
  effort : Effort
  thinking : Thinking
  summarizeThinking : Bool
  baseUrl : String
  apiVersion : String
  /-- Environment variable holding the API key. -/
  apiKeyEnv : String
  requestTimeoutMs : UInt64
  maxRetries : UInt32
  serverSideFallback : Bool

def LlmConfig.default : LlmConfig where
  provider := .anthropic
  model := "claude-opus-5"
  maxTokens := 8192
  effort := .high
  thinking := .adaptive
  summarizeThinking := false
  baseUrl := "https://api.anthropic.com"
  apiVersion := "2023-06-01"
  apiKeyEnv := "ANTHROPIC_API_KEY"
  requestTimeoutMs := 600000
  maxRetries := 2
  serverSideFallback := true

structure HttpToolConfig where
  /-- Hosts the agent may fetch. Empty means the tool can reach nothing. -/
  allowedHosts : List String
  maxResponseBytes : Nat
  timeoutMs : UInt64

def HttpToolConfig.default : HttpToolConfig where
  allowedHosts := []
  maxResponseBytes := 64 * 1024
  timeoutMs := 15000

structure KvToolConfig where
  maxKeys : Nat
  maxValueBytes : Nat

def KvToolConfig.default : KvToolConfig where
  maxKeys := 128
  maxValueBytes := 16 * 1024

structure ToolsConfig where
  /-- Allowlist. A tool not named here does not exist as far as the agent knows. -/
  enabled : List String
  http : HttpToolConfig
  kv : KvToolConfig

def ToolsConfig.default : ToolsConfig where
  enabled := ["now", "kv_get", "kv_put"]
  http := .default
  kv := .default

structure Policy where
  limits : Limits
  llm : LlmConfig
  tools : ToolsConfig

def Policy.default : Policy where
  limits := .default
  llm := .default
  tools := .default

/-- Every tool this host knows how to run. A policy may enable any subset. -/
def knownTools : List String := ["now", "http_get", "kv_get", "kv_put"]

def isKnownTool (name : String) : Bool := knownTools.contains name

/-- Reject configurations the API would reject at request time. -/
def Policy.validate (platform : Platform) (policy : Policy) : Except String Unit := do
  if policy.limits.fuel = 0 then
    throw "limits.fuel must be greater than zero"
  if policy.limits.wallClockMs = 0 then
    throw "limits.wall_clock_ms must be greater than zero"
  if policy.limits.maxSteps = 0 then
    throw "limits.max_steps must be greater than zero"
  if policy.limits.memoryBytes < 1 <<< 20 then
    throw "limits.memory_bytes must be at least 1 MiB"
  if policy.llm.thinking = .disabled ∧ (policy.llm.effort = .xHigh ∨ policy.llm.effort = .max) then
    throw ("llm.thinking = \"disabled\" is only valid at effort \"high\" or lower (got " ++
      policy.llm.effort.debug ++ "); raise thinking or lower effort")
  match policy.tools.enabled.find? fun name => !isKnownTool name with
  | some name => throw ("tools.enabled lists unknown tool " ++ Text.debug platform.plain name)
  | none => return ()

/-- What a policy must keep to. -/
structure Policy.Valid (policy : Policy) : Prop where
  fuel : policy.limits.fuel ≠ 0
  wallClockMs : policy.limits.wallClockMs ≠ 0
  maxSteps : policy.limits.maxSteps ≠ 0
  memoryBytes : 2 ^ 20 ≤ policy.limits.memoryBytes
  thinking : ¬ (policy.llm.thinking = .disabled ∧ (policy.llm.effort = .xHigh ∨ policy.llm.effort = .max))
  enabled : ∀ name ∈ policy.tools.enabled, isKnownTool name = true

/-- A policy passes the checks exactly when it is valid. -/
theorem Policy.validate_eq_ok_iff {platform : Platform} {policy : Policy} :
    policy.validate platform = .ok () ↔ policy.Valid := by
  unfold validate
  by_cases hfuel : policy.limits.fuel = 0
  · rw [if_pos hfuel]
    exact iff_of_false (by intro h; cases h) fun h => h.fuel hfuel
  by_cases hclock : policy.limits.wallClockMs = 0
  · simp only [if_neg hfuel, if_pos hclock]
    exact iff_of_false (by intro h; cases h) fun h => h.wallClockMs hclock
  by_cases hsteps : policy.limits.maxSteps = 0
  · simp only [if_neg hfuel, if_neg hclock, if_pos hsteps]
    exact iff_of_false (by intro h; cases h) fun h => h.maxSteps hsteps
  by_cases hmemory : policy.limits.memoryBytes < 1 <<< 20
  · simp only [if_neg hfuel, if_neg hclock, if_neg hsteps, if_pos hmemory]
    exact iff_of_false (by intro h; cases h) fun h => absurd h.memoryBytes (Nat.not_le.mpr hmemory)
  by_cases hthinking : policy.llm.thinking = .disabled ∧
      (policy.llm.effort = .xHigh ∨ policy.llm.effort = .max)
  · simp only [if_neg hfuel, if_neg hclock, if_neg hsteps, if_neg hmemory, if_pos hthinking]
    exact iff_of_false (by intro h; cases h) fun h => h.thinking hthinking
  simp only [if_neg hfuel, if_neg hclock, if_neg hsteps, if_neg hmemory, if_neg hthinking]
  cases hunknown : policy.tools.enabled.find? fun name => !isKnownTool name with
  | some name =>
      have hname := List.find?_some hunknown
      refine iff_of_false (by intro h; cases h) fun h => ?_
      rw [h.enabled name (List.mem_of_find?_eq_some hunknown)] at hname
      cases hname
  | none =>
      have hknown : ∀ name ∈ policy.tools.enabled, isKnownTool name = true := fun name hmem => by
        simpa using List.find?_eq_none.mp hunknown name hmem
      exact ⟨fun _ => ⟨hfuel, hclock, hsteps, Nat.not_lt.mp hmemory, hthinking, hknown⟩, fun _ => rfl⟩

/-- ASCII letters of a string in lower case. -/
def toAsciiLowercase (s : String) : String := String.ofList (s.toList.map Char.toLower)

/-- Exact host match, or a `*.example.com` suffix match. Never a substring match. -/
def HttpToolConfig.allows (config : HttpToolConfig) (host : String) : Bool :=
  let host := (toAsciiLowercase host).toList
  config.allowedHosts.any fun rule =>
    let rule := (toAsciiLowercase (Text.trim rule)).toList
    if ['*', '.'].isPrefixOf rule then
      let suffix := rule.drop 2
      host == suffix || ('.' :: suffix).isSuffixOf host
    else host == rule

end TdsWasm
