import TdsWasm.LibTomlKeys
import TdsWasm.SecurityPolicyLoad

/-! What becomes of a policy document that leaves keys out. A table that is left out has its default, but within
a table only those keys that are tables themselves have one: any other key that is left out makes the whole
document undecodable. -/

set_option autoImplicit false

namespace TdsWasm

open Toml (Strict)

/-! ### Deletions -/

/-- A key of one of the tables of a policy document. -/
inductive PolicyKey where
  | limits (name : String)
  | llm (name : String)
  | tools (name : String)
  | http (name : String)
  | kv (name : String)

def PolicyKey.path : PolicyKey → List String
  | limits name => ["limits", name]
  | llm name => ["llm", name]
  | tools name => ["tools", name]
  | http name => ["tools", "http", name]
  | kv name => ["tools", "kv", name]

def ToolsConfig.without (gone : PolicyKey → Bool) (doc : Toml) : Toml :=
  ((doc.adjust "http" (.without fun name => gone (.http name))).adjust "kv"
    (.without fun name => gone (.kv name))).without fun name => gone (.tools name)

/-- The policy document without the keys that are gone. -/
def Policy.without (gone : PolicyKey → Bool) (doc : Toml) : Toml :=
  ((doc.adjust "limits" (.without fun name => gone (.limits name))).adjust "llm"
    (.without fun name => gone (.llm name))).adjust "tools" (ToolsConfig.without gone)

/-- The key is in the document, and is gone. -/
def Deleted (doc : Toml) (gone : PolicyKey → Bool) (key : PolicyKey) : Bool :=
  gone key && (doc.locate key.path).isSome

/-! ### Defaults -/

/-- The limits with the default for every deleted key; the other sections likewise. -/
def Limits.defaulting (deleted : String → Bool) (limits : Limits) : Limits where
  fuel := if deleted "fuel" then default.fuel else limits.fuel
  wallClockMs := if deleted "wall_clock_ms" then default.wallClockMs else limits.wallClockMs
  memoryBytes := if deleted "memory_bytes" then default.memoryBytes else limits.memoryBytes
  tableElements := if deleted "table_elements" then default.tableElements else limits.tableElements
  maxSteps := if deleted "max_steps" then default.maxSteps else limits.maxSteps
  maxRequestBytes := if deleted "max_request_bytes" then default.maxRequestBytes else limits.maxRequestBytes

def LlmConfig.defaulting (deleted : String → Bool) (config : LlmConfig) : LlmConfig where
  provider := if deleted "provider" then default.provider else config.provider
  model := if deleted "model" then default.model else config.model
  maxTokens := if deleted "max_tokens" then default.maxTokens else config.maxTokens
  effort := if deleted "effort" then default.effort else config.effort
  thinking := if deleted "thinking" then default.thinking else config.thinking
  summarizeThinking := if deleted "summarize_thinking" then default.summarizeThinking else config.summarizeThinking
  baseUrl := if deleted "base_url" then default.baseUrl else config.baseUrl
  apiVersion := if deleted "api_version" then default.apiVersion else config.apiVersion
  apiKeyEnv := if deleted "api_key_env" then default.apiKeyEnv else config.apiKeyEnv
  requestTimeoutMs := if deleted "request_timeout_ms" then default.requestTimeoutMs else config.requestTimeoutMs
  maxRetries := if deleted "max_retries" then default.maxRetries else config.maxRetries
  serverSideFallback := if deleted "server_side_fallback" then default.serverSideFallback else config.serverSideFallback

def HttpToolConfig.defaulting (deleted : String → Bool) (config : HttpToolConfig) : HttpToolConfig where
  allowedHosts := if deleted "allowed_hosts" then default.allowedHosts else config.allowedHosts
  maxResponseBytes := if deleted "max_response_bytes" then default.maxResponseBytes else config.maxResponseBytes
  timeoutMs := if deleted "timeout_ms" then default.timeoutMs else config.timeoutMs

def KvToolConfig.defaulting (deleted : String → Bool) (config : KvToolConfig) : KvToolConfig where
  maxKeys := if deleted "max_keys" then default.maxKeys else config.maxKeys
  maxValueBytes := if deleted "max_value_bytes" then default.maxValueBytes else config.maxValueBytes

def ToolsConfig.defaulting (deleted : PolicyKey → Bool) (config : ToolsConfig) : ToolsConfig where
  enabled := if deleted (.tools "enabled") then default.enabled else config.enabled
  http := if deleted (.tools "http") then .default else config.http.defaulting fun name => deleted (.http name)
  kv := if deleted (.tools "kv") then .default else config.kv.defaulting fun name => deleted (.kv name)

def Policy.defaulting (deleted : PolicyKey → Bool) (policy : Policy) : Policy where
  limits := policy.limits.defaulting fun name => deleted (.limits name)
  llm := policy.llm.defaulting fun name => deleted (.llm name)
  tools := policy.tools.defaulting deleted

theorem Limits.defaulting_none (limits : Limits) : limits.defaulting (fun _ => false) = limits := rfl

theorem LlmConfig.defaulting_none (config : LlmConfig) : config.defaulting (fun _ => false) = config := rfl

theorem HttpToolConfig.defaulting_none (config : HttpToolConfig) : config.defaulting (fun _ => false) = config := rfl

theorem KvToolConfig.defaulting_none (config : KvToolConfig) : config.defaulting (fun _ => false) = config := rfl

/-- The document without the keys that are gone still decodes, to the same policy but for the defaults of the
deleted keys. -/
def OmissionsDefaulted (doc : Toml) (policy : Policy) (gone : PolicyKey → Bool) : Prop :=
  Policy.ofToml (Policy.without gone doc) = some (policy.defaulting (Deleted doc gone))

/-- The key is one of the two tables that have a default of their own, or in one that is deleted as a whole. -/
def PolicyKey.Optional (deleted : PolicyKey → Bool) : PolicyKey → Prop
  | limits _ => False
  | llm _ => False
  | tools name => name = "http" ∨ name = "kv"
  | http _ => deleted (.tools "http")
  | kv _ => deleted (.tools "kv")

/-! ### Records without defaults -/

open Toml

variable {entries : List (String × Toml)}

theorem Limits.strict : Strict ["fuel", "wall_clock_ms", "memory_bytes", "table_elements", "max_steps",
    "max_request_bytes"] ofToml := by
  intro entries limits h
  simp only [ofToml, Option.bind_eq_bind, Option.bind_eq_some_iff] at h
  obtain ⟨known, hfields, _, hfuel, _, hclock, _, hmemory, _, helements, _, hsteps, _, hrequest, _⟩ := h
  apply keys_of_required hfields
  exact ⟨find_isSome_of_required hfuel, find_isSome_of_required hclock, find_isSome_of_required hmemory,
    find_isSome_of_required helements, find_isSome_of_required hsteps, find_isSome_of_required hrequest⟩

theorem LlmConfig.strict : Strict ["provider", "model", "max_tokens", "effort", "thinking", "summarize_thinking",
    "base_url", "api_version", "api_key_env", "request_timeout_ms", "max_retries", "server_side_fallback"] ofToml := by
  intro entries config h
  obtain ⟨known, hfields, h⟩ := Option.bind_eq_some_iff.mp h
  obtain ⟨_, hprovider, h⟩ := Option.bind_eq_some_iff.mp h
  obtain ⟨_, hmodel, h⟩ := Option.bind_eq_some_iff.mp h
  obtain ⟨_, htokens, h⟩ := Option.bind_eq_some_iff.mp h
  obtain ⟨_, heffort, h⟩ := Option.bind_eq_some_iff.mp h
  obtain ⟨_, hthinking, h⟩ := Option.bind_eq_some_iff.mp h
  simp only [Option.bind_eq_bind, Option.bind_eq_some_iff] at h
  obtain ⟨_, hsummarize, _, hurl, _, hapi, _, hkey, _, htimeout, _, hretries, _, hfallback, _⟩ := h
  apply keys_of_required hfields
  exact ⟨find_isSome_of_required hprovider, find_isSome_of_required hmodel, find_isSome_of_required htokens,
    find_isSome_of_required heffort, find_isSome_of_required hthinking, find_isSome_of_required hsummarize,
    find_isSome_of_required hurl, find_isSome_of_required hapi, find_isSome_of_required hkey,
    find_isSome_of_required htimeout, find_isSome_of_required hretries, find_isSome_of_required hfallback⟩

theorem HttpToolConfig.strict : Strict ["allowed_hosts", "max_response_bytes", "timeout_ms"] ofToml := by
  intro entries config h
  simp only [ofToml, Option.bind_eq_bind, Option.bind_eq_some_iff] at h
  obtain ⟨known, hfields, _, hhosts, _, hbytes, _, htimeout, _⟩ := h
  apply keys_of_required hfields
  exact ⟨find_isSome_of_required hhosts, find_isSome_of_required hbytes, find_isSome_of_required htimeout⟩

theorem KvToolConfig.strict : Strict ["max_keys", "max_value_bytes"] ofToml := by
  intro entries config h
  simp only [ofToml, Option.bind_eq_bind, Option.bind_eq_some_iff] at h
  obtain ⟨known, hfields, _, hkeys, _, hbytes, _⟩ := h
  apply keys_of_required hfields
  exact ⟨find_isSome_of_required hkeys, find_isSome_of_required hbytes⟩

/-! ### Tools -/

namespace ToolsConfig

theorem get_without (gone : PolicyKey → Bool) (doc : Toml) (name : String) :
    (without gone doc).get name = if gone (.tools name) then none else
      ((doc.get name).map fun value => if name = "http" then value.without fun key => gone (.http key) else value).map
        fun value => if name = "kv" then value.without fun key => gone (.kv key) else value := by
  rw [without, Toml.get_without, get_adjust, get_adjust]

theorem ofToml_table_iff {config : ToolsConfig} :
    ofToml (table entries) = some config ↔ fields ["enabled", "http", "kv"] (table entries) = some entries ∧
      ((table entries).get "enabled").bind texts = some config.enabled ∧
      ((table entries).get "http").elim (some .default) HttpToolConfig.ofToml = some config.http ∧
      ((table entries).get "kv").elim (some .default) KvToolConfig.ofToml = some config.kv := by
  simp only [ofToml, Option.bind_eq_bind, Option.bind_eq_some_iff, pure, Option.some.injEq]
  constructor
  · rintro ⟨known, hfields, enabled, henabled, http, hhttp, kv, hkv, rfl⟩
    cases fields_table hfields
    exact ⟨hfields, Option.bind_eq_some_iff.mp henabled, hhttp, hkv⟩
  · rintro ⟨hfields, henabled, hhttp, hkv⟩
    exact ⟨entries, hfields, _, Option.bind_eq_some_iff.mpr henabled, _, hhttp, _, hkv, rfl⟩

/-- Besides its two tables, a tools table has no other key than `enabled`. -/
theorem get_isSome {key : String} (hfields : fields ["enabled", "http", "kv"] (table entries) = some entries)
    (hkey : ((table entries).get key).isSome) : key = "enabled" ∨ key = "http" ∨ key = "kv" := by
  have hname := (fields_table_iff.mp hfields).2.2 key (get_isSome_iff.mp hkey)
  simpa using hname

theorem without_table (gone : PolicyKey → Bool)
    (hfields : fields ["enabled", "http", "kv"] (table entries) = some entries) :
    ∃ rest, without gone (table entries) = table rest ∧ fields ["enabled", "http", "kv"] (table rest) = some rest := by
  obtain ⟨first, hfirst, hfieldsFirst⟩ := fields_adjust "http" (Toml.without fun name => gone (.http name)) hfields
  obtain ⟨second, hsecond, hfieldsSecond⟩ := fields_adjust "kv" (Toml.without fun name => gone (.kv name)) hfieldsFirst
  obtain ⟨rest, hrest, hfieldsRest⟩ := fields_without (fun name => gone (.tools name)) hfieldsSecond
  exact ⟨rest, by rw [without, hfirst, hsecond, hrest], hfieldsRest⟩

/-- What is deleted of a tools table. -/
structure Deletes (gone : PolicyKey → Bool) (found : Option Toml) (deleted : PolicyKey → Bool) : Prop where
  tools : ∀ name, deleted (.tools name) = (gone (.tools name) && (found.bind (get name)).isSome)
  http : ∀ name, deleted (.http name) = (gone (.http name) && ((found.bind (get "http")).bind (get name)).isSome)
  kv : ∀ name, deleted (.kv name) = (gone (.kv name) && ((found.bind (get "kv")).bind (get name)).isSome)

/-- All that is deleted has a default, or is in a table that has one and is deleted. -/
structure Spared (deleted : PolicyKey → Bool) : Prop where
  tools : ∀ name, deleted (.tools name) = true → name = "http" ∨ name = "kv"
  http : deleted (.tools "http") = true ∨ ∀ name, deleted (.http name) = false
  kv : deleted (.tools "kv") = true ∨ ∀ name, deleted (.kv name) = false

variable {gone deleted : PolicyKey → Bool}

theorem defaulting_of_keyless (config : ToolsConfig) {found : Option Toml} (hdeleted : Deletes gone found deleted)
    (hfound : ∀ name, found.bind (get name) = none) : Spared deleted ∧ config.defaulting deleted = config := by
  have htools : ∀ name, deleted (.tools name) = false := by
    intro name
    rw [hdeleted.tools, hfound, Option.isSome_none, Bool.and_false]
  have hhttp : ∀ name, deleted (.http name) = false := fun name => by
    rw [hdeleted.http, hfound, Option.bind_none, Option.isSome_none, Bool.and_false]
  have hkv : ∀ name, deleted (.kv name) = false := fun name => by
    rw [hdeleted.kv, hfound, Option.bind_none, Option.isSome_none, Bool.and_false]
  refine ⟨⟨fun name h => absurd h (by rw [htools]; decide), Or.inr hhttp, Or.inr hkv⟩, ?_⟩
  unfold defaulting
  rw [htools, htools, htools, funext hhttp, funext hkv]
  rfl

variable {config : ToolsConfig}

theorem spared_iff (hfields : fields ["enabled", "http", "kv"] (table entries) = some entries)
    (hdeleted : Deletes gone (some (table entries)) deleted) :
    (∀ name, deleted (.tools name) = true → name = "http" ∨ name = "kv") ↔ deleted (.tools "enabled") = false := by
  constructor
  · intro h
    by_contra hgone
    rcases h "enabled" (Bool.not_eq_false _ ▸ hgone) with h | h <;> exact absurd h (by decide)
  · intro henabled name hgone
    have hpresent : ((table entries).get name).isSome := by
      rw [hdeleted.tools, Bool.and_eq_true] at hgone
      exact hgone.2
    rcases get_isSome hfields hpresent with rfl | hname
    · rw [henabled] at hgone
      cases hgone
    · exact hname

theorem get_without_http (gone : PolicyKey → Bool) (doc : Toml) : (without gone doc).get "http" =
    if gone (.tools "http") then none else (doc.get "http").map (.without fun name => gone (.http name)) := by
  rw [get_without, Option.map_map]
  rfl

theorem get_without_kv (gone : PolicyKey → Bool) (doc : Toml) : (without gone doc).get "kv" =
    if gone (.tools "kv") then none else (doc.get "kv").map (.without fun name => gone (.kv name)) := by
  rw [get_without, Option.map_map]
  rfl

theorem enabled_iff (henabled : ((table entries).get "enabled").bind texts = some config.enabled)
    (hdeleted : Deletes gone (some (table entries)) deleted) :
    ((without gone (table entries)).get "enabled").bind texts = some (config.defaulting deleted).enabled ↔
      deleted (.tools "enabled") = false := by
  obtain ⟨value, hvalue, htexts⟩ := Option.bind_eq_some_iff.mp henabled
  have hgone : deleted (.tools "enabled") = gone (.tools "enabled") := by
    rw [hdeleted.tools, Option.bind_some, hvalue, Option.isSome_some, Bool.and_true]
  rw [get_without, hgone, hvalue, defaulting, hgone]
  cases gone (.tools "enabled") with
  | true => exact iff_of_false nofun nofun
  | false => exact iff_of_true htexts rfl

theorem defaulting_table_iff (h : ofToml (table entries) = some config)
    (hdeleted : Deletes gone (some (table entries)) deleted) :
    ofToml (without gone (table entries)) = some (config.defaulting deleted) ↔ Spared deleted := by
  obtain ⟨hfields, henabled, hhttp, hkv⟩ := ofToml_table_iff.mp h
  obtain ⟨rest, hrest, hrestFields⟩ := without_table gone hfields
  have hhttpIff := HttpToolConfig.strict.defaulting_section_iff HttpToolConfig.defaulting_none hhttp hdeleted.http
    (gone (.tools "http"))
  have hkvIff := KvToolConfig.strict.defaulting_section_iff KvToolConfig.defaulting_none hkv hdeleted.kv
    (gone (.tools "kv"))
  have hhttpDeleted := hdeleted.tools "http"
  have hkvDeleted := hdeleted.tools "kv"
  rw [Option.bind_some] at hhttpDeleted hkvDeleted
  rw [← hhttpDeleted, ← get_without_http] at hhttpIff
  rw [← hkvDeleted, ← get_without_kv] at hkvIff
  rw [hrest, ofToml_table_iff, ← hrest, and_iff_right (hrest ▸ hrestFields), enabled_iff henabled hdeleted,
    ← spared_iff hfields hdeleted]
  constructor
  · rintro ⟨htools, hhttpRest, hkvRest⟩
    exact ⟨htools, hhttpIff.mp hhttpRest, hkvIff.mp hkvRest⟩
  · rintro ⟨htools, hhttpSpared, hkvSpared⟩
    exact ⟨htools, hhttpIff.mpr hhttpSpared, hkvIff.mpr hkvSpared⟩

/-- What the tools section is decoded to after a deletion. -/
theorem defaulting_iff {found : Option Toml} (h : found.elim (some .default) ofToml = some config)
    (hdeleted : Deletes gone found deleted) :
    (found.map (without gone)).elim (some .default) ofToml = some (config.defaulting deleted) ↔ Spared deleted := by
  cases found with
  | none =>
      obtain ⟨hspared, hself⟩ := defaulting_of_keyless config hdeleted fun _ => rfl
      rw [hself]
      exact iff_of_true h hspared
  | some doc =>
      cases doc with
      | table entries => exact defaulting_table_iff h hdeleted
      | _ =>
          obtain ⟨hspared, hself⟩ := defaulting_of_keyless config hdeleted fun _ => rfl
          rw [hself]
          exact iff_of_true h hspared

end ToolsConfig

/-! ### Policies -/

namespace Policy

variable {policy : Policy} {gone : PolicyKey → Bool}

theorem get_without (gone : PolicyKey → Bool) (doc : Toml) (name : String) :
    (without gone doc).get name = (((doc.get name).map fun value =>
      if name = "limits" then value.without fun key => gone (.limits key) else value).map fun value =>
        if name = "llm" then value.without fun key => gone (.llm key) else value).map fun value =>
          if name = "tools" then ToolsConfig.without gone value else value := by
  rw [without, get_adjust, get_adjust, get_adjust]

theorem get_without_limits (gone : PolicyKey → Bool) (doc : Toml) :
    (without gone doc).get "limits" = (doc.get "limits").map (.without fun name => gone (.limits name)) := by
  rw [get_without, Option.map_map, Option.map_map]
  rfl

theorem get_without_llm (gone : PolicyKey → Bool) (doc : Toml) :
    (without gone doc).get "llm" = (doc.get "llm").map (.without fun name => gone (.llm name)) := by
  rw [get_without, Option.map_map, Option.map_map]
  rfl

theorem get_without_tools (gone : PolicyKey → Bool) (doc : Toml) :
    (without gone doc).get "tools" = (doc.get "tools").map (ToolsConfig.without gone) := by
  rw [get_without, Option.map_map, Option.map_map]
  rfl

theorem ofToml_table_iff :
    ofToml (table entries) = some policy ↔ fields ["limits", "llm", "tools"] (table entries) = some entries ∧
      ((table entries).get "limits").elim (some .default) Limits.ofToml = some policy.limits ∧
      ((table entries).get "llm").elim (some .default) LlmConfig.ofToml = some policy.llm ∧
      ((table entries).get "tools").elim (some .default) ToolsConfig.ofToml = some policy.tools := by
  simp only [ofToml, Option.bind_eq_bind, Option.bind_eq_some_iff, pure, Option.some.injEq]
  constructor
  · rintro ⟨known, hfields, limits, hlimits, llm, hllm, tools, htools, rfl⟩
    cases fields_table hfields
    exact ⟨hfields, hlimits, hllm, htools⟩
  · rintro ⟨hfields, hlimits, hllm, htools⟩
    exact ⟨entries, hfields, _, hlimits, _, hllm, _, htools, rfl⟩

theorem without_table (gone : PolicyKey → Bool)
    (hfields : fields ["limits", "llm", "tools"] (table entries) = some entries) :
    ∃ rest, without gone (table entries) = table rest ∧ fields ["limits", "llm", "tools"] (table rest) = some rest := by
  obtain ⟨first, hfirst, hfieldsFirst⟩ := fields_adjust "limits" (Toml.without fun name => gone (.limits name)) hfields
  obtain ⟨second, hsecond, hfieldsSecond⟩ :=
    fields_adjust "llm" (Toml.without fun name => gone (.llm name)) hfieldsFirst
  obtain ⟨rest, hrest, hfieldsRest⟩ := fields_adjust "tools" (ToolsConfig.without gone) hfieldsSecond
  exact ⟨rest, by rw [without, hfirst, hsecond, hrest], hfieldsRest⟩

theorem deletes (doc : Toml) (gone : PolicyKey → Bool) :
    ToolsConfig.Deletes gone (doc.get "tools") (Deleted doc gone) where
  tools name := by rw [Deleted, PolicyKey.path, locate_two]
  http name := by rw [Deleted, PolicyKey.path, locate_three]
  kv name := by rw [Deleted, PolicyKey.path, locate_three]

/-- What a deletion may take is what the sections may lose. -/
theorem optional_iff {deleted : PolicyKey → Bool} : (∀ key, deleted key = true → key.Optional deleted) ↔
    (∀ name, deleted (.limits name) = false) ∧ (∀ name, deleted (.llm name) = false) ∧ ToolsConfig.Spared deleted := by
  have hor : ∀ {whole : Bool} {part : String → Bool}, (∀ name, part name = true → whole = true) ↔
      whole = true ∨ ∀ name, part name = false := by
    intro whole part
    cases whole with
    | true => exact iff_of_true (fun _ _ => rfl) (Or.inl rfl)
    | false => simp
  constructor
  · intro h
    refine ⟨fun name => ?_, fun name => ?_, fun name => h (.tools name), ?_, ?_⟩
    · exact Bool.eq_false_of_not_eq_true fun hgone => h _ hgone
    · exact Bool.eq_false_of_not_eq_true fun hgone => h _ hgone
    · exact hor.mp fun name => h (.http name)
    · exact hor.mp fun name => h (.kv name)
  · rintro ⟨hlimits, hllm, htools, hhttp, hkv⟩ key hgone
    cases key with
    | limits name => exact absurd (hlimits name) (by rw [hgone]; decide)
    | llm name => exact absurd (hllm name) (by rw [hgone]; decide)
    | tools name => exact htools name hgone
    | http name => exact hor.mpr hhttp name hgone
    | kv name => exact hor.mpr hkv name hgone

theorem omissionsDefaulted_table_iff (h : ofToml (table entries) = some policy) :
    OmissionsDefaulted (table entries) policy gone ↔
      ∀ key, Deleted (table entries) gone key = true → key.Optional (Deleted (table entries) gone) := by
  obtain ⟨hfields, hlimits, hllm, htools⟩ := ofToml_table_iff.mp h
  obtain ⟨rest, hrest, hrestFields⟩ := without_table gone hfields
  have hlimitsIff := Limits.strict.defaulting_iff Limits.defaulting_none hlimits
    fun name => congrArg (fun found : Option Toml => gone (.limits name) && found.isSome)
      (locate_two (table entries) "limits" name)
  have hllmIff := LlmConfig.strict.defaulting_iff LlmConfig.defaulting_none hllm
    fun name => congrArg (fun found : Option Toml => gone (.llm name) && found.isSome)
      (locate_two (table entries) "llm" name)
  have htoolsIff := ToolsConfig.defaulting_iff htools (deletes (table entries) gone)
  rw [← get_without_limits] at hlimitsIff
  rw [← get_without_llm] at hllmIff
  rw [← get_without_tools] at htoolsIff
  rw [OmissionsDefaulted, hrest, ofToml_table_iff, ← hrest, and_iff_right (hrest ▸ hrestFields), optional_iff]
  exact and_congr hlimitsIff (and_congr hllmIff htoolsIff)

/-- A document that is no table has no key to lose. -/
theorem omissionsDefaulted_iff {doc : Toml} (h : ofToml doc = some policy) :
    OmissionsDefaulted doc policy gone ↔ ∀ key, Deleted doc gone key = true → key.Optional (Deleted doc gone) := by
  cases doc with
  | table entries => exact omissionsDefaulted_table_iff h
  | array items =>
      have hkeyless : Deleted (.array items) gone = fun _ => false := by
        funext key
        rw [Deleted]
        cases key <;> simp [PolicyKey.path, locate, Toml.get]
      refine iff_of_true ?_ fun key hdeleted => ?_
      · rw [OmissionsDefaulted, hkeyless]
        exact h
      · rw [hkeyless] at hdeleted
        cases hdeleted
  | _ => cases h

end Policy

/-- Of a policy that is loaded, these are exactly the keys that may be left out. -/
theorem policy_omissions_defaulted_iff {platform : Platform} {reader : PolicyReader} {path text : String} {doc : Toml}
    {policy : Policy} (hread : reader.readToString path = .ok text) (hparse : reader.parse text = .ok doc)
    (hload : Policy.load platform reader path = .ok policy) (gone : PolicyKey → Bool) :
    OmissionsDefaulted doc policy gone ↔
      ∀ key, Deleted doc gone key = true → key.Optional (Deleted doc gone) := by
  obtain ⟨read, parsed, hreadAs, hparsedAs, hdecode, _⟩ := Policy.load_eq_ok_iff.mp hload
  obtain rfl : text = read := Except.ok.inj (hread.symm.trans hreadAs)
  obtain rfl : doc = parsed := Except.ok.inj (hparse.symm.trans hparsedAs)
  exact Policy.omissionsDefaulted_iff hdecode

/-- The shipped policy, less its comments. -/
def shippedText : String :=
  "[limits]\nfuel = 1_000_000_000\nwall_clock_ms = 180_000\nmemory_bytes = 67_108_864\ntable_elements = 10_000\n" ++
    "max_steps = 8\nmax_request_bytes = 4_194_304\n\n[llm]\nprovider = \"anthropic\"\nmodel = \"claude-opus-5\"\n" ++
    "max_tokens = 8192\neffort = \"high\"\nthinking = \"adaptive\"\nsummarize_thinking = false\n" ++
    "base_url = \"https://api.anthropic.com\"\napi_version = \"2023-06-01\"\napi_key_env = \"ANTHROPIC_API_KEY\"\n" ++
    "request_timeout_ms = 600_000\nmax_retries = 2\nserver_side_fallback = true\n\n" ++
    "[tools]\nenabled = [\"now\", \"kv_get\", \"kv_put\"]\n\n" ++
    "[tools.http]\nallowed_hosts = []\nmax_response_bytes = 65_536\ntimeout_ms = 15_000\n\n" ++
    "[tools.kv]\nmax_keys = 128\nmax_value_bytes = 16_384\n"

def shippedDocument : Toml :=
  table [
    ("limits", table [("fuel", integer 1000000000), ("wall_clock_ms", integer 180000),
      ("memory_bytes", integer 67108864), ("table_elements", integer 10000), ("max_steps", integer 8),
      ("max_request_bytes", integer 4194304)]),
    ("llm", table [("provider", string "anthropic"), ("model", string "claude-opus-5"), ("max_tokens", integer 8192),
      ("effort", string "high"), ("thinking", string "adaptive"), ("summarize_thinking", boolean false),
      ("base_url", string "https://api.anthropic.com"), ("api_version", string "2023-06-01"),
      ("api_key_env", string "ANTHROPIC_API_KEY"), ("request_timeout_ms", integer 600000), ("max_retries", integer 2),
      ("server_side_fallback", boolean true)]),
    ("tools", table [("enabled", array [string "now", string "kv_get", string "kv_put"]),
      ("http", table [("allowed_hosts", array []), ("max_response_bytes", integer 65536), ("timeout_ms", integer 15000)]),
      ("kv", table [("max_keys", integer 128), ("max_value_bytes", integer 16384)])])]

def shippedReader : PolicyReader where
  readToString path := if path = "policy/default.toml" then .ok shippedText else .error "No such file or directory"
  parse text := if text = shippedText then .ok shippedDocument else .error "TOML parse error"
  refusal _ := "TOML parse error"

def shippedPolicy : Policy where
  limits := { Limits.default with wallClockMs := 180000 }
  llm := .default
  tools := .default

theorem shippedReader_reads : shippedReader.readToString "policy/default.toml" = .ok shippedText := by
  simp [shippedReader]

theorem shippedReader_parses : shippedReader.parse shippedText = .ok shippedDocument := by
  simp [shippedReader]

theorem shippedReader_loads : Policy.load stillPlatform shippedReader "policy/default.toml" = .ok shippedPolicy := by
  apply Policy.load_eq_ok_iff.mpr
  refine ⟨shippedText, shippedDocument, shippedReader_reads, shippedReader_parses, rfl, ?_⟩
  have hvalid : shippedPolicy.validate stillPlatform = .ok () := rfl
  exact Policy.validate_eq_ok_iff.mp hvalid

/-- The table of the scratchpad and all its keys. -/
def scratchpadLeaves : PolicyKey → Bool
  | .tools name => name = "kv"
  | .kv _ => true
  | _ => false

theorem policy_omissions_defaulted_scratchpad : OmissionsDefaulted shippedDocument shippedPolicy scratchpadLeaves := by
  apply (policy_omissions_defaulted_iff shippedReader_reads shippedReader_parses shippedReader_loads _).mpr
  intro key hkey
  have hgone : scratchpadLeaves key = true := by
    rw [Deleted, Bool.and_eq_true] at hkey
    exact hkey.1
  cases key with
  | tools name => exact Or.inr (of_decide_eq_true hgone)
  | kv name => exact rfl
  | _ => cases hgone

/-- What the sample of the README leaves out of the shipped policy. -/
def readmeLeaves : PolicyKey → Bool
  | .llm name => name ∈ ["base_url", "api_version", "request_timeout_ms", "max_retries"]
  | .http name => name = "timeout_ms"
  | .tools name => name = "kv"
  | _ => false

def readmeDocument : Toml :=
  table [
    ("limits", table [("fuel", integer 1000000000), ("wall_clock_ms", integer 180000),
      ("memory_bytes", integer 67108864), ("table_elements", integer 10000), ("max_steps", integer 8),
      ("max_request_bytes", integer 4194304)]),
    ("llm", table [("provider", string "anthropic"), ("model", string "claude-opus-5"), ("max_tokens", integer 8192),
      ("effort", string "high"), ("thinking", string "adaptive"), ("summarize_thinking", boolean false),
      ("api_key_env", string "ANTHROPIC_API_KEY"), ("server_side_fallback", boolean true)]),
    ("tools", table [("enabled", array [string "now", string "kv_get", string "kv_put"]),
      ("http", table [("allowed_hosts", array []), ("max_response_bytes", integer 65536)])])]

theorem readme_policy_refused : Policy.load stillPlatform shippedReader "policy/default.toml" = .ok shippedPolicy ∧
    Policy.without readmeLeaves shippedDocument = readmeDocument ∧ Policy.ofToml readmeDocument = none ∧
    ¬ OmissionsDefaulted shippedDocument shippedPolicy readmeLeaves := by
  have hleft : Policy.without readmeLeaves shippedDocument = readmeDocument := rfl
  have hdecode : Policy.ofToml readmeDocument = none := rfl
  refine ⟨shippedReader_loads, hleft, hdecode, ?_⟩
  rw [OmissionsDefaulted, hleft, hdecode]
  exact nofun

end TdsWasm
