import TdsWasm.HostPolicyLoad
import TdsWasm.SecurityToolSurface
import TdsWasm.SecurityPending

/-! Which policy files are loaded, and what the loaded effort becomes. The documented grammar is a schema of
the tables; a document of that grammar decodes without a gap unless it gives an effort whose name the decoder
spells otherwise, and what it decodes to is valid exactly when the document keeps to the documented bounds. -/

set_option autoImplicit false

namespace TdsWasm

open Toml (Natural Word IsText IsFlag AreTexts Table Described)

/-! ### The documented grammar -/

def Limits.schema : Toml.Schema where
  keys := [⟨"fuel", Natural (2 ^ 64), false⟩, ⟨"wall_clock_ms", Natural (2 ^ 64), false⟩,
    ⟨"memory_bytes", Natural (2 ^ 64), false⟩, ⟨"table_elements", Natural (2 ^ 64), false⟩,
    ⟨"max_steps", Natural (2 ^ 32), false⟩, ⟨"max_request_bytes", Natural (2 ^ 64), false⟩]
  nodup := by decide

def Provider.kind : Toml → Prop := Word ["anthropic", "mock"]

def Effort.kind : Toml → Prop := Word ["low", "medium", "high", "xhigh", "max"]

def Thinking.kind : Toml → Prop := Word ["adaptive", "disabled"]

def LlmConfig.schema : Toml.Schema where
  keys := [⟨"provider", Provider.kind, false⟩, ⟨"model", IsText, false⟩,
    ⟨"max_tokens", Natural (2 ^ 32), false⟩, ⟨"effort", Effort.kind, false⟩,
    ⟨"thinking", Thinking.kind, false⟩, ⟨"summarize_thinking", IsFlag, false⟩,
    ⟨"base_url", IsText, false⟩, ⟨"api_version", IsText, false⟩, ⟨"api_key_env", IsText, false⟩,
    ⟨"request_timeout_ms", Natural (2 ^ 64), false⟩, ⟨"max_retries", Natural (2 ^ 32), false⟩,
    ⟨"server_side_fallback", IsFlag, false⟩]
  nodup := by decide

def HttpToolConfig.schema : Toml.Schema where
  keys := [⟨"allowed_hosts", AreTexts, false⟩, ⟨"max_response_bytes", Natural (2 ^ 64), false⟩,
    ⟨"timeout_ms", Natural (2 ^ 64), false⟩]
  nodup := by decide

def KvToolConfig.schema : Toml.Schema where
  keys := [⟨"max_keys", Natural (2 ^ 64), false⟩, ⟨"max_value_bytes", Natural (2 ^ 64), false⟩]
  nodup := by decide

def ToolsConfig.schema : Toml.Schema where
  keys := [⟨"enabled", AreTexts, false⟩, ⟨"http", Table HttpToolConfig.schema, true⟩,
    ⟨"kv", Table KvToolConfig.schema, true⟩]
  nodup := by decide

def Policy.schema : Toml.Schema where
  keys := [⟨"limits", Table Limits.schema, true⟩, ⟨"llm", Table LlmConfig.schema, true⟩,
    ⟨"tools", Table ToolsConfig.schema, true⟩]
  nodup := by decide

/-- A policy document: it gives all keys of the tables that it contains, with documented values. -/
def Documented : Toml → Prop := Table Policy.schema

/-- What the documentation asks of the values of a policy document. -/
structure Acceptable (doc : Toml) : Prop where
  fuel : doc.AtLeast 1 ["limits", "fuel"]
  wallClockMs : doc.AtLeast 1 ["limits", "wall_clock_ms"]
  maxSteps : doc.AtLeast 1 ["limits", "max_steps"]
  memoryBytes : doc.AtLeast (2 ^ 20) ["limits", "memory_bytes"]
  thinking : ¬ (doc.locate ["llm", "thinking"] = some (.string "disabled") ∧
    (doc.locate ["llm", "effort"] = some (.string "xhigh") ∨ doc.locate ["llm", "effort"] = some (.string "max")))
  enabled : ∀ items, doc.locate ["tools", "enabled"] = some (.array items) → ∀ name, .string name ∈ items →
    isKnownTool name = true

/-- The effort that is sent under a policy is the string that the document gives. -/
def HonoursEffort (doc : Toml) (policy : Policy) : Prop :=
  ∀ effort, doc.locate ["llm", "effort"] = some (.string effort) → ∀ provider : AnthropicProvider,
    provider.config = policy.llm → ∀ request,
      (provider.body request).get "output_config" = some (.obj [("effort", .str effort)])

/-! ### What a documented table decodes to -/

open Toml

variable {entries : List (String × Toml)}

theorem Limits.decodes : Decodes (Table schema) ofToml := by
  rintro _ ⟨entries, rfl, h⟩
  obtain ⟨fuel, hfuel⟩ := h.required "fuel" decodes_u64 (by simp [schema])
  obtain ⟨clock, hclock⟩ := h.required "wall_clock_ms" decodes_u64 (by simp [schema])
  obtain ⟨memory, hmemory⟩ := h.required "memory_bytes" decodes_usize (by simp [schema])
  obtain ⟨elements, helements⟩ := h.required "table_elements" decodes_usize (by simp [schema])
  obtain ⟨steps, hsteps⟩ := h.required "max_steps" decodes_u32 (by simp [schema])
  obtain ⟨request, hrequest⟩ := h.required "max_request_bytes" decodes_usize (by simp [schema])
  have hfields := h.fields
  simp only [schema, List.map_cons, List.map_nil] at hfields
  refine ⟨⟨fuel, clock, memory, elements, steps, request⟩, ?_⟩
  simp only [ofToml, hfields, hfuel, hclock, hmemory, helements, hsteps, hrequest, Option.bind_eq_bind,
    Option.bind_some]
  rfl

theorem Limits.required_of_ofToml {limits : Limits} (h : ofToml (table entries) = some limits) :
    required "fuel" u64 entries = some limits.fuel ∧
      required "wall_clock_ms" u64 entries = some limits.wallClockMs ∧
      required "memory_bytes" usize entries = some limits.memoryBytes ∧
      required "max_steps" u32 entries = some limits.maxSteps := by
  simp only [ofToml, Option.bind_eq_bind, Option.bind_eq_some_iff, pure, Option.some.injEq] at h
  obtain ⟨known, hfields, fuel, hfuel, clock, hclock, memory, hmemory, _, _, steps, hsteps, _, _, rfl⟩ := h
  cases fields_table hfields
  exact ⟨hfuel, hclock, hmemory, hsteps⟩

theorem Provider.decodes : Decodes kind (variant variants) := by
  rintro _ ⟨word, hword, rfl⟩
  simp only [List.mem_cons, List.not_mem_nil, or_false] at hword
  rcases hword with rfl | rfl <;> exact ⟨_, rfl⟩

/-- Of the documented efforts, all but one decode, each to the effort of that name. -/
theorem Effort.variant_word {doc : Toml} (h : kind doc) (effort : Effort) :
    variant variants doc = some effort ↔ doc = string effort.asStr ∧ doc ≠ string "xhigh" := by
  obtain ⟨word, hword, rfl⟩ := h
  have hnames : variant variants (string word) = [("low", low), ("medium", medium), ("high", high),
      ("x_high", xHigh), ("max", max)].lookup word := rfl
  rw [hnames]
  simp only [List.mem_cons, List.not_mem_nil, or_false] at hword
  rcases hword with rfl | rfl | rfl | rfl | rfl <;> cases effort <;> simp [asStr, List.lookup_cons]

theorem Effort.decodes {doc : Toml} (h : kind doc)
    (hother : doc ≠ string "xhigh") : ∃ effort, variant variants doc = some effort := by
  obtain ⟨word, hword, rfl⟩ := h
  simp only [List.mem_cons, List.not_mem_nil, or_false] at hword
  rcases hword with rfl | rfl | rfl | rfl | rfl
  · exact ⟨low, rfl⟩
  · exact ⟨medium, rfl⟩
  · exact ⟨high, rfl⟩
  · exact absurd rfl hother
  · exact ⟨max, rfl⟩

/-- The documented kinds of thinking decode, each to its own. -/
theorem Thinking.variant_word {doc : Toml} (h : kind doc) :
    ∃ thinking, variant variants doc = some thinking ∧ (thinking = disabled ↔ doc = string "disabled") := by
  obtain ⟨word, hword, rfl⟩ := h
  simp only [List.mem_cons, List.not_mem_nil, or_false] at hword
  rcases hword with rfl | rfl
  · exact ⟨adaptive, rfl, by simp⟩
  · exact ⟨disabled, rfl, by simp⟩

theorem Thinking.decodes : Decodes kind (variant variants) := by
  intro value h
  obtain ⟨thinking, hthinking, _⟩ := variant_word h
  exact ⟨thinking, hthinking⟩

theorem LlmConfig.ofToml_described (h : Described schema entries)
    (heffort : OrderedMap.find "effort" entries ≠ some (string "xhigh")) :
    ∃ config, ofToml (table entries) = some config := by
  obtain ⟨provider, hprovider⟩ := h.required "provider" Provider.decodes (by simp [schema])
  obtain ⟨model, hmodel⟩ := h.required "model" decodes_text (by simp [schema])
  obtain ⟨tokens, htokens⟩ := h.required "max_tokens" decodes_u32 (by simp [schema])
  obtain ⟨word, hfind, hword⟩ : ∃ word, OrderedMap.find "effort" entries = some word ∧ Effort.kind word :=
    h.find_required "effort" (by simp [schema])
  obtain ⟨thinking, hthinking⟩ := h.required "thinking" Thinking.decodes (by simp [schema])
  obtain ⟨summarize, hsummarize⟩ := h.required "summarize_thinking" decodes_flag (by simp [schema])
  obtain ⟨url, hurl⟩ := h.required "base_url" decodes_text (by simp [schema])
  obtain ⟨api, hapi⟩ := h.required "api_version" decodes_text (by simp [schema])
  obtain ⟨key, hkey⟩ := h.required "api_key_env" decodes_text (by simp [schema])
  obtain ⟨timeout, htimeout⟩ := h.required "request_timeout_ms" decodes_u64 (by simp [schema])
  obtain ⟨retries, hretries⟩ := h.required "max_retries" decodes_u32 (by simp [schema])
  obtain ⟨fallback, hfallback⟩ := h.required "server_side_fallback" decodes_flag (by simp [schema])
  obtain ⟨effort, hdecode⟩ := Effort.decodes hword fun heq => heffort (heq ▸ hfind)
  have hfields := h.fields
  simp only [schema, List.map_cons, List.map_nil] at hfields
  have heffort : required "effort" (variant Effort.variants) entries = some effort := by
    rw [required, hfind, Option.bind_some, hdecode]
  refine ⟨⟨provider, model, tokens, effort, thinking, summarize, url, api, key, timeout, retries, fallback⟩, ?_⟩
  unfold ofToml
  refine Option.bind_eq_some_iff.mpr ⟨entries, hfields, ?_⟩
  refine Option.bind_eq_some_iff.mpr ⟨provider, hprovider, Option.bind_eq_some_iff.mpr ⟨model, hmodel, ?_⟩⟩
  refine Option.bind_eq_some_iff.mpr ⟨tokens, htokens, Option.bind_eq_some_iff.mpr ⟨effort, heffort, ?_⟩⟩
  refine Option.bind_eq_some_iff.mpr ⟨thinking, hthinking, Option.bind_eq_some_iff.mpr ⟨summarize, hsummarize, ?_⟩⟩
  refine Option.bind_eq_some_iff.mpr ⟨url, hurl, Option.bind_eq_some_iff.mpr ⟨api, hapi, ?_⟩⟩
  refine Option.bind_eq_some_iff.mpr ⟨key, hkey, Option.bind_eq_some_iff.mpr ⟨timeout, htimeout, ?_⟩⟩
  exact Option.bind_eq_some_iff.mpr ⟨retries, hretries, Option.bind_eq_some_iff.mpr ⟨fallback, hfallback, rfl⟩⟩

theorem LlmConfig.required_of_ofToml {config : LlmConfig} (h : ofToml (table entries) = some config) :
    required "effort" (variant Effort.variants) entries = some config.effort ∧
      required "thinking" (variant Thinking.variants) entries = some config.thinking := by
  obtain ⟨known, hfields, h⟩ := Option.bind_eq_some_iff.mp h
  obtain ⟨_, _, h⟩ := Option.bind_eq_some_iff.mp h
  obtain ⟨_, _, h⟩ := Option.bind_eq_some_iff.mp h
  obtain ⟨_, _, h⟩ := Option.bind_eq_some_iff.mp h
  obtain ⟨effort, heffort, h⟩ := Option.bind_eq_some_iff.mp h
  obtain ⟨thinking, hthinking, h⟩ := Option.bind_eq_some_iff.mp h
  simp only [Option.bind_eq_bind, Option.bind_eq_some_iff] at h
  obtain ⟨_, _, _, _, _, _, _, _, _, _, _, _, _, _, ⟨⟩⟩ := h
  cases fields_table hfields
  exact ⟨heffort, hthinking⟩

theorem LlmConfig.effort_mem_schema : ⟨"effort", Effort.kind, false⟩ ∈ schema.keys := by simp [schema]

theorem LlmConfig.thinking_mem_schema : ⟨"thinking", Thinking.kind, false⟩ ∈ schema.keys := by simp [schema]

theorem HttpToolConfig.decodes : Decodes (Table schema) ofToml := by
  rintro _ ⟨entries, rfl, h⟩
  obtain ⟨hosts, hhosts⟩ := h.required "allowed_hosts" decodes_texts (by simp [schema])
  obtain ⟨bytes, hbytes⟩ := h.required "max_response_bytes" decodes_usize (by simp [schema])
  obtain ⟨timeout, htimeout⟩ := h.required "timeout_ms" decodes_u64 (by simp [schema])
  have hfields := h.fields
  simp only [schema, List.map_cons, List.map_nil] at hfields
  refine ⟨⟨hosts, bytes, timeout⟩, ?_⟩
  simp only [ofToml, hfields, hhosts, hbytes, htimeout, Option.bind_eq_bind, Option.bind_some]
  rfl

theorem KvToolConfig.decodes : Decodes (Table schema) ofToml := by
  rintro _ ⟨entries, rfl, h⟩
  obtain ⟨keys, hkeys⟩ := h.required "max_keys" decodes_usize (by simp [schema])
  obtain ⟨bytes, hbytes⟩ := h.required "max_value_bytes" decodes_usize (by simp [schema])
  have hfields := h.fields
  simp only [schema, List.map_cons, List.map_nil] at hfields
  refine ⟨⟨keys, bytes⟩, ?_⟩
  simp only [ofToml, hfields, hkeys, hbytes, Option.bind_eq_bind, Option.bind_some]
  rfl

theorem ToolsConfig.decodes : Decodes (Table schema) ofToml := by
  rintro _ ⟨entries, rfl, h⟩
  obtain ⟨enabled, henabled⟩ := h.required "enabled" decodes_texts (by simp [schema])
  obtain ⟨http, hhttp⟩ := h.defaulted "http" .default (by simp [schema]) fun value _ => HttpToolConfig.decodes value
  obtain ⟨kv, hkv⟩ := h.defaulted "kv" .default (by simp [schema]) fun value _ => KvToolConfig.decodes value
  have hfields := h.fields
  simp only [schema, List.map_cons, List.map_nil] at hfields
  refine ⟨⟨enabled, http, kv⟩, ?_⟩
  simp only [ofToml, hfields, henabled, hhttp, hkv, Option.bind_eq_bind, Option.bind_some]
  rfl

theorem ToolsConfig.required_of_ofToml {config : ToolsConfig} (h : ofToml (table entries) = some config) :
    required "enabled" texts entries = some config.enabled := by
  simp only [ofToml, Option.bind_eq_bind, Option.bind_eq_some_iff, pure, Option.some.injEq] at h
  obtain ⟨known, hfields, enabled, henabled, _, _, _, _, rfl⟩ := h
  cases fields_table hfields
  exact henabled

theorem ToolsConfig.enabled_mem_schema : ⟨"enabled", AreTexts, false⟩ ∈ schema.keys := by simp [schema]

/-! ### What a policy document decodes to -/

namespace Policy

theorem limits_mem_schema : ⟨"limits", Table Limits.schema, true⟩ ∈ schema.keys := by simp [schema]

theorem llm_mem_schema : ⟨"llm", Table LlmConfig.schema, true⟩ ∈ schema.keys := by simp [schema]

theorem tools_mem_schema : ⟨"tools", Table ToolsConfig.schema, true⟩ ∈ schema.keys := by simp [schema]

/-- A documented policy decodes, unless it gives the effort that is spelled otherwise. -/
theorem ofToml_described (h : Described schema entries)
    (heffort : (table entries).locate ["llm", "effort"] ≠ some (string "xhigh")) :
    ∃ policy, ofToml (table entries) = some policy := by
  obtain ⟨limits, hlimits⟩ := h.defaulted "limits" .default limits_mem_schema fun value _ => Limits.decodes value
  have hother : ∀ value, OrderedMap.find "llm" entries = some value → Table LlmConfig.schema value →
      ∃ config, LlmConfig.ofToml value = some config := by
    rintro _ hfind ⟨inner, rfl, hinner⟩
    apply LlmConfig.ofToml_described hinner
    rwa [locate_section, hfind] at heffort
  obtain ⟨llm, hllm⟩ := h.defaulted "llm" .default llm_mem_schema hother
  obtain ⟨tools, htools⟩ := h.defaulted "tools" .default tools_mem_schema fun value _ => ToolsConfig.decodes value
  have hfields := h.fields
  simp only [schema, List.map_cons, List.map_nil] at hfields
  refine ⟨⟨limits, llm, tools⟩, ?_⟩
  simp only [ofToml, hfields, hlimits, hllm, htools, Option.bind_eq_bind, Option.bind_some]
  rfl

theorem defaulted_of_ofToml {policy : Policy} (h : ofToml (table entries) = some policy) :
    defaulted "limits" .default Limits.ofToml entries = some policy.limits ∧
      defaulted "llm" .default LlmConfig.ofToml entries = some policy.llm ∧
      defaulted "tools" .default ToolsConfig.ofToml entries = some policy.tools := by
  simp only [ofToml, Option.bind_eq_bind, Option.bind_eq_some_iff, pure, Option.some.injEq] at h
  obtain ⟨known, hfields, limits, hlimits, llm, hllm, tools, htools, rfl⟩ := h
  cases fields_table hfields
  exact ⟨hlimits, hllm, htools⟩

variable {policy : Policy}

/-- The effort of a decoded policy is the document's, or the default where the document gives none. -/
theorem effort_of_ofToml (h : Described schema entries) (hpolicy : ofToml (table entries) = some policy) :
    ((table entries).locate ["llm", "effort"] = none ∧ policy.llm.effort = .high) ∨
      ((table entries).locate ["llm", "effort"] = some (string policy.llm.effort.asStr) ∧
        policy.llm.effort ≠ .xHigh) := by
  have hread := h.read llm_mem_schema LlmConfig.effort (fun h => (LlmConfig.required_of_ofToml h).1)
    (defaulted_of_ofToml hpolicy).2.1
  unfold Toml.read at hread
  cases hvalue : (table entries).locate ["llm", "effort"] with
  | none =>
      rw [hvalue] at hread
      exact Or.inl ⟨rfl, (Option.some.inj hread).symm⟩
  | some value =>
      rw [hvalue] at hread
      have hkind : Effort.kind value := h.admits_section llm_mem_schema LlmConfig.effort_mem_schema hvalue
      obtain ⟨hword, hother⟩ := (Effort.variant_word hkind policy.llm.effort).mp hread
      refine Or.inr ⟨congrArg some hword, fun hxhigh => hother ?_⟩
      rw [hword, hxhigh]
      rfl

theorem thinking_of_ofToml (h : Described schema entries) (hpolicy : ofToml (table entries) = some policy) :
    policy.llm.thinking = .disabled ↔
      (table entries).locate ["llm", "thinking"] = some (string "disabled") := by
  have hread := h.read llm_mem_schema LlmConfig.thinking (fun h => (LlmConfig.required_of_ofToml h).2)
    (defaulted_of_ofToml hpolicy).2.1
  unfold Toml.read at hread
  cases hvalue : (table entries).locate ["llm", "thinking"] with
  | none =>
      rw [hvalue] at hread
      rw [← Option.some.inj hread]
      exact iff_of_false (by decide) (by simp)
  | some value =>
      rw [hvalue] at hread
      have hkind : Thinking.kind value := h.admits_section llm_mem_schema LlmConfig.thinking_mem_schema hvalue
      obtain ⟨thinking, hdecode, hdisabled⟩ := Thinking.variant_word hkind
      have hthinking : thinking = policy.llm.thinking := Option.some.inj (hdecode.symm.trans hread)
      rw [← hthinking, hdisabled, Option.some.injEq]

/-- The tools of a decoded policy are known exactly when those that the document enables are. -/
theorem enabled_of_ofToml (h : Described schema entries) (hpolicy : ofToml (table entries) = some policy) :
    (∀ name ∈ policy.tools.enabled, isKnownTool name = true) ↔
      ∀ items, (table entries).locate ["tools", "enabled"] = some (array items) → ∀ name, string name ∈ items →
        isKnownTool name = true := by
  have hread := h.read tools_mem_schema ToolsConfig.enabled ToolsConfig.required_of_ofToml
    (defaulted_of_ofToml hpolicy).2.2
  unfold Toml.read at hread
  cases hvalue : (table entries).locate ["tools", "enabled"] with
  | none =>
      rw [hvalue] at hread
      rw [← Option.some.inj hread]
      exact iff_of_true (by decide) fun items hitems => by cases hitems
  | some value =>
      rw [hvalue] at hread
      obtain ⟨names, rfl⟩ : AreTexts value :=
        h.admits_section tools_mem_schema ToolsConfig.enabled_mem_schema hvalue
      have hnames : names = policy.tools.enabled := Option.some.inj ((texts_array names).symm.trans hread)
      rw [← hnames]
      constructor
      · rintro hknown _ ⟨⟩ name hmem
        obtain ⟨_, hname, ⟨⟩⟩ := List.mem_map.mp hmem
        exact hknown name hname
      · intro hknown name hname
        exact hknown _ rfl name (List.mem_map_of_mem hname)

/-- The efforts that need thinking are told apart in the document as in the policy. -/
theorem demanding_of_ofToml (h : Described schema entries) (hpolicy : ofToml (table entries) = some policy) :
    (policy.llm.effort = .xHigh ∨ policy.llm.effort = .max) ↔
      (table entries).locate ["llm", "effort"] = some (string "xhigh") ∨
        (table entries).locate ["llm", "effort"] = some (string "max") := by
  rcases effort_of_ofToml h hpolicy with ⟨hnone, hhigh⟩ | ⟨hword, _⟩
  · rw [hnone, hhigh]
    simp
  · rw [hword]
    cases policy.llm.effort <;> simp [Effort.asStr]

/-- A decoded policy is valid exactly when the document is acceptable. -/
theorem valid_iff_acceptable (h : Described schema entries) (hpolicy : ofToml (table entries) = some policy) :
    policy.Valid ↔ Acceptable (table entries) := by
  obtain ⟨hlimits, -, -⟩ := defaulted_of_ofToml hpolicy
  have hfuel : (table entries).AtLeast 1 ["limits", "fuel"] ↔ 1 ≤ policy.limits.fuel.toNat :=
    atLeast_iff integer_of_u64 (h.read limits_mem_schema Limits.fuel
      (fun h => (Limits.required_of_ofToml h).1) hlimits) (by decide)
  have hclock : (table entries).AtLeast 1 ["limits", "wall_clock_ms"] ↔ 1 ≤ policy.limits.wallClockMs.toNat :=
    atLeast_iff integer_of_u64 (h.read limits_mem_schema Limits.wallClockMs
      (fun h => (Limits.required_of_ofToml h).2.1) hlimits) (by decide)
  have hmemory : (table entries).AtLeast (2 ^ 20) ["limits", "memory_bytes"] ↔
      2 ^ 20 ≤ id policy.limits.memoryBytes :=
    atLeast_iff integer_of_usize (h.read limits_mem_schema Limits.memoryBytes
      (fun h => (Limits.required_of_ofToml h).2.2.1) hlimits) (by decide)
  have hsteps : (table entries).AtLeast 1 ["limits", "max_steps"] ↔ 1 ≤ policy.limits.maxSteps.toNat :=
    atLeast_iff integer_of_u32 (h.read limits_mem_schema Limits.maxSteps
      (fun h => (Limits.required_of_ofToml h).2.2.2) hlimits) (by decide)
  have hthinking := (thinking_of_ofToml h hpolicy).and (demanding_of_ofToml h hpolicy)
  have henabled := enabled_of_ofToml h hpolicy
  rw [Word.one_le_toNat64] at hfuel hclock
  rw [Word.one_le_toNat32] at hsteps
  constructor
  · intro hvalid
    exact ⟨hfuel.mpr hvalid.fuel, hclock.mpr hvalid.wallClockMs, hsteps.mpr hvalid.maxSteps,
      hmemory.mpr hvalid.memoryBytes, fun h => hvalid.thinking (hthinking.mpr h), henabled.mp hvalid.enabled⟩
  · intro haccepted
    exact ⟨hfuel.mp haccepted.fuel, hclock.mp haccepted.wallClockMs, hsteps.mp haccepted.maxSteps,
      hmemory.mp haccepted.memoryBytes, fun h => haccepted.thinking (hthinking.mp h),
      henabled.mpr haccepted.enabled⟩

/-- What decodes does not give the effort that is spelled otherwise, and is honoured. -/
theorem honoursEffort_of_ofToml (h : Described schema entries) (hpolicy : ofToml (table entries) = some policy) :
    (table entries).locate ["llm", "effort"] ≠ some (string "xhigh") ∧
      HonoursEffort (table entries) policy := by
  have heffort := effort_of_ofToml h hpolicy
  constructor
  · intro hxhigh
    rw [hxhigh] at heffort
    rcases heffort with ⟨⟨⟩, _⟩ | ⟨hword, hother⟩
    cases hcase : policy.llm.effort <;> rw [hcase] at hword hother
    all_goals simp [Effort.asStr] at hword hother
  · intro effort hgiven provider hconfig request
    rw [hgiven] at heffort
    rcases heffort with ⟨⟨⟩, _⟩ | ⟨hword, _⟩
    cases hword
    rw [provider.body_get, ← hconfig]
    simp [AnthropicProvider.bodyMembers, OrderedMap.find, Json.normalize, Json.normalizeMembers,
      OrderedMap.ofEntries, OrderedMap.insertEntry]

/-- A policy file is loaded exactly when its document is acceptable, and a loaded policy sends the effort that
the document gives. -/
def LoadedAsDocumented (platform : Platform) (reader : PolicyReader) (path : String) (doc : Toml) : Prop :=
  ((∃ policy, load platform reader path = .ok policy) ↔ Acceptable doc) ∧
    ∀ policy, load platform reader path = .ok policy → HonoursEffort doc policy

/-- The one documented effort that is spelled otherwise is what keeps a documented policy from being loaded. -/
theorem loadedAsDocumented_iff {platform : Platform} {reader : PolicyReader} {path text : String} {doc : Toml}
    (hread : reader.readToString path = .ok text) (hparse : reader.parse text = .ok doc) (hdoc : Documented doc) :
    LoadedAsDocumented platform reader path doc ↔
      ¬ (doc.locate ["llm", "effort"] = some (string "xhigh") ∧ Acceptable doc) := by
  obtain ⟨entries, rfl, h⟩ := hdoc
  have hload : ∀ policy, load platform reader path = .ok policy ↔
      ofToml (table entries) = some policy ∧ policy.Valid := by
    intro policy
    rw [load_eq_ok_iff]
    constructor
    · rintro ⟨_, _, hread', hparse', hresult⟩
      cases hread.symm.trans hread'
      cases hparse.symm.trans hparse'
      exact hresult
    · intro hresult
      exact ⟨text, table entries, hread, hparse, hresult⟩
  have honoured : ∀ policy, load platform reader path = .ok policy → HonoursEffort (table entries) policy :=
    fun policy hloaded => (honoursEffort_of_ofToml h ((hload policy).mp hloaded).1).2
  have haccepted : (∃ policy, load platform reader path = .ok policy) ↔
      (table entries).locate ["llm", "effort"] ≠ some (string "xhigh") ∧ Acceptable (table entries) := by
    constructor
    · rintro ⟨policy, hloaded⟩
      obtain ⟨hpolicy, hvalid⟩ := (hload policy).mp hloaded
      exact ⟨(honoursEffort_of_ofToml h hpolicy).1, (valid_iff_acceptable h hpolicy).mp hvalid⟩
    · rintro ⟨hother, haccepted⟩
      obtain ⟨policy, hpolicy⟩ := ofToml_described h hother
      exact ⟨policy, (hload policy).mpr ⟨hpolicy, (valid_iff_acceptable h hpolicy).mpr haccepted⟩⟩
  rw [LoadedAsDocumented, and_iff_left honoured, haccepted]
  tauto

end Policy

theorem policy_loaded_as_documented_iff {platform : Platform} {reader : PolicyReader} {path text : String}
    {doc : Toml} (hread : reader.readToString path = .ok text) (hparse : reader.parse text = .ok doc)
    (hdoc : Documented doc) :
    Policy.LoadedAsDocumented platform reader path doc ↔
      ¬ (doc.locate ["llm", "effort"] = some (.string "xhigh") ∧ Acceptable doc) :=
  Policy.loadedAsDocumented_iff hread hparse hdoc

/-- A policy file that has the model's table only, with this effort. -/
def llmText (effort : String) : String :=
  "[llm]\nprovider = \"anthropic\"\nmodel = \"claude-opus-5\"\nmax_tokens = 8192\neffort = \"" ++ effort ++
    "\"\nthinking = \"adaptive\"\nsummarize_thinking = false\nbase_url = \"https://api.anthropic.com\"\n" ++
    "api_version = \"2023-06-01\"\napi_key_env = \"ANTHROPIC_API_KEY\"\nrequest_timeout_ms = 600000\n" ++
    "max_retries = 2\nserver_side_fallback = true\n"

def llmDocument (effort : String) : Toml :=
  table [("llm", table [("provider", string "anthropic"), ("model", string "claude-opus-5"),
    ("max_tokens", integer 8192), ("effort", string effort), ("thinking", string "adaptive"),
    ("summarize_thinking", boolean false), ("base_url", string "https://api.anthropic.com"),
    ("api_version", string "2023-06-01"), ("api_key_env", string "ANTHROPIC_API_KEY"),
    ("request_timeout_ms", integer 600000), ("max_retries", integer 2), ("server_side_fallback", boolean true)])]

def llmReader (effort : String) : PolicyReader where
  readToString path := if path = "policy.toml" then .ok (llmText effort) else .error "No such file or directory"
  parse text := if text = llmText effort then .ok (llmDocument effort) else .error "TOML parse error"
  refusal _ := "TOML parse error"

theorem llmDocument_documented {effort : String} (h : effort ∈ ["low", "medium", "high", "xhigh", "max"]) :
    Documented (llmDocument effort) := by
  have htext : ∀ s, IsText (string s) := fun s => ⟨s, rfl⟩
  have hflag : ∀ b, IsFlag (boolean b) := fun b => ⟨b, rfl⟩
  have hllm : Table LlmConfig.schema ((llmDocument effort).get "llm" |>.getD (string "")) := by
    refine ⟨_, rfl, Described.of_forall₂ ?_⟩
    exact .cons ⟨rfl, "anthropic", by simp, rfl⟩ <| .cons ⟨rfl, htext _⟩ <|
      .cons ⟨rfl, _, rfl, by decide, by decide⟩ <| .cons ⟨rfl, effort, h, rfl⟩ <|
      .cons ⟨rfl, "adaptive", by simp, rfl⟩ <| .cons ⟨rfl, hflag _⟩ <| .cons ⟨rfl, htext _⟩ <|
      .cons ⟨rfl, htext _⟩ <| .cons ⟨rfl, htext _⟩ <| .cons ⟨rfl, _, rfl, by decide, by decide⟩ <|
      .cons ⟨rfl, _, rfl, by decide, by decide⟩ <| .cons ⟨rfl, hflag _⟩ .nil
  refine ⟨_, rfl, List.nodup_singleton _, ?_, ?_⟩
  · intro entry hentry
    cases List.mem_singleton.mp hentry
    exact ⟨_, Policy.llm_mem_schema, rfl, hllm⟩
  · intro key hkey hpresent
    simp only [Policy.schema, List.mem_cons, List.not_mem_nil, or_false] at hkey
    rcases hkey with rfl | rfl | rfl <;> cases hpresent

theorem llmReader_reads (effort : String) : (llmReader effort).readToString "policy.toml" = .ok (llmText effort) := by
  simp [llmReader]

theorem llmReader_parses (effort : String) : (llmReader effort).parse (llmText effort) = .ok (llmDocument effort) := by
  simp [llmReader]

theorem policy_loaded_as_documented_high :
    Policy.LoadedAsDocumented stillPlatform (llmReader "high") "policy.toml" (llmDocument "high") :=
  (policy_loaded_as_documented_iff (llmReader_reads "high") (llmReader_parses "high")
    (llmDocument_documented (by simp))).mpr fun h =>
      absurd h.1 (by simp [llmDocument, locate_section, OrderedMap.find, Toml.get])

theorem policy_xhigh_refused : Documented (llmDocument "xhigh") ∧ Acceptable (llmDocument "xhigh") ∧
    Policy.load stillPlatform (llmReader "xhigh") "policy.toml" =
      .error "parsing policy policy.toml: TOML parse error" := by
  have hdecode : Policy.ofToml (llmDocument "xhigh") = none := rfl
  have hload : Policy.load stillPlatform (llmReader "xhigh") "policy.toml" =
      .error "parsing policy policy.toml: TOML parse error" := by
    rw [Policy.load, llmReader_reads]
    simp only [withContext, Except.mapError, bind, Except.bind, PolicyReader.fromStr, llmReader_parses, hdecode]
    rfl
  have hnumber : ∀ bound key, (llmDocument "xhigh").AtLeast bound ["limits", key] := by
    rintro bound key i ⟨⟩
  refine ⟨llmDocument_documented (by simp), ⟨hnumber _ _, hnumber _ _, hnumber _ _, hnumber _ _, ?_, ?_⟩, hload⟩
  · rintro ⟨hdisabled, _⟩
    simp [llmDocument, locate_section, OrderedMap.find, Toml.get] at hdisabled
  · rintro items ⟨⟩

end TdsWasm
