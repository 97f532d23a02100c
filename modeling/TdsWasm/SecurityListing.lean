import TdsWasm.SecurityPending

/-! What the tool box lists and what it runs. A valid policy enables known tools only, every known tool is
described and run, and what a tool that runs may answer is never the refusal of a tool that does not. -/

set_option autoImplicit false

namespace TdsWasm

theorem isKnownTool_iff {name : String} : isKnownTool name = true ↔
    name = "now" ∨ name = "http_get" ∨ name = "kv_get" ∨ name = "kv_put" := by
  rw [isKnownTool, List.contains_iff_mem, knownTools]
  simp only [List.mem_cons, List.not_mem_nil, or_false]

theorem specFor_known {name : String} (hknown : isKnownTool name = true) :
    ∃ spec, specFor name = some spec ∧ spec.name = name := by
  rcases isKnownTool_iff.mp hknown with rfl | rfl | rfl | rfl <;> exact ⟨_, rfl, rfl⟩

namespace ToolBox

variable (platform : Platform)

/-- The specs are those of the enabled tools, in their order, with nothing dropped. -/
theorem specs_names {tools : ToolBox} (hknown : ∀ name ∈ tools.policy.tools.enabled, isKnownTool name = true) :
    tools.specs.map ToolSpec.name = tools.policy.tools.enabled := by
  unfold specs
  generalize tools.policy.tools.enabled = enabled at hknown
  induction enabled with
  | nil => rfl
  | cons name rest ih =>
      obtain ⟨hhead, htail⟩ := List.forall_mem_cons.mp hknown
      obtain ⟨spec, hspec, hname⟩ := specFor_known hhead
      rw [List.filterMap_cons, hspec, List.map_cons, hname, ih htail]

/-- The error for a tool that the policy does not enable. -/
def refusal (name : String) : CapError :=
  .denied ("tool " ++ Text.debug platform.plain name ++ " is not enabled by this host's policy")

/-- The invocation of this tool was refused because the policy does not enable it. -/
def Refused (name : String) (answer : Except CapError String) : Prop := answer = .error (refusal platform name)

/-- An error that is about the input of a tool or about what happened to it, and not about its name. -/
structure AboutInput (e : CapError) : Prop where
  kind_ne : e.kind ≠ "not_found"
  message_ne : ∀ rest, e.kind = "denied" → e.message ≠ "tool " ++ rest

theorem AboutInput.ne_refusal {e : CapError} (h : AboutInput e) (name : String) :
    e ≠ refusal platform name := by
  rintro rfl
  apply h.message_ne (Text.debug platform.plain name ++ " is not enabled by this host's policy") rfl
  exact String.append_assoc ..

theorem aboutInput_of_kind {e : CapError} (kind : String) (hkind : e.kind = kind)
    (hfound : kind ≠ "not_found") (hdenied : kind ≠ "denied") : AboutInput e :=
  ⟨hkind ▸ hfound, fun _ heq => absurd (hkind.symm.trans heq) hdenied⟩

/-- A denial that starts in another way is not a refusal. -/
theorem aboutInput_denied {message : String}
    (hstart : ∀ rest, message.toList.take 2 ≠ ("tool " ++ rest).toList.take 2) :
    AboutInput (.denied message) := by
  refine ⟨(by decide : "denied" ≠ "not_found"), fun rest _ heq => hstart rest ?_⟩
  rw [← heq]
  rfl

theorem aboutInput_stringArg {input : JsonValue} {field : String} {e : CapError}
    (h : stringArg platform input field = .error e) : AboutInput e := by
  unfold stringArg at h
  cases harg : (input.get field).bind Json.asStr with
  | some s =>
      rw [harg] at h
      cases h
  | none =>
      rw [harg] at h
      cases h
      exact aboutInput_of_kind "invalid" rfl (by decide) (by decide)

theorem aboutInput_httpGet (tools : ToolBox) (history : History) (input : JsonValue) {e : CapError}
    (h : (tools.httpGet platform history input).1 = .error e) : AboutInput e := by
  unfold httpGet at h
  cases hraw : stringArg platform input "url" with
  | error cause =>
      rw [hraw] at h
      cases h
      exact aboutInput_stringArg platform hraw
  | ok raw =>
      rw [hraw] at h
      cases hurl : platform.urlParse raw with
      | error text =>
          simp only [hurl] at h
          cases h
          exact aboutInput_of_kind "invalid" rfl (by decide) (by decide)
      | ok url =>
          simp only [hurl] at h
          by_cases hscheme : url.scheme = "https"
          · rw [if_neg (not_not.mpr hscheme)] at h
            cases hhost : url.hostStr with
            | none =>
                simp only [hhost] at h
                cases h
                exact aboutInput_of_kind "invalid" rfl (by decide) (by decide)
            | some host =>
                simp only [hhost] at h
                by_cases hallow : (!tools.policy.tools.http.allows host) = true
                · rw [if_pos hallow] at h
                  cases h
                  exact aboutInput_denied fun rest => by simp [String.toList_append]
                · rw [if_neg hallow] at h
                  have hkind : e.kind = "upstream" := by
                    cases houtcome : (tools.http.send history url).outcome with
                    | error text =>
                        simp only [houtcome] at h
                        cases h
                        rfl
                    | ok response =>
                        simp only [houtcome] at h
                        exact fetched_failure tools response e h
                  exact aboutInput_of_kind "upstream" hkind (by decide) (by decide)
          · rw [if_pos hscheme] at h
            cases h
            exact aboutInput_denied fun rest => by simp [String.toList_append]

theorem aboutInput_kvGet (tools : ToolBox) (input : JsonValue) {e : CapError}
    (h : tools.kvGet platform input = .error e) : AboutInput e := by
  unfold kvGet at h
  cases hkey : stringArg platform input "key" with
  | error cause =>
      rw [hkey] at h
      cases h
      exact aboutInput_stringArg platform hkey
  | ok key =>
      rw [hkey] at h
      cases h

theorem aboutInput_kvPut (tools : ToolBox) (input : JsonValue) {e : CapError}
    (h : (tools.kvPut platform input).1 = .error e) : AboutInput e := by
  unfold kvPut at h
  cases hkey : stringArg platform input "key" with
  | error cause =>
      rw [hkey] at h
      cases h
      exact aboutInput_stringArg platform hkey
  | ok key =>
      cases hvalue : stringArg platform input "value" with
      | error cause =>
          simp only [hkey, hvalue] at h
          cases h
          exact aboutInput_stringArg platform hvalue
      | ok value =>
          simp only [hkey, hvalue] at h
          split_ifs at h
          · cases h
            exact aboutInput_denied fun rest => by simp [String.toList_append]
          · cases h
            exact aboutInput_denied fun rest => by simp [String.toList_append]

/-- A tool that is not enabled is refused, whatever its input. -/
theorem refused_of_not_mem {tools : ToolBox} {name : String} (hname : name ∉ tools.policy.tools.enabled)
    (history : History) (input : JsonValue) :
    Refused platform name (tools.invoke platform history name input).1 := by
  have hany : ∀ x ∈ tools.policy.tools.enabled, x ≠ name := fun x hmem heq => hname (heq ▸ hmem)
  unfold Refused invoke
  rw [if_pos (by simpa using hany)]
  rfl

/-- A tool that is enabled and known fails for its input only. -/
theorem aboutInput_invoke {tools : ToolBox} {name : String} (hname : name ∈ tools.policy.tools.enabled)
    (hknown : isKnownTool name = true) (history : History) (input : JsonValue) {e : CapError}
    (h : (tools.invoke platform history name input).1 = .error e) : AboutInput e := by
  unfold invoke at h
  rw [if_neg (by simp [hname])] at h
  rcases isKnownTool_iff.mp hknown with rfl | rfl | rfl | rfl
  · cases h
  · exact aboutInput_httpGet platform tools history input h
  · exact aboutInput_kvGet platform tools input h
  · exact aboutInput_kvPut platform tools input h

end ToolBox

/-- The capability that lists the tools answers with the specs of the tool box. -/
theorem specs_dispatched (platform : Platform) (state : HostState) (history : History) (body : Bytes) :
    (dispatch platform state history Cap.toolsList body).1 =
      respond platform ToolsListResponse.encode (.ok ⟨state.tools.specs⟩) := by
  rw [Capability.dispatch_eq, Capability.ofName_toolsList]
  rfl

/-- The capability that runs a tool answers with what the tool box makes of the name and the input it is given. -/
theorem invoke_dispatched (platform : Platform) (state : HostState) (history : History) {body : Bytes}
    {req : ToolInvokeRequest}
    (hread : platform.codec.fromSlice "ToolInvokeRequest" ToolInvokeRequest.decode body = .ok req) :
    (dispatch platform state history Cap.toolInvoke body).1 = respond platform ToolInvokeResponse.encode
      ((state.tools.invoke platform history req.name req.input).1.map ToolInvokeResponse.mk) := by
  rw [Capability.dispatch_eq, Capability.ofName_toolInvoke, Capability.handle, hread]
  rfl

/-- A tool box of a run lists the tools that the policy enables, in their order; these are the ones that it
does not refuse, and it finds every tool it is asked to run. The host answers with what this tool box lists and with
what it makes of a call. -/
theorem listed_iff_invocable (platform : Platform) (policy : Policy)
    (hvalid : policy.validate platform = .ok ()) {fresh : ToolBox}
    (hnew : ToolBox.new platform policy = .ok fresh) (llm : LlmProvider) (moves : List GuestMove) :
    let run := (HostRun.machine platform).run (.start policy llm fresh) moves
    let tools := run.data.tools
    tools.specs.map ToolSpec.name = policy.tools.enabled ∧
    (∀ name history input,
      (name ∈ tools.specs.map ToolSpec.name ↔
        ¬ ToolBox.Refused platform name (tools.invoke platform history name input).1) ∧
      ∀ e, (tools.invoke platform history name input).1 = .error e → e.kind ≠ "not_found") ∧
    (∀ body, (dispatch platform run.data run.history Cap.toolsList body).1 =
      respond platform ToolsListResponse.encode (.ok ⟨tools.specs⟩)) ∧
    ∀ body req, platform.codec.fromSlice "ToolInvokeRequest" ToolInvokeRequest.decode body = .ok req →
      (dispatch platform run.data run.history Cap.toolInvoke body).1 = respond platform ToolInvokeResponse.encode
        ((tools.invoke platform run.history req.name req.input).1.map ToolInvokeResponse.mk) := by
  intro run tools
  have hpolicy : tools.policy = policy := toolsPolicy_run platform hnew llm moves
  have hknown := (Policy.validate_eq_ok_iff.mp hvalid).enabled
  rw [← hpolicy] at hknown
  have hnames := ToolBox.specs_names hknown
  refine ⟨hnames.trans (congrArg (fun p : Policy => p.tools.enabled) hpolicy), fun name history input => ?_,
    specs_dispatched platform run.data run.history, fun body req => invoke_dispatched platform run.data run.history⟩
  rw [hnames]
  by_cases hname : name ∈ tools.policy.tools.enabled
  · have habout : ∀ e, (tools.invoke platform history name input).1 = .error e → ToolBox.AboutInput e :=
      fun e => ToolBox.aboutInput_invoke platform hname (hknown name hname) history input
    refine ⟨⟨fun _ hrefused => ?_, fun _ => hname⟩, fun e he => (habout e he).kind_ne⟩
    exact (habout _ hrefused).ne_refusal platform name rfl
  · have hrefused := ToolBox.refused_of_not_mem platform hname history input
    refine ⟨⟨fun hmem => absurd hmem hname, fun h => absurd hrefused h⟩, fun e he => ?_⟩
    rw [ToolBox.Refused, he] at hrefused
    cases hrefused
    exact (by decide : "denied" ≠ "not_found")

theorem listed_iff_invocable_default :
    let tools := ((HostRun.machine stillPlatform).run (.start .default (.constant (.error (.upstream "down")))
      ⟨.default, .unreachable, .empty⟩) [askedMove]).data.tools
    tools.specs.map ToolSpec.name = ["now", "kv_get", "kv_put"] :=
  (listed_iff_invocable stillPlatform .default rfl rfl (.constant (.error (.upstream "down"))) [askedMove]).1

end TdsWasm
