import TdsWasm.AbiContent

/-! Every type of the ABI reads back from its wire form, as long as the levels suffice for the values
it carries. A raw block reads back when it is not the form of a known kind. -/

set_option autoImplicit false

namespace TdsWasm

open Decode

/-! ### The envelope, the input and the output -/

theorem CapError.decode_encode (e : CapError) (levels : Nat) :
    CapError.decode (levels + 1) e.encode = some e := by
  rw [CapError.decode, CapError.encode, record_obj (by simp) (by simp)]
  simp [required, OrderedMap.find]

/-- The value inside an envelope gets the levels that the envelope leaves. -/
theorem CapResponse.decode_ok {α : Type} (encodeValue : α → Json) (decodeValue : Nat → Json → Option α)
    (value : α) (levels : Nat) :
    CapResponse.decode decodeValue (levels + 1) (CapResponse.encode encodeValue (.ok value)) =
      (decodeValue levels (encodeValue value)).map .ok := by
  simp [CapResponse.decode, CapResponse.encode, newtypeVariant]

theorem CapResponse.decode_encode {α : Type} {encodeValue : α → Json}
    {decodeValue : Nat → Json → Option α} {levels : Nat} (response : CapResponse α)
    (hvalue : ∀ value, response = .ok value →
      decodeValue (levels + 1) (encodeValue value) = some value) :
    CapResponse.decode decodeValue (levels + 2) (response.encode encodeValue) = some response := by
  cases response with
  | ok value =>
      rw [CapResponse.decode_ok, hvalue value rfl]
      rfl
  | err error =>
      simp [CapResponse.decode, CapResponse.encode, newtypeVariant, CapError.decode_encode]

theorem AgentInput.decode_encode (input : AgentInput) (levels : Nat) :
    AgentInput.decode (levels + 1) input.encode = some input := by
  obtain ⟨task, context, maxSteps⟩ := input
  cases context with
  | none =>
      rw [AgentInput.decode, AgentInput.encode, record_obj (by simp) (by simp)]
      simp [required, defaulted, OrderedMap.find]
  | some context =>
      rw [AgentInput.decode, AgentInput.encode, record_obj (by simp) (by simp)]
      simp [required, defaulted, OrderedMap.find, option]

theorem StopReason.decode_encode (stop : StopReason) (levels : Nat) :
    StopReason.decode levels stop.encode = some stop := by
  cases stop <;> rfl

theorem ToolCallRecord.decode_encode {call : ToolCallRecord} {levels : Nat}
    (hinput : call.input.toJson.depth ≤ levels) :
    ToolCallRecord.decode (levels + 1) call.encode = some call := by
  rw [ToolCallRecord.decode, ToolCallRecord.encode, record_obj (by simp) (by simp)]
  simp [required, OrderedMap.find, value_toJson hinput]

theorem Usage.decode_encode (usage : Usage) (levels : Nat) :
    Usage.decode (levels + 1) usage.encode = some usage := by
  rw [Usage.decode, Usage.encode, record_obj (by simp) (by simp)]
  simp [defaulted, OrderedMap.find]

theorem AgentOutput.decode_encode {output : AgentOutput} {levels : Nat}
    (hinputs : ∀ call ∈ output.toolCalls, call.input.toJson.depth ≤ levels) :
    AgentOutput.decode (levels + 3) output.encode = some output := by
  have hcalls : list (levels + 2) ToolCallRecord.decode
      (.arr (output.toolCalls.map ToolCallRecord.encode)) = some output.toolCalls :=
    list_map fun call hmem => ToolCallRecord.decode_encode (hinputs call hmem)
  rw [AgentOutput.decode, AgentOutput.encode, record_obj (by simp) (by simp)]
  simp [required, defaulted, OrderedMap.find, StopReason.decode_encode, hcalls, Usage.decode_encode]

/-! ### Tools -/

theorem ToolSpec.decode_encode {spec : ToolSpec} {levels : Nat}
    (hschema : spec.inputSchema.toJson.depth ≤ levels) :
    ToolSpec.decode (levels + 1) spec.encode = some spec := by
  rw [ToolSpec.decode, ToolSpec.encode, record_obj (by simp) (by simp)]
  simp [required, OrderedMap.find, value_toJson hschema]

theorem ToolSpec.isSome_decode_encode (spec : ToolSpec) (levels : Nat) :
    (ToolSpec.decode (levels + 1) spec.encode).isSome ↔ spec.inputSchema.toJson.depth ≤ levels := by
  rw [ToolSpec.decode, ToolSpec.encode, record_obj (by simp) (by simp), ← isSome_value]
  simp [required, OrderedMap.find]
  cases value levels spec.inputSchema.toJson <;> rfl

theorem ToolsListResponse.decode_encode {response : ToolsListResponse} {levels : Nat}
    (hschemas : ∀ spec ∈ response.tools, spec.inputSchema.toJson.depth ≤ levels) :
    ToolsListResponse.decode (levels + 3) response.encode = some response := by
  have htools : list (levels + 2) ToolSpec.decode (.arr (response.tools.map ToolSpec.encode)) =
      some response.tools := list_map fun spec hmem => ToolSpec.decode_encode (hschemas spec hmem)
  rw [ToolsListResponse.decode, ToolsListResponse.encode, record_obj (by simp) (by simp)]
  simp [required, OrderedMap.find, htools]

theorem ToolInvokeRequest.decode_encode {request : ToolInvokeRequest} {levels : Nat}
    (hinput : request.input.toJson.depth ≤ levels) :
    ToolInvokeRequest.decode (levels + 1) request.encode = some request := by
  rw [ToolInvokeRequest.decode, ToolInvokeRequest.encode, record_obj (by simp) (by simp)]
  simp [required, OrderedMap.find, value_toJson hinput]

theorem ToolInvokeResponse.decode_encode (response : ToolInvokeResponse) (levels : Nat) :
    ToolInvokeResponse.decode (levels + 1) response.encode = some response := by
  rw [ToolInvokeResponse.decode, ToolInvokeResponse.encode, record_obj (by simp) (by simp)]
  simp [required, OrderedMap.find]

/-! ### Content -/

/-- The known kinds read back from the wire form as it is written. -/
theorem KnownContent.ofBuffered_encode (block : KnownContent) :
    KnownContent.ofBuffered block.encode = some block := by
  cases block with
  | text t =>
      simp [encode, ofBuffered, internallyTagged, variantName, kinds, ofFields, fields, required,
        OrderedMap.find]
  | thinking t signature =>
      cases signature with
      | none =>
          simp [encode, ofBuffered, internallyTagged, variantName, kinds, ofFields, fields, required,
            defaulted, OrderedMap.find]
      | some signature =>
          simp [encode, ofBuffered, internallyTagged, variantName, kinds, ofFields, fields, required,
            defaulted, option, OrderedMap.find]
  | redactedThinking data =>
      simp [encode, ofBuffered, internallyTagged, variantName, kinds, ofFields, fields, required,
        OrderedMap.find]
  | toolUse id name input =>
      simp [encode, ofBuffered, internallyTagged, variantName, kinds, ofFields, fields, required,
        OrderedMap.find]
  | toolResult toolUseId content isError =>
      cases isError with
      | false =>
          simp [encode, ofBuffered, internallyTagged, variantName, kinds, ofFields, fields, required,
            defaulted, OrderedMap.find]
      | true =>
          simp [encode, ofBuffered, internallyTagged, variantName, kinds, ofFields, fields, required,
            defaulted, OrderedMap.find]

/-- What a tool use has as its input lies inside the block it is read from. -/
theorem KnownContent.depth_input {j : Json} {id name : String} {input : JsonValue}
    (h : KnownContent.ofBuffered j = some (.toolUse id name input)) : input.toJson.depth + 1 ≤ j.depth := by
  simp only [ofBuffered, Option.bind_eq_bind, Option.bind_eq_some_iff] at h
  obtain ⟨⟨tag, rest⟩, htagged, kind, _, hfields⟩ := h
  refine le_trans ?_ (depth_internallyTagged htagged)
  unfold ofFields at hfields
  split_ifs at hfields
  all_goals
    simp only [Option.bind_eq_bind, Option.bind_eq_some_iff, Option.pure_def, Option.some.injEq, reduceCtorEq,
      and_false, exists_false] at hfields
  obtain ⟨known, hknown, _, _, _, _, _, hinput, hblock⟩ := hfields
  cases hblock
  rw [required, Option.bind_eq_some_iff] at hinput
  obtain ⟨doc, hfind, hvalue⟩ := hinput
  cases hvalue
  have hdoc := depth_fields hknown _ (OrderedMap.mem_of_find hfind)
  exact le_trans (Nat.succ_le_succ (Json.depth_normalize_le doc)) hdoc

/-- What a block is after it has been written and read. -/
def Content.reread (content : Content) : Content := .ofBuffered content.encode

theorem Content.decode_reread {content : Content} {levels : Nat} (hdepth : content.encode.depth ≤ levels) :
    Content.decode levels content.encode = some content.reread := if_pos hdepth

/-- A block that reads back as the same arm. -/
def Content.Canonical : Content → Prop
  | .known _ => True
  | .raw value => KnownContent.ofBuffered value.toJson = none

theorem Content.reread_eq {content : Content} (hcanonical : content.Canonical) :
    content.reread = content := by
  cases content with
  | known block =>
      rw [Content.reread, Content.ofBuffered, Content.encode, KnownContent.ofBuffered_encode]
  | raw value =>
      have hraw : KnownContent.ofBuffered value.toJson = none := hcanonical
      rw [Content.reread, Content.ofBuffered, Content.encode, hraw, JsonValue.toValue_toJson]

/-- A second reading gives nothing new. -/
theorem Content.canonical_reread (content : Content) : content.reread.Canonical := by
  rw [reread, ofBuffered]
  cases hread : KnownContent.ofBuffered content.encode with
  | some block => trivial
  | none =>
      cases content with
      | known block =>
          rw [encode, KnownContent.ofBuffered_encode] at hread
          cases hread
      | raw value =>
          show KnownContent.ofBuffered value.toJson.toValue.toJson = none
          rw [JsonValue.toValue_toJson]
          exact hread

theorem Content.decode_encode {content : Content} {levels : Nat} (hcanonical : content.Canonical)
    (hdepth : content.encode.depth ≤ levels) :
    Content.decode levels content.encode = some content := by
  rw [Content.decode_reread hdepth, Content.reread_eq hcanonical]

theorem Content.isSome_decode_encode (content : Content) (levels : Nat) :
    (Content.decode levels content.encode).isSome ↔ content.encode.depth ≤ levels := by
  rw [Content.decode]
  split_ifs with hdepth <;> simp [hdepth]

/-! ### Messages, requests and responses -/

theorem Role.decode_encode (role : Role) (levels : Nat) : Role.decode levels role.encode = some role := by
  cases role <;> rfl

def Message.Canonical (message : Message) : Prop := ∀ content ∈ message.content, content.Canonical

/-- What a message is after it has been written and read. -/
def Message.reread (message : Message) : Message :=
  { message with content := message.content.map Content.reread }

theorem Message.reread_eq {message : Message} (hcanonical : message.Canonical) :
    message.reread = message := by
  have hcontent : message.content.map Content.reread = message.content.map id :=
    List.map_congr_left fun content hmem => Content.reread_eq (hcanonical content hmem)
  rw [Message.reread, hcontent, List.map_id]

theorem Message.decode_reread {message : Message} {levels : Nat}
    (hdepth : ∀ content ∈ message.content, content.encode.depth ≤ levels) :
    Message.decode (levels + 2) message.encode = some message.reread := by
  have hcontent : list (levels + 1) Content.decode (.arr (message.content.map Content.encode)) =
      some (message.content.map Content.reread) :=
    list_map_reread fun content hmem => Content.decode_reread (hdepth content hmem)
  rw [Message.decode, Message.encode, record_obj (by simp) (by simp)]
  simp [required, OrderedMap.find, Role.decode_encode, hcontent, Message.reread]

theorem Message.isSome_decode_encode (message : Message) (levels : Nat) :
    (Message.decode (levels + 2) message.encode).isSome ↔
      ∀ content ∈ message.content, content.encode.depth ≤ levels := by
  have hcontent : (list (levels + 1) Content.decode (.arr (message.content.map Content.encode))).isSome ↔
      ∀ content ∈ message.content, content.encode.depth ≤ levels := by
    simp only [isSome_list_map, Content.isSome_decode_encode]
  rw [Message.decode, Message.encode, record_obj (by simp) (by simp), ← hcontent]
  simp [required, OrderedMap.find, Role.decode_encode]
  cases list (levels + 1) Content.decode (.arr (message.content.map Content.encode)) <;> rfl

def LlmRequest.Canonical (request : LlmRequest) : Prop := ∀ message ∈ request.messages, message.Canonical

/-- What a request is after it has been written and read. -/
def LlmRequest.reread (request : LlmRequest) : LlmRequest :=
  { request with messages := request.messages.map Message.reread }

theorem LlmRequest.decode_reread {request : LlmRequest} {levels : Nat}
    (hmessages : ∀ message ∈ request.messages, ∀ content ∈ message.content,
      content.encode.depth ≤ levels)
    (htools : ∀ spec ∈ request.tools, spec.inputSchema.toJson.depth ≤ levels + 1) :
    LlmRequest.decode (levels + 4) request.encode = some request.reread := by
  obtain ⟨system, messages, tools⟩ := request
  have hread : list (levels + 3) Message.decode (.arr (messages.map Message.encode)) =
      some (messages.map Message.reread) := list_map_reread fun message hmem =>
    Message.decode_reread (hmessages message hmem)
  have hspecs : list (levels + 3) ToolSpec.decode (.arr (tools.map ToolSpec.encode)) = some tools :=
    list_map fun spec hmem => ToolSpec.decode_encode (htools spec hmem)
  cases system with
  | none =>
      rw [LlmRequest.decode, LlmRequest.encode, record_obj (by simp) (by simp)]
      simp [required, defaulted, OrderedMap.find, hread, hspecs, LlmRequest.reread]
  | some system =>
      rw [LlmRequest.decode, LlmRequest.encode, record_obj (by simp) (by simp)]
      simp [required, defaulted, OrderedMap.find, option, hread, hspecs, LlmRequest.reread]

theorem LlmRequest.decode_encode {request : LlmRequest} {levels : Nat} (hcanonical : request.Canonical)
    (hmessages : ∀ message ∈ request.messages, ∀ content ∈ message.content,
      content.encode.depth ≤ levels)
    (htools : ∀ spec ∈ request.tools, spec.inputSchema.toJson.depth ≤ levels + 1) :
    LlmRequest.decode (levels + 4) request.encode = some request := by
  have hsame : request.messages.map Message.reread = request.messages.map id :=
    List.map_congr_left fun message hmem => Message.reread_eq (hcanonical message hmem)
  rw [LlmRequest.decode_reread hmessages htools, LlmRequest.reread, hsame, List.map_id]

/-- A request is read exactly when its blocks and its schemas fit the levels. -/
theorem LlmRequest.isSome_decode_encode (request : LlmRequest) (levels : Nat) :
    (LlmRequest.decode (levels + 4) request.encode).isSome ↔
      (∀ message ∈ request.messages, ∀ content ∈ message.content, content.encode.depth ≤ levels) ∧
        ∀ spec ∈ request.tools, spec.inputSchema.toJson.depth ≤ levels + 1 := by
  obtain ⟨system, messages, tools⟩ := request
  have hmessages : (list (levels + 3) Message.decode (.arr (messages.map Message.encode))).isSome ↔
      ∀ message ∈ messages, ∀ content ∈ message.content, content.encode.depth ≤ levels := by
    simp only [isSome_list_map, Message.isSome_decode_encode]
  have hspecs : (list (levels + 3) ToolSpec.decode (.arr (tools.map ToolSpec.encode))).isSome ↔
      ∀ spec ∈ tools, spec.inputSchema.toJson.depth ≤ levels + 1 := by
    simp only [isSome_list_map, ToolSpec.isSome_decode_encode]
  have hbuild : (LlmRequest.decode (levels + 4) (LlmRequest.encode ⟨system, messages, tools⟩)).isSome =
      ((list (levels + 3) Message.decode (.arr (messages.map Message.encode))).bind fun messages =>
        (list (levels + 3) ToolSpec.decode (.arr (tools.map ToolSpec.encode))).map fun tools =>
          LlmRequest.mk system messages tools).isSome := by
    cases system with
    | none =>
        rw [LlmRequest.decode, LlmRequest.encode, record_obj (by simp) (by simp)]
        simp [required, defaulted, OrderedMap.find, Option.map_eq_bind]
    | some system =>
        rw [LlmRequest.decode, LlmRequest.encode, record_obj (by simp) (by simp)]
        simp [required, defaulted, OrderedMap.find, option, Option.map_eq_bind]
  rw [← hmessages, ← hspecs, hbuild]
  cases list (levels + 3) Message.decode (.arr (messages.map Message.encode)) <;>
    cases list (levels + 3) ToolSpec.decode (.arr (tools.map ToolSpec.encode)) <;> simp

def LlmResponse.Canonical (response : LlmResponse) : Prop :=
  ∀ content ∈ response.content, content.Canonical

/-- What a response is after it has been written and read. -/
def LlmResponse.reread (response : LlmResponse) : LlmResponse :=
  { response with content := response.content.map Content.reread }

theorem LlmResponse.decode_reread {response : LlmResponse} {levels : Nat}
    (hdepth : ∀ content ∈ response.content, content.encode.depth ≤ levels) :
    LlmResponse.decode (levels + 2) response.encode = some response.reread := by
  have hcontent : list (levels + 1) Content.decode (.arr (response.content.map Content.encode)) =
      some (response.content.map Content.reread) :=
    list_map_reread fun content hmem => Content.decode_reread (hdepth content hmem)
  rw [LlmResponse.decode, LlmResponse.encode, record_obj (by simp) (by simp)]
  simp [required, defaulted, OrderedMap.find, hcontent, Usage.decode_encode, LlmResponse.reread]

theorem LlmResponse.decode_encode {response : LlmResponse} {levels : Nat}
    (hcanonical : response.Canonical)
    (hdepth : ∀ content ∈ response.content, content.encode.depth ≤ levels) :
    LlmResponse.decode (levels + 2) response.encode = some response := by
  have hcontent : response.content.map Content.reread = response.content.map id :=
    List.map_congr_left fun content hmem => Content.reread_eq (hcanonical content hmem)
  rw [LlmResponse.decode_reread hdepth, LlmResponse.reread, hcontent, List.map_id]

/-- A response is read exactly when its blocks fit the levels. -/
theorem LlmResponse.isSome_decode_encode (response : LlmResponse) (levels : Nat) :
    (LlmResponse.decode (levels + 2) response.encode).isSome ↔
      ∀ content ∈ response.content, content.encode.depth ≤ levels := by
  have hcontent : (list (levels + 1) Content.decode
      (.arr (response.content.map Content.encode))).isSome ↔
        ∀ content ∈ response.content, content.encode.depth ≤ levels := by
    simp only [isSome_list_map, Content.isSome_decode_encode]
  rw [LlmResponse.decode, LlmResponse.encode, record_obj (by simp) (by simp), ← hcontent]
  simp [required, defaulted, OrderedMap.find, Usage.decode_encode]
  cases list (levels + 1) Content.decode (.arr (response.content.map Content.encode)) <;> rfl

end TdsWasm
