import TdsWasm.AbiEcho
import TdsWasm.BridgeRecord

/-! The way of a model response after the host has accepted it: the guest reads it inside its envelope, the
host reads the tool calls made for it, and then the next request, with the response inside a message. Each
hop wraps the blocks in more levels than the one before, and the reader counts them all. -/

set_option autoImplicit false

namespace TdsWasm

open Decode

/-! ### Blocks of a response -/

namespace ApiResponse

/-- The content blocks of a response, as they stand in it. -/
def blocks (j : Json) : List Json :=
  match (fields ["stop_reason", "content", "usage"] j).bind (OrderedMap.find "content") with
  | some (.arr items) => items
  | _ => []

/-- Every block of a response is buffered, and read as a known kind or kept as a value. -/
theorem content_of_decode {levels : Nat} {j : Json} {parsed : ApiResponse}
    (h : decode (levels + 2) j = some parsed) : parsed.content = (blocks j).map Content.ofBuffered := by
  rw [decode, record, enter_succ] at h
  obtain ⟨known, hknown, hbuilt⟩ := Option.bind_eq_some_iff.mp h
  obtain ⟨stopReason, _, hbuilt⟩ := Option.bind_eq_some_iff.mp hbuilt
  obtain ⟨content, hcontent, hbuilt⟩ := Option.bind_eq_some_iff.mp hbuilt
  obtain ⟨usage, _, hbuilt⟩ := Option.bind_eq_some_iff.mp hbuilt
  cases hbuilt
  show content = _
  rw [blocks, hknown, Option.bind_some]
  rw [defaulted] at hcontent
  cases hfind : OrderedMap.find "content" known with
  | none =>
      rw [hfind] at hcontent
      cases hcontent
      rfl
  | some value =>
      simp only [hfind] at hcontent
      cases value with
      | arr items =>
          rw [list, enter_succ] at hcontent
          apply mapM_eq_map _ hcontent
          intro item content hitem
          rw [Content.decode] at hitem
          split_ifs at hitem
          exact (Option.some.inj hitem).symm
      | null | bool b | num n | str s | obj members => cases hcontent

end ApiResponse

/-! ### The hops -/

/-- The request of the next turn: the response and the results of its tools follow the conversation. -/
def LlmRequest.followUp (prior : LlmRequest) (content : List Content) (results : List (String × String × Bool)) :
    LlmRequest :=
  { prior with messages := prior.messages ++ [.assistant content] ++
      [.user (results.map fun result => .toolResult result.1 result.2.1 result.2.2)] }

section Hops

variable (platform : Platform)

/-- The host reads this request of the guest. -/
def Understood (request : LlmRequest) : Prop :=
  ∃ read, platform.codec.fromSlice "LlmRequest" LlmRequest.decode (platform.codec.toVec request.encode) = .ok read

/-- The guest sees the response, and the host reads all that the guest makes of it: the tool calls, and
the next request after any conversation that it has read so far. -/
structure Relayed (response seen : LlmResponse) : Prop where
  opened : openResponse platform.codec Cap.llmComplete LlmResponse.decode
    (respond platform LlmResponse.encode (.ok response)) = .ok seen
  invoked : ∀ use ∈ seen.content.filterMap Content.asToolUse, ∃ request,
    platform.codec.fromSlice "ToolInvokeRequest" ToolInvokeRequest.decode
      (platform.codec.toVec (ToolInvokeRequest.encode ⟨use.2.1, use.2.2⟩)) = .ok request
  continued : ∀ prior results, Understood platform prior →
    Understood platform (prior.followUp seen.content results)

/-- The levels that a request leaves for a content block. -/
def turnLevels : Nat := Decode.recursionLimit - 5

/-- A block that fits the envelope, and once it has been read there, the next request. -/
def Relayable (content : Content) : Prop :=
  content.nesting ≤ blockLevels ∧ content.reread.nesting ≤ turnLevels

instance (content : Content) : Decidable (Relayable content) := inferInstanceAs (Decidable (_ ∧ _))

variable {platform}

theorem understood_iff (request : LlmRequest) : Understood platform request ↔
    (∀ message ∈ request.messages, ∀ content ∈ message.content, content.nesting ≤ turnLevels) ∧
      ∀ spec ∈ request.tools, spec.inputSchema.toJson.depth ≤ turnLevels + 1 := by
  simp only [← Content.depth_encode]
  exact (platform.codec.exists_fromSlice_toVec _ (platform.numbers _)).trans
    (LlmRequest.isSome_decode_encode request turnLevels)

/-- A request is understood with the response in it exactly when it is without, and the blocks fit. -/
theorem understood_followUp {prior : LlmRequest} {content : List Content}
    {results : List (String × String × Bool)} : Understood platform (prior.followUp content results) ↔
      Understood platform prior ∧ ∀ block ∈ content, block.nesting ≤ turnLevels := by
  have hresults : ∀ block ∈ (Message.user (results.map fun result =>
      Content.toolResult result.1 result.2.1 result.2.2)).content, block.nesting ≤ turnLevels := by
    intro block hmem
    obtain ⟨result, _, rfl⟩ := List.mem_map.mp hmem
    exact (by decide : 1 ≤ turnLevels)
  rw [understood_iff, understood_iff]
  constructor
  · rintro ⟨hmessages, htools⟩
    refine ⟨⟨fun message hmem => hmessages message ?_, htools⟩, hmessages (.assistant content) ?_⟩
    · exact List.mem_append_left _ (List.mem_append_left _ hmem)
    · exact List.mem_append_left _ (List.mem_append_right _ (List.mem_singleton.mpr rfl))
  · rintro ⟨⟨hmessages, htools⟩, hcontent⟩
    refine ⟨fun message hmem => ?_, htools⟩
    rcases List.mem_append.mp hmem with hmem | hmem
    · rcases List.mem_append.mp hmem with hmem | hmem
      · exact hmessages message hmem
      · rw [List.mem_singleton.mp hmem]
        exact hcontent
    · rw [List.mem_singleton.mp hmem]
      exact hresults

/-- The guest sees a response as it is read from its envelope, when every block fits. -/
theorem opened_iff {response seen : LlmResponse} :
    openResponse platform.codec Cap.llmComplete LlmResponse.decode
        (respond platform LlmResponse.encode (.ok response)) = .ok seen ↔
      seen = response.reread ∧ ∀ content ∈ response.content, content.nesting ≤ blockLevels := by
  simp only [← Content.depth_encode]
  rcases openResponse_response platform Cap.llmComplete response with ⟨hopen, hdepth⟩ | ⟨⟨e, hopen⟩, hdeep⟩
  · rw [hopen]
    exact ⟨fun h => ⟨(Except.ok.inj h).symm, hdepth⟩, fun h => congrArg _ h.1.symm⟩
  · rw [hopen]
    exact ⟨nofun, fun h => absurd h.2 hdeep⟩

theorem forall_relayable_iff (response : LlmResponse) : (∀ content ∈ response.content, Relayable content) ↔
    (∀ content ∈ response.content, content.nesting ≤ blockLevels) ∧
      ∀ content ∈ response.reread.content, content.nesting ≤ turnLevels := by
  rw [LlmResponse.reread, List.forall_mem_map]
  exact ⟨fun h => ⟨fun content hmem => (h content hmem).1, fun content hmem => (h content hmem).2⟩,
    fun h content hmem => ⟨h.1 content hmem, h.2 content hmem⟩⟩

/-- A response comes through exactly when every block of it does. -/
theorem relayed_iff {response seen : LlmResponse} : Relayed platform response seen ↔
    seen = response.reread ∧ ∀ content ∈ response.content, Relayable content := by
  rw [forall_relayable_iff]
  constructor
  · rintro ⟨hopened, _, hcontinued⟩
    obtain ⟨rfl, hdepth⟩ := opened_iff.mp hopened
    have hempty : Understood platform ⟨none, [], []⟩ := (understood_iff _).mpr ⟨nofun, nofun⟩
    exact ⟨rfl, hdepth, (understood_followUp.mp (hcontinued _ [] hempty)).2⟩
  · rintro ⟨rfl, hdepth, hnext⟩
    refine ⟨opened_iff.mpr ⟨rfl, hdepth⟩, fun use huse => ?_, fun prior results hprior =>
      understood_followUp.mpr ⟨hprior, hnext⟩⟩
    simp only [← Content.depth_encode] at hdepth
    have hinput := depth_reread hdepth use huse
    exact ⟨_, platform.codec.fromSlice_toVec (platform.numbers _)
      (ToolInvokeRequest.decode_encode (hinput.le.trans (by decide : blockLevels ≤ recursionLimit - 2)))⟩

/-- What the host accepts, the rest of the pipeline accepts exactly when every block fits the envelope and
the next request. -/
theorem response_relayed_iff (platform : Platform) (text : Bytes) (doc : Json) (parsed : ApiResponse)
    (hparse : platform.codec.parse text = some doc)
    (haccepted : platform.codec.fromSlice "ApiResponse" ApiResponse.decode text = .ok parsed) :
    (∃ seen, Relayed platform parsed.toLlmResponse seen) ↔
      ∀ block ∈ ApiResponse.blocks doc, Relayable (Content.ofBuffered block) := by
  obtain ⟨_, hdoc, hdecode⟩ := platform.codec.parse_of_fromSlice haccepted
  rw [hparse] at hdoc
  cases hdoc
  have hcontent : parsed.toLlmResponse.content = (ApiResponse.blocks doc).map Content.ofBuffered :=
    ApiResponse.content_of_decode hdecode
  simp only [relayed_iff, exists_eq_left, hcontent, List.forall_mem_map]

end Hops

/-- A response of these blocks. -/
def responseOfBlocks (blocks : List Json) : Json :=
  .obj [("stop_reason", .str "tool_use"), ("content", .arr blocks)]

def shallowCall : Json :=
  .obj [("type", .str "tool_use"), ("id", .str "toolu_1"), ("name", .str "kv_get"),
    ("input", .obj [("key", .str "k")])]

theorem response_relayed_shallow : ∃ parsed, stillPlatform.codec.fromSlice "ApiResponse" ApiResponse.decode
    (stillPlatform.codec.toVec (responseOfBlocks [shallowCall])) = .ok parsed ∧
      ∃ seen, Relayed stillPlatform parsed.toLlmResponse seen := by
  obtain ⟨parsed, haccepted⟩ := (stillPlatform.codec.exists_fromSlice_toVec "ApiResponse" (stillPlatform.numbers _)).mpr
    (show (ApiResponse.decode _ (responseOfBlocks [shallowCall])).isSome by decide +kernel)
  exact ⟨parsed, haccepted, (response_relayed_iff stillPlatform _ _ parsed
    (stillPlatform.codec.parse_toVec _ (stillPlatform.numbers _)) haccepted).mpr (by decide +kernel)⟩

/-- An array in an array, and so on. -/
def nestedArray : Nat → Json
  | 0 => .arr []
  | n + 1 => .arr [nestedArray n]

/-- A tool call whose input opens 124 levels. -/
def deepCall : Json :=
  .obj [("type", .str "tool_use"), ("id", .str "toolu_1"), ("name", .str "kv_put"),
    ("input", .obj [("value", nestedArray 122)])]

theorem response_lost_deep : ∃ parsed, stillPlatform.codec.fromSlice "ApiResponse" ApiResponse.decode
    (stillPlatform.codec.toVec (responseOfBlocks [deepCall])) = .ok parsed ∧
      ¬ ∃ seen, Relayed stillPlatform parsed.toLlmResponse seen := by
  obtain ⟨parsed, haccepted⟩ := (stillPlatform.codec.exists_fromSlice_toVec "ApiResponse" (stillPlatform.numbers _)).mpr
    (show (ApiResponse.decode _ (responseOfBlocks [deepCall])).isSome by decide +kernel)
  refine ⟨parsed, haccepted, ?_⟩
  obtain ⟨_, hdoc, hdecode⟩ := stillPlatform.codec.parse_of_fromSlice haccepted
  rw [stillPlatform.codec.parse_toVec _ (stillPlatform.numbers _)] at hdoc
  cases hdoc
  rintro ⟨seen, hrelayed⟩
  have hall := (relayed_iff.mp hrelayed).2
  rw [show parsed.toLlmResponse.content = _ from ApiResponse.content_of_decode hdecode] at hall
  have hmem : deepCall ∈ ApiResponse.blocks (responseOfBlocks [deepCall]) := List.mem_singleton.mpr rfl
  exact absurd (hall _ (List.mem_map_of_mem hmem)) (by decide +kernel)

end TdsWasm
