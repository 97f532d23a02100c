import TdsWasm.BridgeRelay
import TdsWasm.SecurityToolSurface

/-! Which blocks of a model response come back to the model as they were. The block is read by the host, by
the guest and by the host again, and each reader keeps of it what its kind knows. -/

set_option autoImplicit false

namespace TdsWasm

/-! ### The body of the next request -/

namespace AnthropicProvider

variable (provider : AnthropicProvider)

/-- The messages of a body are the messages of the guest's request. -/
theorem body_get_messages (request : LlmRequest) : (provider.body request).get "messages" =
    some (.arr (request.messages.map fun message => message.encode.normalize)) := by
  have hfind : OrderedMap.find "messages" (provider.bodyMembers request provider.thinkingMembers) =
      some (.arr (request.messages.map Message.encode)) := by
    simp [bodyMembers, OrderedMap.find]
  rw [body_get, hfind, Option.map_some, Json.normalize, Json.normalizeItems_eq_map, List.map_map]
  rfl

end AnthropicProvider

/-- The block at this place of this message of a body. -/
def sentBlock (body : JsonValue) (message index : Nat) : Option Json := do
  let messages ← body.get "messages"
  let sent ← messages.elements[message]?
  let content ← sent.toValue.get "content"
  content.elements[index]?

theorem sentBlock_body (provider : AnthropicProvider) {request : LlmRequest} {message : Message} {number : Nat}
    (hmessage : request.messages[number]? = some message) (index : Nat) :
    sentBlock (provider.body request) number index =
      (message.content[index]?).map fun content => content.encode.normalize := by
  have hcontent : message.encode.normalize.toValue.get "content" =
      some (.arr (message.content.map fun content => content.encode.normalize)) := by
    rw [Decode.toValue_normalize, Message.encode, JsonValue.get_toValue_obj (by simp)]
    simp [OrderedMap.find, Json.normalize, Json.normalizeItems_eq_map]
  simp only [sentBlock, provider.body_get_messages, Option.bind_eq_bind, Option.bind_some, Json.elements,
    List.getElem?_map, hmessage, Option.map_some, hcontent]

/-! ### The echo -/

section Echo

variable (platform : Platform) (provider : AnthropicProvider)

/-- The block at this place of a response comes back as it was: when it is read and written once, and when
it is sent upstream in the next request, after any conversation. -/
structure Echoed (parsed : ApiResponse) (index : Nat) (block : JsonValue) : Prop where
  kept : (parsed.content[index]?).map (fun content => content.encode.toValue) = some block
  sent : ∀ prior results, Understood platform prior → ∃ seen asked,
    openResponse platform.codec Cap.llmComplete LlmResponse.decode
      (respond platform LlmResponse.encode (.ok parsed.toLlmResponse)) = .ok seen ∧
    platform.codec.fromSlice "LlmRequest" LlmRequest.decode
      (platform.codec.toVec (prior.followUp seen.content results).encode) = .ok asked ∧
    sentBlock (provider.body asked) prior.messages.length index = some block.toJson

variable {platform provider}

/-- A request that is understood is read as it reads back. -/
theorem read_of_understood {request : LlmRequest} (h : Understood platform request) :
    platform.codec.fromSlice "LlmRequest" LlmRequest.decode (platform.codec.toVec request.encode) =
      .ok request.reread := by
  obtain ⟨hmessages, htools⟩ := (understood_iff request).mp h
  simp only [← Content.depth_encode] at hmessages
  exact platform.codec.fromSlice_toVec (platform.numbers _) (LlmRequest.decode_reread hmessages htools)

/-- What is sent upstream of a response that the guest has read. -/
theorem sentBlock_followUp (prior : LlmRequest) (response : LlmResponse)
    (results : List (String × String × Bool)) (index : Nat) :
    sentBlock (provider.body (prior.followUp response.reread.content results).reread) prior.messages.length index =
      (response.content[index]?).map fun content => content.reread.encode.normalize := by
  have hmessage : (prior.followUp response.reread.content results).reread.messages[prior.messages.length]? =
      some (Message.assistant response.reread.content).reread := by
    simp [LlmRequest.followUp, LlmRequest.reread]
  have hsame : (Message.assistant response.reread.content).reread = .assistant response.reread.content := by
    apply Message.reread_eq
    intro content hmem
    obtain ⟨source, _, rfl⟩ := List.mem_map.mp hmem
    exact source.canonical_reread
  rw [sentBlock_body provider hmessage, hsame]
  show (response.reread.content[index]?).map _ = _
  rw [LlmResponse.reread, List.getElem?_map, Option.map_map]
  rfl

end Echo

/-- A block comes back to the model as it was exactly when its kind covers it and the response comes through
the pipeline. -/
theorem block_echoed_iff (platform : Platform) (provider : AnthropicProvider) (text : Bytes) (doc : Json)
    (parsed : ApiResponse) (index : Nat) (members : List (String × Json)) (kind : String)
    (hparse : platform.codec.parse text = some doc)
    (haccepted : platform.codec.fromSlice "ApiResponse" ApiResponse.decode text = .ok parsed)
    (hblock : (ApiResponse.blocks doc)[index]? = some (.obj members))
    (htype : (Json.obj members).toValue.get "type" = some (.str kind)) :
    Echoed platform provider parsed index (Json.obj members).toValue ↔
      Faithful (Json.obj members).toValue ∧
        ∀ block ∈ ApiResponse.blocks doc, Relayable (Content.ofBuffered block) := by
  obtain ⟨_, hdoc, hdecode⟩ := platform.codec.parse_of_fromSlice haccepted
  rw [hparse] at hdoc
  cases hdoc
  have hcontent : parsed.content = (ApiResponse.blocks doc).map Content.ofBuffered :=
    ApiResponse.content_of_decode hdecode
  have hindex : parsed.content[index]? = some (Content.ofBuffered (.obj members)) := by
    rw [hcontent, List.getElem?_map, hblock]
    rfl
  have hall := forall_relayable_iff parsed.toLlmResponse
  rw [show parsed.toLlmResponse.content = _ from hcontent, List.forall_mem_map, ← hcontent] at hall
  rw [hall, ← Content.encode_reread_iff htype]
  have hsentBlock : ∀ (prior : LlmRequest) results, sentBlock (provider.body
      (prior.followUp parsed.toLlmResponse.reread.content results).reread) prior.messages.length index =
        some (Content.ofBuffered (.obj members)).reread.encode.normalize := by
    intro prior results
    rw [sentBlock_followUp]
    show (parsed.content[index]?).map _ = _
    rw [hindex]
    rfl
  constructor
  · rintro ⟨_, hsent⟩
    have hempty : Understood platform ⟨none, [], []⟩ := (understood_iff _).mpr ⟨nofun, nofun⟩
    obtain ⟨seen, asked, hopen, hread, hecho⟩ := hsent _ [] hempty
    obtain ⟨rfl, hdepth⟩ := opened_iff.mp hopen
    have hunderstood := understood_followUp.mp ⟨asked, hread⟩
    rw [read_of_understood ⟨asked, hread⟩] at hread
    cases hread
    rw [hsentBlock] at hecho
    exact ⟨JsonValue.ext (Option.some.inj hecho), hdepth, hunderstood.2⟩
  · rintro ⟨hecho, hdepth, hnext⟩
    refine ⟨?_, fun prior results hprior => ⟨parsed.toLlmResponse.reread, _, opened_iff.mpr ⟨rfl, hdepth⟩,
      read_of_understood (understood_followUp.mpr ⟨hprior, hnext⟩), ?_⟩⟩
    · rw [hindex, Option.map_some,
        Content.encode_ofBuffered htype ((Content.encode_reread_iff htype).mp hecho)]
    · rw [hsentBlock, ← hecho]
      rfl

/-- A block of a kind that the ABI does not know. -/
def futureBlock : List (String × Json) :=
  [("type", .str "some_future_block"), ("payload", .arr [.num (Numeral.ofNat 1), .num (Numeral.ofNat 2)])]

theorem block_echoed_future : ∃ parsed, Echoed stillPlatform toollessProvider parsed 0
    (Json.obj futureBlock).toValue := by
  obtain ⟨parsed, haccepted⟩ := (stillPlatform.codec.exists_fromSlice_toVec "ApiResponse" (stillPlatform.numbers _)).mpr
    (show (ApiResponse.decode _ (responseOfBlocks [.obj futureBlock])).isSome by decide +kernel)
  have hunknown : (KnownContent.ofBuffered (Json.obj futureBlock).toValue.toJson).isNone := by decide +kernel
  have hfaithful : Faithful (Json.obj futureBlock).toValue := by
    intro block hblock
    rw [hblock] at hunknown
    cases hunknown
  exact ⟨parsed, (block_echoed_iff stillPlatform toollessProvider _ _ parsed 0 futureBlock
    "some_future_block" (stillPlatform.codec.parse_toVec _ (stillPlatform.numbers _)) haccepted rfl
    (JsonValue.get_toValue_obj (by decide) "type")).mpr ⟨hfaithful, by decide +kernel⟩⟩

/-- A text block with citations. -/
def citedBlock : List (String × Json) :=
  [("type", .str "text"), ("text", .str "Done."), ("citations", .arr [])]

theorem block_lost_citations : ∃ parsed, stillPlatform.codec.fromSlice "ApiResponse" ApiResponse.decode
    (stillPlatform.codec.toVec (responseOfBlocks [.obj citedBlock])) = .ok parsed ∧
      ¬ Echoed stillPlatform toollessProvider parsed 0 (Json.obj citedBlock).toValue := by
  obtain ⟨parsed, haccepted⟩ := (stillPlatform.codec.exists_fromSlice_toVec "ApiResponse" (stillPlatform.numbers _)).mpr
    (show (ApiResponse.decode _ (responseOfBlocks [.obj citedBlock])).isSome by decide +kernel)
  refine ⟨parsed, haccepted, fun ⟨hkept, _⟩ => ?_⟩
  obtain ⟨_, hdoc, hdecode⟩ := stillPlatform.codec.parse_of_fromSlice haccepted
  rw [stillPlatform.codec.parse_toVec _ (stillPlatform.numbers _)] at hdoc
  cases hdoc
  rw [ApiResponse.content_of_decode hdecode] at hkept
  have hsame : (Content.ofBuffered (.obj citedBlock)).encode.toValue = (Json.obj citedBlock).toValue :=
    Option.some.inj hkept
  have hcitations := congrArg (fun value => (value.get "citations").isSome) hsame
  exact absurd hcitations (by decide +kernel)

end TdsWasm
