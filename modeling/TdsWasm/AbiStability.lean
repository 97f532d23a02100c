import TdsWasm.AbiEcho

/-! Content blocks that are written and read again and again. What has been read once reads back as itself, through
values as well as through texts, so every hop between the host and the guest classifies a block in the same way. -/

set_option autoImplicit false

namespace TdsWasm

namespace Content

/-- Read a value as a content block. -/
def ofValue (value : JsonValue) : Content := ofBuffered value.toJson

/-- The value that a content block is written as. -/
def toValue (content : Content) : JsonValue := content.encode.toValue

/-- What a block is after it has been written as a value and read again. -/
def hop (content : Content) : Content := ofValue content.toValue

end Content

/-- A known block is written as an object. -/
theorem KnownContent.exists_encode (block : KnownContent) : ∃ members, block.encode = .obj members := by
  cases block <;> exact ⟨_, rfl⟩

namespace Content

/-- A known block reads back as that block, with its members in any order. -/
theorem hop_known (block : KnownContent) : (known block).hop = known block := by
  obtain ⟨members, hobj⟩ := block.exists_encode
  have hread : KnownContent.ofBuffered (Json.obj members) = some block := by
    rw [← hobj]
    exact KnownContent.ofBuffered_encode block
  have hnormal : KnownContent.ofBuffered block.encode.toValue.toJson = some block := by
    rw [hobj]
    exact KnownContent.ofBuffered_normalize hread
  rw [hop, ofValue, toValue, encode, ofBuffered, hnormal]

/-- A block that is kept as a value is that value, also when it is written. -/
theorem raw_of_ofValue {value kept : JsonValue} (h : ofValue value = raw kept) : kept = value := by
  unfold ofValue ofBuffered at h
  cases hread : KnownContent.ofBuffered value.toJson with
  | some block =>
      rw [hread] at h
      cases h
  | none =>
      rw [hread] at h
      cases h
      exact JsonValue.toValue_toJson value

/-- What has been read from a value reads back as itself. -/
theorem hop_ofValue (value : JsonValue) : (ofValue value).hop = ofValue value := by
  cases hread : ofValue value with
  | known block => exact hop_known block
  | raw kept =>
      obtain rfl := raw_of_ofValue hread
      rw [hop, toValue, encode, JsonValue.toValue_toJson, hread]

theorem canonical_ofValue (value : JsonValue) : (ofValue value).Canonical := by
  cases hread : ofValue value with
  | known block => trivial
  | raw kept =>
      obtain rfl := raw_of_ofValue hread
      show KnownContent.ofBuffered kept.toJson = none
      unfold ofValue ofBuffered at hread
      cases hknown : KnownContent.ofBuffered kept.toJson with
      | none => rfl
      | some block =>
          rw [hknown] at hread
          cases hread

end Content

/-- Decoding a content block is stable after the first hop. What a value decodes to is the same after any number of
further hops, through values or through texts, and so is what it is written as; a block that is kept raw is written as
the value it was; and every known block reads back as itself. -/
theorem content_stable :
    (∀ value : JsonValue, let content := Content.ofValue value
      (∀ hops, Content.hop^[hops] content = content ∧ Content.reread^[hops] content = content ∧
        (Content.hop^[hops] content).toValue = content.toValue ∧
        (Content.reread^[hops] content).encode = content.encode) ∧
      (∀ levels, content.encode.depth ≤ levels → Content.decode levels content.encode = some content) ∧
      ∀ kept, content = .raw kept → content.toValue = value ∧ content.encode = value.toJson) ∧
    ∀ block : KnownContent, Content.ofValue (Content.known block).toValue = .known block ∧
      Content.ofBuffered (Content.known block).encode = .known block := by
  refine ⟨fun value => ⟨fun hops => ?_, ?_, ?_⟩, fun block => ⟨Content.hop_known block, ?_⟩⟩
  · have hhop : Content.hop^[hops] (Content.ofValue value) = Content.ofValue value :=
      Function.iterate_fixed (Content.hop_ofValue value) hops
    have hreread : Content.reread^[hops] (Content.ofValue value) = Content.ofValue value :=
      Function.iterate_fixed (Content.reread_eq (Content.canonical_ofValue value)) hops
    exact ⟨hhop, hreread, by rw [hhop], by rw [hreread]⟩
  · intro levels hdepth
    exact Content.decode_encode (Content.canonical_ofValue value) hdepth
  · intro kept hraw
    obtain rfl := Content.raw_of_ofValue hraw
    rw [hraw]
    exact ⟨JsonValue.toValue_toJson kept, rfl⟩
  · have hcanonical : (Content.known block).Canonical := trivial
    exact Content.reread_eq hcanonical

end TdsWasm
