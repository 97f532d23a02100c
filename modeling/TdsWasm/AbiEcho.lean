import TdsWasm.AbiRoundTrip

/-! What becomes of a content block that is read and written back. A block of no known shape comes back as
the value it is. A block of a known kind comes back without the members that its kind does not have, and
without the optional members that hold what their absence means. -/

set_option autoImplicit false

namespace TdsWasm

open Decode

/-! ### A document and its value -/

namespace KnownContent

theorem ofFields_normalize {kind : String} {others : List (String × Json)} {block : KnownContent}
    (h : ofFields kind (.obj others) = some block) :
    ofFields kind (Json.obj others).normalize = some block := by
  have hvalue : ∀ j : Json, some j.normalize.toValue = some j.toValue := fun j =>
    congrArg some (toValue_normalize j)
  unfold ofFields at h ⊢
  split_ifs at h ⊢
  · obtain ⟨known, hknown, hblock⟩ := Option.bind_eq_some_iff.mp h
    obtain ⟨kept, hkept, hfind⟩ := fields_normalize hknown
    rw [hkept, Option.bind_some, required_normalize "text" string_normalize hfind]
    exact hblock
  · obtain ⟨known, hknown, hblock⟩ := Option.bind_eq_some_iff.mp h
    obtain ⟨kept, hkept, hfind⟩ := fields_normalize hknown
    rw [hkept, Option.bind_some, required_normalize "thinking" string_normalize hfind,
      defaulted_normalize "signature" none (option_normalize string_normalize) hfind]
    exact hblock
  · obtain ⟨known, hknown, hblock⟩ := Option.bind_eq_some_iff.mp h
    obtain ⟨kept, hkept, hfind⟩ := fields_normalize hknown
    rw [hkept, Option.bind_some, required_normalize "data" string_normalize hfind]
    exact hblock
  · obtain ⟨known, hknown, hblock⟩ := Option.bind_eq_some_iff.mp h
    obtain ⟨kept, hkept, hfind⟩ := fields_normalize hknown
    rw [hkept, Option.bind_some, required_normalize "id" string_normalize hfind,
      required_normalize "name" string_normalize hfind, required_normalize "input" hvalue hfind]
    exact hblock
  · obtain ⟨known, hknown, hblock⟩ := Option.bind_eq_some_iff.mp h
    obtain ⟨kept, hkept, hfind⟩ := fields_normalize hknown
    rw [hkept, Option.bind_some, required_normalize "tool_use_id" string_normalize hfind,
      required_normalize "content" string_normalize hfind,
      defaulted_normalize "is_error" false bool_normalize hfind]
    exact hblock

/-- An object that reads as a known kind does so as the value it is. -/
theorem ofBuffered_normalize {members : List (String × Json)} {block : KnownContent}
    (h : ofBuffered (.obj members) = some block) : ofBuffered (Json.obj members).normalize = some block := by
  simp only [ofBuffered, Option.bind_eq_bind, Option.bind_eq_some_iff] at h ⊢
  obtain ⟨⟨tag, rest⟩, htagged, kind, hkind, hfields⟩ := h
  obtain ⟨hnormal, others, rfl⟩ := internallyTagged_normalize htagged
  refine ⟨_, hnormal, kind, ?_, ofFields_normalize hfields⟩
  cases tag with
  | str name => exact hkind
  | num n => exact hkind
  | null | bool b | arr items | obj members => cases hkind

/-! ### What is written back -/

/-- The members of a block beside its tag. -/
def fieldNames : KnownContent → List String
  | text _ => ["text"]
  | thinking _ _ => ["thinking", "signature"]
  | redactedThinking _ => ["data"]
  | toolUse _ _ _ => ["id", "name", "input"]
  | toolResult _ _ _ => ["tool_use_id", "content", "is_error"]

/-- An optional member that holds what its absence means is not written. -/
def Omitted (name : String) (j : Json) : Prop :=
  name = "signature" ∧ j = .null ∨ name = "is_error" ∧ j = .bool false

/-- The object has no members but those that the block writes. -/
def Covers (block : KnownContent) (value : JsonValue) : Prop :=
  ∀ name j, value.get name = some j → (name = "type" ∨ name ∈ block.fieldNames) ∧ ¬ Omitted name j

section Written

variable {members known : List (String × Json)} {names : List String}

theorem required_string {name t : String} (h : required name string known = some t) :
    OrderedMap.find name known = some (.str t) := by
  obtain ⟨j, hfind, hstring⟩ := Option.bind_eq_some_iff.mp h
  cases j with
  | str s =>
      cases hstring
      exact hfind
  | null | bool b | num n | arr items | obj members => cases hstring

theorem optional_string {name : String} {given : Option String}
    (h : defaulted name none (option string) known = some given) :
    OrderedMap.find name known = given.map Json.str ∨ OrderedMap.find name known = some .null ∧ given = none := by
  rw [defaulted] at h
  cases hfind : OrderedMap.find name known with
  | none =>
      rw [hfind] at h
      cases h
      exact Or.inl rfl
  | some j =>
      simp only [hfind] at h
      cases j with
      | null =>
          cases h
          exact Or.inr ⟨rfl, rfl⟩
      | str s =>
          cases h
          exact Or.inl rfl
      | bool b | num n | arr items | obj members => cases h

theorem defaulted_bool {name : String} {given : Bool} (h : defaulted name false bool known = some given) :
    OrderedMap.find name known = some (.bool given) ∨ OrderedMap.find name known = none ∧ given = false := by
  rw [defaulted] at h
  cases hfind : OrderedMap.find name known with
  | none =>
      rw [hfind] at h
      cases h
      exact Or.inr ⟨rfl, rfl⟩
  | some j =>
      simp only [hfind] at h
      cases j with
      | bool b =>
          cases h
          exact Or.inl rfl
      | null | str s | num n | arr items | obj members => cases h

/-- The fields that a block is read from are those it is written with, but for what is omitted. -/
theorem ofFields_encode {kind : String} {rest : Json} {block : KnownContent}
    (h : ofFields kind rest = some block) :
    ∃ known written, fields block.fieldNames rest = some known ∧
      block.encode = .obj (("type", .str kind) :: written) ∧ (written.map Prod.fst).Nodup ∧
      (∀ member ∈ written, member.1 ∈ block.fieldNames ∧ ¬ Omitted member.1 member.2) ∧
      ∀ name ∈ block.fieldNames,
        (OrderedMap.find name written).map Json.normalize = (OrderedMap.find name known).map Json.normalize ∨
          ∃ j, OrderedMap.find name known = some j ∧ Omitted name j := by
  unfold ofFields at h
  split_ifs at h with htext hthinking hredacted huse hresult
  · obtain ⟨known, hknown, hbuilt⟩ := Option.bind_eq_some_iff.mp h
    obtain ⟨t, ht, hbuilt⟩ := Option.bind_eq_some_iff.mp hbuilt
    cases hbuilt
    refine ⟨known, [("text", .str t)], hknown, by rw [htext]; rfl, by simp, by simp [fieldNames, Omitted], ?_⟩
    simp [fieldNames, OrderedMap.find, required_string ht]
  · obtain ⟨known, hknown, hbuilt⟩ := Option.bind_eq_some_iff.mp h
    obtain ⟨t, ht, hbuilt⟩ := Option.bind_eq_some_iff.mp hbuilt
    obtain ⟨signature, hsignature, hbuilt⟩ := Option.bind_eq_some_iff.mp hbuilt
    cases hbuilt
    refine ⟨known, ("thinking", .str t) :: (signature.map fun s => ("signature", Json.str s)).toList, hknown,
      by rw [hthinking]; rfl, by cases signature <;> simp,
      by cases signature <;> simp [fieldNames, Omitted], ?_⟩
    rcases optional_string hsignature with hfound | ⟨hfound, rfl⟩
    · cases signature <;> simp [fieldNames, OrderedMap.find, required_string ht, hfound]
    · simp [fieldNames, OrderedMap.find, required_string ht, hfound, Omitted]
  · obtain ⟨known, hknown, hbuilt⟩ := Option.bind_eq_some_iff.mp h
    obtain ⟨data, hdata, hbuilt⟩ := Option.bind_eq_some_iff.mp hbuilt
    cases hbuilt
    refine ⟨known, [("data", .str data)], hknown, by rw [hredacted]; rfl, by simp,
      by simp [fieldNames, Omitted], ?_⟩
    simp [fieldNames, OrderedMap.find, required_string hdata]
  · obtain ⟨known, hknown, hbuilt⟩ := Option.bind_eq_some_iff.mp h
    obtain ⟨id, hid, hbuilt⟩ := Option.bind_eq_some_iff.mp hbuilt
    obtain ⟨tool, htool, hbuilt⟩ := Option.bind_eq_some_iff.mp hbuilt
    obtain ⟨input, hinput, hbuilt⟩ := Option.bind_eq_some_iff.mp hbuilt
    obtain ⟨j, hfound, hvalue⟩ := Option.bind_eq_some_iff.mp hinput
    cases hbuilt
    cases hvalue
    have hnormal : j.toValue.toJson.normalize = j.normalize := Json.normalize_of_normal j.normal_normalize
    refine ⟨known, [("id", .str id), ("name", .str tool), ("input", j.toValue.toJson)], hknown,
      by rw [huse]; rfl, by simp, by simp [fieldNames, Omitted], ?_⟩
    simp [fieldNames, OrderedMap.find, required_string hid, required_string htool, hfound, hnormal]
  · obtain ⟨known, hknown, hbuilt⟩ := Option.bind_eq_some_iff.mp h
    obtain ⟨toolUseId, hid, hbuilt⟩ := Option.bind_eq_some_iff.mp hbuilt
    obtain ⟨content, hcontent, hbuilt⟩ := Option.bind_eq_some_iff.mp hbuilt
    obtain ⟨isError, hisError, hbuilt⟩ := Option.bind_eq_some_iff.mp hbuilt
    cases hbuilt
    refine ⟨known, [("tool_use_id", .str toolUseId), ("content", .str content)] ++
      (if isError then [("is_error", .bool true)] else []), hknown, by rw [hresult]; rfl,
      by cases isError <;> simp, by cases isError <;> simp [fieldNames, Omitted], ?_⟩
    rcases defaulted_bool hisError with hfound | ⟨hfound, rfl⟩
    · cases isError <;>
        simp [fieldNames, OrderedMap.find, required_string hid, required_string hcontent, hfound, Omitted]
    · simp [fieldNames, OrderedMap.find, required_string hid, required_string hcontent, hfound]

/-- The fields of a block, beside its tag, are members of it. -/
theorem find_of_fields
    (h : fields names (.obj (members.filter fun member => member.1 ≠ "type")) = some known) {name : String}
    (hmem : name ∈ names) (hne : name ≠ "type") : OrderedMap.find name known = OrderedMap.find name members := by
  simp only [fields] at h
  split_ifs at h with hnodup
  cases h
  rw [OrderedMap.find_filter fun name => names.contains name, if_pos (List.contains_iff_mem.mpr hmem),
    OrderedMap.find_filter fun name => decide (name ≠ "type"), if_pos (decide_eq_true hne)]

/-- What an object with a name as its tag is read as. -/
theorem ofFields_of_ofBuffered {kind : String} {block : KnownContent}
    (h : ofBuffered (.obj members) = some block) (htype : OrderedMap.find "type" members = some (.str kind)) :
    ofFields kind (.obj (members.filter fun member => member.1 ≠ "type")) = some block := by
  simp only [ofBuffered, Option.bind_eq_bind, Option.bind_eq_some_iff] at h
  obtain ⟨⟨tag, rest⟩, htagged, found, hfound, hfields⟩ := h
  simp only [internallyTagged] at htagged
  split at htagged
  · next name j hfilter =>
      cases htagged
      rw [OrderedMap.find_eq_head?, hfilter] at htype
      cases htype
      simp only [variantName] at hfound
      split_ifs at hfound
      cases hfound
      exact hfields
  · cases htagged

end Written

theorem omitted_normalize {name : String} {j : Json} (h : Omitted name j.normalize) : Omitted name j := by
  rcases h with ⟨hname, hnull⟩ | ⟨hname, hfalse⟩
  · refine Or.inl ⟨hname, ?_⟩
    cases j <;> simp [Json.normalize] at hnull ⊢
  · refine Or.inr ⟨hname, ?_⟩
    cases j <;> simp [Json.normalize] at hfalse ⊢
    exact hfalse

theorem type_not_mem_fieldNames (block : KnownContent) : "type" ∉ block.fieldNames := by
  cases block <;> simp [fieldNames]

/-- What an object is read as, and written as. -/
structure Written (value : JsonValue) (kind : String) (block : KnownContent) (written : List (String × Json)) :
    Prop where
  encode_eq : block.encode = .obj (("type", .str kind) :: written)
  nodup : ((("type", Json.str kind) :: written).map Prod.fst).Nodup
  known : ∀ member ∈ written, member.1 ∈ block.fieldNames ∧ ¬ Omitted member.1 member.2
  agrees : ∀ name ∈ block.fieldNames, (OrderedMap.find name written).map Json.normalize = value.get name ∨
    ∃ j, value.get name = some j ∧ Omitted name j

theorem exists_written {value : JsonValue} {kind : String} {block : KnownContent}
    (hblock : ofBuffered value.toJson = some block) (htype : value.get "type" = some (.str kind)) :
    (∃ members, value.toJson = .obj members) ∧ ∃ written, Written value kind block written := by
  obtain ⟨members, hmembers⟩ : ∃ members, value.toJson = .obj members := by
    rw [JsonValue.get] at htype
    split at htype
    · next members hobj => exact ⟨members, hobj⟩
    · cases htype
  have hget : ∀ name, value.get name = OrderedMap.find name members := by
    intro name
    rw [JsonValue.get, hmembers]
  rw [hget] at htype
  rw [hmembers] at hblock
  obtain ⟨known, written, hknown, hencode, hnodup, hwritten, hagrees⟩ :=
    ofFields_encode (ofFields_of_ofBuffered hblock htype)
  refine ⟨⟨members, hmembers⟩, written, hencode, ?_, hwritten, fun name hmem => ?_⟩
  · rw [List.map_cons, List.nodup_cons]
    refine ⟨fun hmem => ?_, hnodup⟩
    obtain ⟨member, hmember, htag⟩ := List.mem_map.mp hmem
    have hin := (hwritten member hmember).1
    rw [htag] at hin
    exact type_not_mem_fieldNames block hin
  · have hne : name ≠ "type" := fun heq => type_not_mem_fieldNames block (heq ▸ hmem)
    have hsame : OrderedMap.find name known = value.get name := by
      rw [find_of_fields hknown hmem hne, hget]
    have hmapped : (value.get name).map Json.normalize = value.get name := by
      cases hvalue : value.get name with
      | none => rfl
      | some j => exact congrArg some (JsonValue.normalize_get hvalue)
    have hagree := hagrees name hmem
    rw [hsame, hmapped] at hagree
    exact hagree

/-- A block of a known kind comes back as it was exactly when its kind covers it. -/
theorem encode_toValue_eq_iff {value : JsonValue} {kind : String} {block : KnownContent}
    (hblock : ofBuffered value.toJson = some block) (htype : value.get "type" = some (.str kind)) :
    block.encode.toValue = value ↔ block.Covers value := by
  obtain ⟨⟨members, hmembers⟩, written, hencode, hnodup, hknown, hagrees⟩ := exists_written hblock htype
  have hget : ∀ name, block.encode.toValue.get name =
      (OrderedMap.find name (("type", .str kind) :: written)).map Json.normalize := by
    rw [hencode]
    exact JsonValue.get_toValue_obj hnodup
  constructor
  · intro hsame name j hj
    rw [← hsame, hget, OrderedMap.find] at hj
    split_ifs at hj with htag
    · subst htag
      exact ⟨Or.inl rfl, by simp [Omitted]⟩
    · obtain ⟨x, hfind, rfl⟩ := Option.map_eq_some_iff.mp hj
      obtain ⟨hmem, homitted⟩ := hknown _ (OrderedMap.mem_of_find hfind)
      exact ⟨Or.inr hmem, fun h => homitted (omitted_normalize h)⟩
  · intro hcovers
    refine JsonValue.ext_get (by rw [hencode]; exact Json.normalize_obj _) hmembers fun name => ?_
    rw [hget, OrderedMap.find]
    split_ifs with htag
    · subst htag
      exact htype.symm
    by_cases hmem : name ∈ block.fieldNames
    · rcases hagrees name hmem with heq | ⟨j, hj, homitted⟩
      · exact heq
      · exact absurd homitted (hcovers name j hj).2
    · have hwritten : OrderedMap.find name written = none := by
        rw [OrderedMap.find_eq_none_iff]
        intro hkey
        obtain ⟨member, hmember, rfl⟩ := List.mem_map.mp hkey
        exact hmem (hknown member hmember).1
      have hvalue : value.get name = none := by
        rw [Option.eq_none_iff_forall_not_mem]
        intro j hj
        rcases (hcovers name j hj).1 with heq | hin
        · exact htag heq.symm
        · exact hmem hin
      rw [hwritten, hvalue]
      rfl

/-- How many levels the block opens when it is written. -/
def nesting : KnownContent → Nat
  | toolUse _ _ input => input.toJson.depth + 1
  | _ => 1

theorem depth_encode (block : KnownContent) : block.encode.depth = block.nesting := by
  cases block with
  | text t => simp [encode, nesting, Json.depth, Json.depthMembers]
  | thinking t signature => cases signature <;> simp [encode, nesting, Json.depth, Json.depthMembers]
  | redactedThinking data => simp [encode, nesting, Json.depth, Json.depthMembers]
  | toolUse id name input => simp [encode, nesting, Json.depth, Json.depthMembers]
  | toolResult toolUseId content isError =>
      cases isError <;> simp [encode, nesting, Json.depth, Json.depthMembers]

end KnownContent

/-! ### Blocks -/

/-- A value that a block comes back as: its shape is no known one, or its kind covers it. -/
def Faithful (value : JsonValue) : Prop :=
  ∀ block, KnownContent.ofBuffered value.toJson = some block → block.Covers value

namespace Content

def nesting : Content → Nat
  | known block => block.nesting
  | raw value => value.toJson.depth

theorem depth_encode (content : Content) : content.encode.depth = content.nesting := by
  cases content with
  | known block => exact block.depth_encode
  | raw value => rfl

section Echo

variable {members : List (String × Json)} {kind : String}

/-- A block that is read once comes back as it is when its value is faithful. -/
theorem encode_ofBuffered (htype : (Json.obj members).toValue.get "type" = some (.str kind))
    (hfaithful : Faithful (Json.obj members).toValue) :
    (ofBuffered (.obj members)).encode.toValue = (Json.obj members).toValue := by
  rw [ofBuffered]
  cases hread : KnownContent.ofBuffered (.obj members) with
  | none => exact JsonValue.toValue_toJson _
  | some block =>
      have hvalue : KnownContent.ofBuffered (Json.obj members).toValue.toJson = some block :=
        KnownContent.ofBuffered_normalize hread
      exact (KnownContent.encode_toValue_eq_iff hvalue htype).mpr (hfaithful block hvalue)

/-- A block that is read and written again and again comes back as it is exactly when its value is
faithful. -/
theorem encode_reread_iff (htype : (Json.obj members).toValue.get "type" = some (.str kind)) :
    (ofBuffered (.obj members)).reread.encode.toValue = (Json.obj members).toValue ↔
      Faithful (Json.obj members).toValue := by
  have hreread : (ofBuffered (.obj members)).reread = ofBuffered (Json.obj members).toValue.toJson := by
    rw [ofBuffered]
    cases hread : KnownContent.ofBuffered (.obj members) with
    | none => rfl
    | some block =>
        have hvalue : KnownContent.ofBuffered (Json.obj members).toValue.toJson = some block :=
          KnownContent.ofBuffered_normalize hread
        rw [reread_eq (show (known block).Canonical from trivial), ofBuffered, hvalue]
  rw [hreread, ofBuffered]
  cases hvalue : KnownContent.ofBuffered (Json.obj members).toValue.toJson with
  | none =>
      constructor
      · intro _ block hblock
        rw [hvalue] at hblock
        cases hblock
      · intro _
        show (Json.obj members).toValue.toJson.toValue.toJson.toValue = _
        rw [JsonValue.toValue_toJson, JsonValue.toValue_toJson]
  | some block =>
      refine (KnownContent.encode_toValue_eq_iff hvalue htype).trans ⟨?_, fun h => h block hvalue⟩
      intro hcovers other hother
      rw [hvalue] at hother
      cases hother
      exact hcovers

end Echo

end Content

end TdsWasm
