import TdsWasm.LibJson
import TdsWasm.LibText

/-! Decoding of JSON documents into typed data, as a reader that a schema compiler derives does it:
records in member form or in positional form, unknown members skipped, repeated members refused,
and a bound on how many arrays and objects may be open at once. A decoder gets the number of
levels that may still be opened. -/

set_option autoImplicit false

namespace Decode

/-- How many levels a reader gives a text: it starts its count at this limit and refuses the array
or object that brings the count to zero. -/
def recursionLimit : Nat := 128

def enter {α : Type} (levels : Nat) (inside : Nat → Option α) : Option α :=
  match levels with
  | 0 => none
  | levels + 1 => inside levels

/-! ### Scalars, options and lists -/

def string : Json → Option String
  | .str s => some s
  | _ => none

def bool : Json → Option Bool
  | .bool b => some b
  | _ => none

def natBelow (bound : Nat) : Json → Option Nat
  | .num n => n.natural.filter (· < bound)
  | _ => none

def u32 (j : Json) : Option UInt32 := (natBelow (2 ^ 32) j).map UInt32.ofNat

def u64 (j : Json) : Option UInt64 := (natBelow (2 ^ 64) j).map UInt64.ofNat

def option {α : Type} (decode : Json → Option α) : Json → Option (Option α)
  | .null => some none
  | j => (decode j).map some

def list {α : Type} (levels : Nat) (decode : Nat → Json → Option α) : Json → Option (List α)
  | .arr items => enter levels fun levels => items.mapM (decode levels)
  | _ => none

/-- Any document, kept as a value. -/
def value (levels : Nat) (j : Json) : Option JsonValue :=
  if j.depth ≤ levels then some j.toValue else none

/-! ### Records -/

/-- The named fields of a record: the known members of an object, none of them twice, or the items
of an array in the order of the names. -/
def fields (names : List String) : Json → Option (List (String × Json))
  | .obj members =>
      let known := members.filter fun member => names.contains member.1
      if (known.map Prod.fst).Nodup then some known else none
  | .arr items => if items.length ≤ names.length then some (names.zip items) else none
  | _ => none

def record {α : Type} (names : List String) (levels : Nat) (j : Json)
    (build : Nat → List (String × Json) → Option α) : Option α :=
  enter levels fun levels => (fields names j).bind (build levels)

def required {α : Type} (name : String) (decode : Json → Option α)
    (fields : List (String × Json)) : Option α :=
  (OrderedMap.find name fields).bind decode

def defaulted {α : Type} (name : String) (default : α) (decode : Json → Option α)
    (fields : List (String × Json)) : Option α :=
  match OrderedMap.find name fields with
  | none => some default
  | some j => decode j

/-! ### Enumerations -/

/-- The name of a variant without data: a string, or an object that maps the name to null. -/
def unitVariant (levels : Nat) : Json → Option String
  | .str name => some name
  | .obj [(name, .null)] => enter levels fun _ => some name
  | _ => none

/-- A variant with one datum: an object of the variant's name and the datum. -/
def newtypeVariant {α : Type} (levels : Nat) (decode : Nat → String → Json → Option α) :
    Json → Option α
  | .obj [(name, j)] => enter levels fun levels => decode levels name j
  | _ => none

/-- The tag of an internally tagged variant and what is left of the document: the only member of
that name and the other members, or the first item and the other items. -/
def internallyTagged (tag : String) : Json → Option (Json × Json)
  | .obj members =>
      match members.filter fun member => member.1 = tag with
      | [(_, j)] => some (j, .obj (members.filter fun member => member.1 ≠ tag))
      | _ => none
  | .arr (j :: rest) => some (j, .arr rest)
  | _ => none

/-- A variant named by a string, or by its position in the declaration. -/
def variantName (names : List String) : Json → Option String
  | .str name => if names.contains name then some name else none
  | .num n => n.natural.bind fun index => names[index]?
  | _ => none

/-! ### Rules -/

@[simp] theorem enter_succ {α : Type} (levels : Nat) (inside : Nat → Option α) :
    enter (levels + 1) inside = inside levels := rfl

@[simp] theorem enter_zero {α : Type} (inside : Nat → Option α) : enter 0 inside = none := rfl

@[simp] theorem string_str (s : String) : string (.str s) = some s := rfl

@[simp] theorem bool_bool (b : Bool) : bool (.bool b) = some b := rfl

@[simp] theorem u32_ofNat (n : UInt32) : u32 (.num (Numeral.ofNat n.toNat)) = some n := by
  simp [u32, natBelow, Option.filter, n.toNat_lt]

@[simp] theorem u64_ofNat (n : UInt64) : u64 (.num (Numeral.ofNat n.toNat)) = some n := by
  simp [u64, natBelow, Option.filter, n.toNat_lt]

theorem value_toJson {levels : Nat} {v : JsonValue} (hdepth : v.toJson.depth ≤ levels) :
    value levels v.toJson = some v := by
  rw [value, if_pos hdepth, JsonValue.toValue_toJson]

theorem mapM_map {α β : Type} {encode : α → β} {decode : β → Option α} {reread : α → α} {items : List α}
    (h : ∀ item ∈ items, decode (encode item) = some (reread item)) :
    (items.map encode).mapM decode = some (items.map reread) := by
  induction items with
  | nil => rfl
  | cons item rest ih =>
      rw [List.map_cons, List.mapM_cons, h item (by simp),
        ih fun item hmem => h item (List.mem_cons_of_mem _ hmem)]
      rfl

/-- A list is read as a map when every item that is read is. -/
theorem mapM_eq_map {α β : Type} {decode : β → Option α} {f : β → α} {items : List β} {results : List α}
    (hitem : ∀ item result, decode item = some result → result = f item)
    (h : items.mapM decode = some results) : results = items.map f := by
  induction items generalizing results with
  | nil =>
      cases h
      rfl
  | cons item rest ih =>
      rw [List.mapM_cons] at h
      obtain ⟨head, hhead, h⟩ := Option.bind_eq_some_iff.mp h
      obtain ⟨tail, htail, h⟩ := Option.bind_eq_some_iff.mp h
      cases h
      rw [List.map_cons, ← hitem item head hhead, ← ih htail]

/-- A list is read item by item. -/
theorem list_map_reread {α : Type} {levels : Nat} {decode : Nat → Json → Option α} {encode : α → Json}
    {reread : α → α} {items : List α}
    (h : ∀ item ∈ items, decode levels (encode item) = some (reread item)) :
    list (levels + 1) decode (.arr (items.map encode)) = some (items.map reread) := by
  rw [list, enter_succ, mapM_map h]

theorem list_map {α : Type} {levels : Nat} {decode : Nat → Json → Option α} {encode : α → Json}
    {items : List α} (h : ∀ item ∈ items, decode levels (encode item) = some item) :
    list (levels + 1) decode (.arr (items.map encode)) = some items := by
  rw [list_map_reread h, List.map_id']

theorem isSome_mapM {α β : Type} {decode : β → Option α} {items : List β} :
    (items.mapM decode).isSome ↔ ∀ item ∈ items, (decode item).isSome := by
  induction items with
  | nil => simp
  | cons item rest ih =>
      rw [List.mapM_cons, List.forall_mem_cons, ← ih]
      cases decode item with
      | none => simp
      | some head => cases rest.mapM decode <;> simp

theorem isSome_list_map {α : Type} {levels : Nat} {decode : Nat → Json → Option α} {encode : α → Json}
    {items : List α} : (list (levels + 1) decode (.arr (items.map encode))).isSome ↔
      ∀ item ∈ items, (decode levels (encode item)).isSome := by
  rw [list, enter_succ, isSome_mapM, List.forall_mem_map]

theorem isSome_value (levels : Nat) (j : Json) : (value levels j).isSome ↔ j.depth ≤ levels := by
  rw [value]
  split_ifs with hdepth <;> simp [hdepth]

/-- What the fields of a record hold is one level below it. -/
theorem depth_fields {names : List String} {j : Json} {known : List (String × Json)}
    (h : fields names j = some known) : ∀ member ∈ known, member.2.depth + 1 ≤ j.depth := by
  intro member hmem
  cases j with
  | null | bool b | num n | str s => cases h
  | arr items =>
      rw [fields] at h
      split_ifs at h with hlength
      cases h
      exact Nat.succ_le_succ (Json.depthItems_le.mp le_rfl _ (List.of_mem_zip hmem).2)
  | obj members =>
      simp only [fields] at h
      split_ifs at h with hnodup
      cases h
      exact Nat.succ_le_succ (Json.depthMembers_le.mp le_rfl _ (List.mem_of_mem_filter hmem))

theorem depth_internallyTagged {tag : String} {j t rest : Json}
    (h : internallyTagged tag j = some (t, rest)) : rest.depth ≤ j.depth := by
  cases j with
  | null | bool b | num n | str s => cases h
  | arr items =>
      cases items with
      | nil => cases h
      | cons head tail =>
          cases h
          rw [Json.depth, Json.depth, Nat.add_le_add_iff_right, Json.depthItems]
          exact Nat.le_max_right _ _
  | obj members =>
      simp only [internallyTagged] at h
      split at h
      · cases h
        rw [Json.depth, Json.depth, Nat.add_le_add_iff_right, Json.depthMembers_le]
        intro member hmem
        exact Json.depthMembers_le.mp le_rfl _ (List.mem_of_mem_filter hmem)
      · cases h

/-! ### Normalized documents -/

/-- Members can be left out before or after an object is normalized. -/
theorem filter_normalize (p : String → Bool) (members : List (String × Json)) :
    (OrderedMap.ofEntries (members.map fun member => (member.1, member.2.normalize))).filter
        (fun member => p member.1) =
      OrderedMap.ofEntries ((members.filter fun member => p member.1).map fun member =>
        (member.1, member.2.normalize)) := by
  rw [OrderedMap.filter_ofEntries, List.filter_map]
  rfl

/-- The tag and the rest of an object are those of its value. -/
theorem internallyTagged_normalize {tag : String} {members : List (String × Json)} {t rest : Json}
    (h : internallyTagged tag (.obj members) = some (t, rest)) :
    internallyTagged tag (Json.obj members).normalize = some (t.normalize, rest.normalize) ∧
      ∃ others, rest = .obj others := by
  simp only [internallyTagged] at h
  split at h
  · next name j hfilter =>
      cases h
      refine ⟨?_, _, rfl⟩
      have hrest := filter_normalize (fun name => decide (name ≠ tag)) members
      have htag := filter_normalize (fun name => decide (name = tag)) members
      rw [hfilter] at htag
      rw [Json.normalize_obj, Json.normalize_obj, internallyTagged, htag, hrest]
      rfl
  · cases h

/-- The fields of an object are those of its value. -/
theorem fields_normalize {names : List String} {members known : List (String × Json)}
    (h : fields names (.obj members) = some known) :
    ∃ kept, fields names (Json.obj members).normalize = some kept ∧
      ∀ name, OrderedMap.find name kept = (OrderedMap.find name known).map Json.normalize := by
  simp only [fields] at h
  split_ifs at h with hnodup
  cases h
  refine ⟨OrderedMap.ofEntries ((members.filter fun member => names.contains member.1).map fun member =>
    (member.1, member.2.normalize)), ?_, fun name => ?_⟩
  · rw [Json.normalize_obj, fields, filter_normalize fun name => names.contains name]
    exact if_pos (OrderedMap.sorted_ofEntries _).nodup_keys
  · rw [OrderedMap.find_ofEntries (by rw [List.map_map]; exact hnodup),
      OrderedMap.find_map Json.normalize]

@[simp] theorem string_normalize (j : Json) : string j.normalize = string j := by
  cases j <;> simp [Json.normalize, string]

@[simp] theorem bool_normalize (j : Json) : bool j.normalize = bool j := by
  cases j <;> simp [Json.normalize, bool]

theorem option_normalize {α : Type} {decode : Json → Option α}
    (hdecode : ∀ j, decode j.normalize = decode j) (j : Json) :
    option decode j.normalize = option decode j := by
  cases j with
  | null => rfl
  | bool b | num n | str s => rw [Json.normalize]
  | arr items => exact congrArg (Option.map some) (hdecode (.arr items))
  | obj members => exact congrArg (Option.map some) (hdecode (.obj members))

@[simp] theorem toValue_normalize (j : Json) : j.normalize.toValue = j.toValue :=
  JsonValue.toValue_toJson j.toValue

section Members

variable {α : Type} {known kept : List (String × Json)} {decode : Json → Option α}

theorem required_normalize (name : String) (hdecode : ∀ j, decode j.normalize = decode j)
    (hkept : ∀ name, OrderedMap.find name kept = (OrderedMap.find name known).map Json.normalize) :
    required name decode kept = required name decode known := by
  rw [required, required, hkept]
  cases OrderedMap.find name known with
  | none => rfl
  | some j => exact hdecode j

theorem defaulted_normalize (name : String) (default : α) (hdecode : ∀ j, decode j.normalize = decode j)
    (hkept : ∀ name, OrderedMap.find name kept = (OrderedMap.find name known).map Json.normalize) :
    defaulted name default decode kept = defaulted name default decode known := by
  rw [defaulted, defaulted, hkept]
  cases OrderedMap.find name known with
  | none => rfl
  | some j => exact hdecode j

end Members

/-- A record of known members, none twice, is built from all of them. -/
theorem record_obj {α : Type} {names : List String} {members : List (String × Json)} {levels : Nat}
    {build : Nat → List (String × Json) → Option α} (hknown : ∀ member ∈ members, member.1 ∈ names)
    (hnodup : (members.map Prod.fst).Nodup) :
    record names (levels + 1) (.obj members) build = build levels members := by
  have hfilter : members.filter (fun member => names.contains member.1) = members :=
    List.filter_eq_self.mpr fun member hmem => by simpa using hknown member hmem
  simp only [record, enter_succ, fields, hfilter, hnodup, if_true, Option.bind_some]

end Decode

/-! ### Texts -/

/-- A JSON library as its callers see it: a writer, a reader of syntax trees, the text of the error for bytes that a
reader of the named type refuses, and the numbers that it reads back as it has written them. A document with no other
numbers comes back whole. -/
structure JsonCodec where
  toVec : Json → Bytes
  parse : Bytes → Option Json
  errorText : String → Bytes → String
  rereads : Numeral → Prop
  parse_toVec : ∀ j, j.Numbers rereads → parse (toVec j) = some j
  parse_nil : parse [] = none

namespace JsonCodec

variable (codec : JsonCodec) {α : Type}

/-- Read a text as a type. -/
def fromSlice (target : String) (decode : Nat → Json → Option α) (bytes : Bytes) :
    Except String α :=
  match (codec.parse bytes).bind (decode (Decode.recursionLimit - 1)) with
  | some a => .ok a
  | none => .error (codec.errorText target bytes)

theorem fromSlice_toVec {target : String} {decode : Nat → Json → Option α} {j : Json} {a : α}
    (hnumbers : j.Numbers codec.rereads) (h : decode (Decode.recursionLimit - 1) j = some a) :
    codec.fromSlice target decode (codec.toVec j) = .ok a := by
  simp only [fromSlice, codec.parse_toVec j hnumbers, Option.bind_some, h]

theorem fromSlice_toVec_none {target : String} {decode : Nat → Json → Option α} {j : Json}
    (hnumbers : j.Numbers codec.rereads) (h : decode (Decode.recursionLimit - 1) j = none) :
    codec.fromSlice target decode (codec.toVec j) = .error (codec.errorText target (codec.toVec j)) := by
  simp only [fromSlice, codec.parse_toVec j hnumbers, Option.bind_some, h]

/-- What has been written is read when the decoder takes it. -/
theorem exists_fromSlice_toVec (target : String) {decode : Nat → Json → Option α} {j : Json}
    (hnumbers : j.Numbers codec.rereads) : (∃ a, codec.fromSlice target decode (codec.toVec j) = .ok a) ↔
      (decode (Decode.recursionLimit - 1) j).isSome := by
  constructor
  · rintro ⟨a, h⟩
    rw [Option.isSome_iff_ne_none]
    intro hnone
    rw [fromSlice_toVec_none codec hnumbers hnone] at h
    cases h
  · intro h
    obtain ⟨a, hdecode⟩ := Option.isSome_iff_exists.mp h
    exact ⟨a, fromSlice_toVec codec hnumbers hdecode⟩

/-- What is read comes from a text of the syntax. -/
theorem parse_of_fromSlice {target : String} {decode : Nat → Json → Option α} {bytes : Bytes} {a : α}
    (h : codec.fromSlice target decode bytes = .ok a) :
    ∃ j, codec.parse bytes = some j ∧ decode (Decode.recursionLimit - 1) j = some a := by
  unfold fromSlice at h
  cases hparse : codec.parse bytes with
  | none =>
      rw [hparse] at h
      cases h
  | some j =>
      rw [hparse, Option.bind_some] at h
      cases hdecode : decode (Decode.recursionLimit - 1) j with
      | none =>
          rw [hdecode] at h
          cases h
      | some value =>
          rw [hdecode] at h
          cases h
          exact ⟨j, rfl, hdecode⟩

theorem toVec_ne_nil {j : Json} (hnumbers : j.Numbers codec.rereads) : codec.toVec j ≠ [] := by
  intro h
  have hparse := codec.parse_toVec j hnumbers
  rw [h, codec.parse_nil] at hparse
  cases hparse

end JsonCodec
