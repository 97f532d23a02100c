import TdsWasm.LibDecode

/-! TOML documents, and how a reader that a schema compiler derives decodes them: records that refuse
unknown keys, keys and whole tables with defaults, variants by their renamed names. The schema of a
table says which keys it has and what their values are like; a table as its schema describes it is read
without a gap. -/

set_option autoImplicit false

/-- A document. A number or a date that no reader looks into is kept as it is written. -/
inductive Toml where
  | string (s : String)
  | integer (i : Int64)
  | float (literal : String)
  | boolean (b : Bool)
  | datetime (literal : String)
  | array (items : List Toml)
  | table (entries : List (String × Toml))

namespace Toml

def get (key : String) : Toml → Option Toml
  | table entries => OrderedMap.find key entries
  | _ => none

/-- The value under a path of keys. -/
def locate (path : List String) (doc : Toml) : Option Toml := path.foldlM (fun doc key => doc.get key) doc

/-- The value under a path as it decodes, and a default where there is none. -/
def read {α : Type} (decode : Toml → Option α) (default : α) (path : List String) (doc : Toml) : Option α :=
  (doc.locate path).elim (some default) decode

/-! ### Decoding -/

def text : Toml → Option String
  | string s => some s
  | _ => none

def flag : Toml → Option Bool
  | boolean b => some b
  | _ => none

def natBelow (bound : Nat) : Toml → Option Nat
  | integer i => if 0 ≤ i.toInt ∧ i.toInt < bound then some i.toInt.toNat else none
  | _ => none

def u32 (doc : Toml) : Option UInt32 := (natBelow (2 ^ 32) doc).map UInt32.ofNat

def u64 (doc : Toml) : Option UInt64 := (natBelow (2 ^ 64) doc).map UInt64.ofNat

/-- A size, on a host of 64 bits. -/
def usize : Toml → Option Nat := natBelow (2 ^ 64)

def texts : Toml → Option (List String)
  | array items => items.mapM text
  | _ => none

/-- The named fields of a record that refuses unknown keys: the entries of a table, or the items of an
array in the order of the names. -/
def fields (names : List String) : Toml → Option (List (String × Toml))
  | table entries =>
      if (entries.map Prod.fst).Nodup ∧ ∀ key ∈ entries.map Prod.fst, key ∈ names then some entries else none
  | array items => some (names.zip items)
  | _ => none

def required {α : Type} (name : String) (decode : Toml → Option α) (fields : List (String × Toml)) :
    Option α := (OrderedMap.find name fields).bind decode

def defaulted {α : Type} (name : String) (default : α) (decode : Toml → Option α)
    (fields : List (String × Toml)) : Option α := (OrderedMap.find name fields).elim (some default) decode

/-- A variant's name in lower case, with an underscore before every capital inside it. -/
def snakeCase (variant : String) : String :=
  match variant.toList with
  | [] => ""
  | first :: rest => String.ofList (first.toLower :: rest.flatMap fun c =>
      if c.isUpper then ['_', c.toLower] else [c.toLower])

/-- The name of a variant without data: a string, or a table that maps the name to nothing. -/
def unitVariant : Toml → Option String
  | string name => some name
  | table [(name, table [])] => some name
  | table [(name, array [])] => some name
  | _ => none

/-- A variant by its name in snake case. -/
def variant {α : Type} (variants : List (String × α)) (doc : Toml) : Option α :=
  (unitVariant doc).bind fun name => (variants.map fun v => (snakeCase v.1, v.2)).lookup name

/-! ### Schemas -/

/-- What a schema says of one key of a table: its name, what its values are like, and whether a table
may leave it out. -/
structure Key where
  name : String
  admits : Toml → Prop
  optional : Bool

structure Schema where
  keys : List Key
  nodup : (keys.map Key.name).Nodup

/-- The entries of a table as its schema describes them. -/
structure Described (schema : Schema) (entries : List (String × Toml)) : Prop where
  nodup : (entries.map Prod.fst).Nodup
  known : ∀ entry ∈ entries, ∃ key ∈ schema.keys, key.name = entry.1 ∧ key.admits entry.2
  complete : ∀ key ∈ schema.keys, key.optional = false → key.name ∈ entries.map Prod.fst

/-- A table of a schema. -/
def Table (schema : Schema) (doc : Toml) : Prop := ∃ entries, doc = table entries ∧ Described schema entries

/-- A number between nothing and a bound. -/
def Natural (bound : Nat) (doc : Toml) : Prop := ∃ i, doc = integer i ∧ 0 ≤ i.toInt ∧ i.toInt < bound

/-- One of these words. -/
def Word (words : List String) (doc : Toml) : Prop := ∃ s ∈ words, doc = string s

def IsText (doc : Toml) : Prop := ∃ s, doc = string s

def IsFlag (doc : Toml) : Prop := ∃ b, doc = boolean b

def AreTexts (doc : Toml) : Prop := ∃ items : List String, doc = array (items.map string)

/-- Wherever there is a number under the path, it is not below the bound. -/
def AtLeast (bound : Nat) (path : List String) (doc : Toml) : Prop :=
  ∀ i, doc.locate path = some (integer i) → (bound : Int) ≤ i.toInt

/-- Every value of a kind is read by a decoder. -/
def Decodes {α : Type} (kind : Toml → Prop) (decode : Toml → Option α) : Prop :=
  ∀ value, kind value → ∃ a, decode value = some a

/-! ### Rules -/

variable {entries : List (String × Toml)}

theorem decodes_text : Decodes IsText text := by
  rintro _ ⟨s, rfl⟩
  exact ⟨s, rfl⟩

theorem decodes_flag : Decodes IsFlag flag := by
  rintro _ ⟨b, rfl⟩
  exact ⟨b, rfl⟩

theorem texts_array (items : List String) : texts (array (items.map string)) = some items := by
  have hitem : ∀ item ∈ items, text (string item) = some (id item) := fun _ _ => rfl
  rw [texts, Decode.mapM_map hitem, List.map_id]

theorem decodes_texts : Decodes AreTexts texts := by
  rintro _ ⟨items, rfl⟩
  exact ⟨items, texts_array items⟩

theorem natBelow_eq_some_iff {bound n : Nat} {doc : Toml} :
    natBelow bound doc = some n ↔ ∃ i, doc = integer i ∧ i.toInt = n ∧ n < bound := by
  cases doc with
  | integer i =>
      simp only [natBelow, Option.ite_none_right_eq_some, Option.some.injEq, integer.injEq]
      constructor
      · rintro ⟨hrange, rfl⟩
        exact ⟨i, rfl, by omega, by omega⟩
      · rintro ⟨_, rfl, hvalue, hbound⟩
        exact ⟨by omega, by omega⟩
  | _ => simp [natBelow]

theorem decodes_natBelow (bound : Nat) : Decodes (Natural bound) (natBelow bound) := by
  rintro _ ⟨i, rfl, hlow, hhigh⟩
  exact ⟨i.toInt.toNat, natBelow_eq_some_iff.mpr ⟨i, rfl, by omega, by omega⟩⟩

theorem decodes_u32 : Decodes (Natural (2 ^ 32)) u32 := by
  intro value h
  obtain ⟨n, hn⟩ := decodes_natBelow _ value h
  exact ⟨UInt32.ofNat n, by rw [u32, hn, Option.map_some]⟩

theorem decodes_u64 : Decodes (Natural (2 ^ 64)) u64 := by
  intro value h
  obtain ⟨n, hn⟩ := decodes_natBelow _ value h
  exact ⟨UInt64.ofNat n, by rw [u64, hn, Option.map_some]⟩

theorem decodes_usize : Decodes (Natural (2 ^ 64)) usize := decodes_natBelow _

theorem integer_of_usize {doc : Toml} {n : Nat} (h : usize doc = some n) :
    ∃ i, doc = integer i ∧ i.toInt = n := by
  obtain ⟨i, hdoc, hi, _⟩ := natBelow_eq_some_iff.mp h
  exact ⟨i, hdoc, hi⟩

theorem integer_of_u32 {doc : Toml} {n : UInt32} (h : u32 doc = some n) :
    ∃ i, doc = integer i ∧ i.toInt = n.toNat := by
  obtain ⟨m, hm, rfl⟩ := Option.map_eq_some_iff.mp h
  obtain ⟨i, hdoc, hi, hbound⟩ := natBelow_eq_some_iff.mp hm
  exact ⟨i, hdoc, by rw [hi, UInt32.toNat_ofNat_of_lt' hbound]⟩

theorem integer_of_u64 {doc : Toml} {n : UInt64} (h : u64 doc = some n) :
    ∃ i, doc = integer i ∧ i.toInt = n.toNat := by
  obtain ⟨m, hm, rfl⟩ := Option.map_eq_some_iff.mp h
  obtain ⟨i, hdoc, hi, hbound⟩ := natBelow_eq_some_iff.mp hm
  exact ⟨i, hdoc, by rw [hi, UInt64.toNat_ofNat_of_lt' hbound]⟩

/-- A number that is read with a default keeps a bound that the default keeps exactly when the document
keeps it. -/
theorem atLeast_iff {α : Type} {decode : Toml → Option α} {toNat : α → Nat}
    (hdecode : ∀ {doc a}, decode doc = some a → ∃ i, doc = integer i ∧ i.toInt = toNat a)
    {bound : Nat} {default a : α} {path : List String} {doc : Toml}
    (hread : doc.read decode default path = some a) (hdefault : bound ≤ toNat default) :
    AtLeast bound path doc ↔ bound ≤ toNat a := by
  unfold AtLeast
  unfold read at hread
  cases hvalue : doc.locate path with
  | none =>
      rw [hvalue] at hread
      cases hread
      simpa using hdefault
  | some value =>
      rw [hvalue] at hread
      obtain ⟨i, rfl, hi⟩ := hdecode hread
      constructor
      · intro h
        have := h i rfl
        omega
      · rintro h _ ⟨⟩
        omega

theorem locate_section (name key : String) : (table entries).locate [name, key] =
    (OrderedMap.find name entries).bind fun value => value.get key := by
  cases hfind : OrderedMap.find name entries <;> simp [locate, List.foldlM, get, hfind]

theorem fields_table {names : List String} {known : List (String × Toml)}
    (h : fields names (table entries) = some known) : known = entries := by
  rw [fields] at h
  split_ifs at h
  cases h
  rfl

namespace Described

variable {schema : Schema}

/-- A table with all keys of its schema, in order. -/
theorem of_forall₂ (h : List.Forall₂ (fun key entry => key.name = entry.1 ∧ key.admits entry.2) schema.keys entries) :
    Described schema entries := by
  have hnames : schema.keys.map Key.name = entries.map Prod.fst := by
    rw [← List.forall₂_eq_eq_eq, List.forall₂_map_left_iff, List.forall₂_map_right_iff]
    exact h.imp fun key entry hboth => hboth.1
  have hknown : ∀ entry ∈ entries, ∃ key ∈ schema.keys, key.name = entry.1 ∧ key.admits entry.2 := by
    clear hnames
    generalize schema.keys = keys at h
    induction h with
    | nil =>
        intro entry hentry
        cases hentry
    | cons hhead _ ih =>
        intro entry hentry
        rcases List.mem_cons.mp hentry with rfl | hrest
        · exact ⟨_, List.mem_cons_self, hhead⟩
        · obtain ⟨key, hkey, hboth⟩ := ih entry hrest
          exact ⟨key, List.mem_cons_of_mem _ hkey, hboth⟩
  exact ⟨hnames ▸ schema.nodup, hknown, fun key hkey _ => hnames ▸ List.mem_map_of_mem hkey⟩

/-- A described table has no key that a reader of its schema refuses. -/
theorem fields (h : Described schema entries) :
    Toml.fields (schema.keys.map Key.name) (table entries) = some entries := by
  have hknown : ∀ key ∈ entries.map Prod.fst, key ∈ schema.keys.map Key.name := by
    intro key hkey
    obtain ⟨entry, hentry, rfl⟩ := List.mem_map.mp hkey
    obtain ⟨described, hmem, hname, _⟩ := h.known entry hentry
    exact hname ▸ List.mem_map_of_mem hmem
  rw [Toml.fields, if_pos ⟨h.nodup, hknown⟩]

variable {name : String} {kind : Toml → Prop} {optional : Bool}

/-- What is found under a key is as the schema says of that key. -/
theorem admits (h : Described schema entries) (hkey : ⟨name, kind, optional⟩ ∈ schema.keys) {value : Toml}
    (hfind : OrderedMap.find name entries = some value) : kind value := by
  obtain ⟨described, hmem, hname, hadmits⟩ := h.known _ (OrderedMap.mem_of_find hfind)
  rwa [List.inj_on_of_nodup_map schema.nodup hmem hkey hname] at hadmits

theorem find_required (h : Described schema entries) (name : String) (hkey : ⟨name, kind, false⟩ ∈ schema.keys) :
    ∃ value, OrderedMap.find name entries = some value ∧ kind value := by
  obtain ⟨⟨_, value⟩, hmem, rfl⟩ := List.mem_map.mp (h.complete _ hkey rfl)
  have hfind := OrderedMap.find_of_nodup h.nodup hmem
  exact ⟨value, hfind, h.admits hkey hfind⟩

theorem required {α : Type} {decode : Toml → Option α} (h : Described schema entries) (name : String)
    (hdecode : Decodes kind decode) (hkey : ⟨name, kind, false⟩ ∈ schema.keys) :
    ∃ a, Toml.required name decode entries = some a := by
  obtain ⟨value, hfind, hkind⟩ := h.find_required name hkey
  obtain ⟨a, ha⟩ := hdecode value hkind
  exact ⟨a, by rw [Toml.required, hfind, Option.bind_some, ha]⟩

theorem defaulted {α : Type} {decode : Toml → Option α} (h : Described schema entries) (name : String)
    (default : α) (hkey : ⟨name, kind, true⟩ ∈ schema.keys)
    (hdecode : ∀ value, OrderedMap.find name entries = some value → kind value → ∃ a, decode value = some a) :
    ∃ a, Toml.defaulted name default decode entries = some a := by
  unfold Toml.defaulted
  cases hfind : OrderedMap.find name entries with
  | none => exact ⟨default, rfl⟩
  | some value => exact hdecode value hfind (h.admits hkey hfind)

/-- What is found under a section and a key is as the schema of the section says of that key. -/
theorem admits_section (h : Described schema entries) {sub : Schema}
    (hsection : ⟨name, Table sub, true⟩ ∈ schema.keys) {key : String}
    (hkey : ⟨key, kind, optional⟩ ∈ sub.keys) {value : Toml}
    (hvalue : (table entries).locate [name, key] = some value) : kind value := by
  rw [locate_section] at hvalue
  obtain ⟨found, hfound, hget⟩ := Option.bind_eq_some_iff.mp hvalue
  obtain ⟨entries, rfl, hdescribed⟩ := h.admits hsection hfound
  exact hdescribed.admits hkey hget

/-- What a decoder of a section reads of one key is what the document has under the section and the key. -/
theorem read {σ α : Type} {decodeSection : Toml → Option σ} {decode : Toml → Option α} {default s : σ}
    (h : Described schema entries) {sub : Schema} (hkey : ⟨name, Table sub, true⟩ ∈ schema.keys)
    {key : String} (field : σ → α)
    (hfield : ∀ {inner s}, decodeSection (table inner) = some s →
      Toml.required key decode inner = some (field s))
    (hsection : Toml.defaulted name default decodeSection entries = some s) :
    (table entries).read decode (field default) [name, key] = some (field s) := by
  unfold Toml.defaulted at hsection
  rw [Toml.read, locate_section]
  cases hfind : OrderedMap.find name entries with
  | none =>
      rw [hfind] at hsection
      cases hsection
      rfl
  | some value =>
      rw [hfind] at hsection
      obtain ⟨inner, rfl, _⟩ := h.admits hkey hfind
      obtain ⟨found, hfound, hdecode⟩ := Option.bind_eq_some_iff.mp (hfield hsection)
      rw [Option.bind_some, get, hfound]
      exact hdecode

end Described

end Toml
