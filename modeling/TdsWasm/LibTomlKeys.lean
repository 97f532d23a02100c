import TdsWasm.LibToml

/-! Tables without some of their keys. A record whose keys all are required decodes from no smaller table; a key
that has a default may go, and the record then has the default. -/

set_option autoImplicit false

namespace Toml

/-- The table without the keys that are gone. What is no table has no keys to lose. -/
def without (gone : String → Bool) : Toml → Toml
  | table entries => table (entries.filter fun entry => !gone entry.1)
  | doc => doc

/-- The table with what it has under one key changed. -/
def adjust (name : String) (change : Toml → Toml) : Toml → Toml
  | table entries => table (entries.map fun entry => (entry.1, if entry.1 = name then change entry.2 else entry.2))
  | doc => doc

variable {entries known : List (String × Toml)} {names : List String}

/-! ### Keys -/

theorem get_isSome_iff {key : String} : ((table entries).get key).isSome ↔ key ∈ entries.map Prod.fst := by
  rw [← Option.ne_none_iff_isSome, get, ne_eq, OrderedMap.find_eq_none_iff, not_not]

theorem get_without (gone : String → Bool) (key : String) (doc : Toml) :
    (doc.without gone).get key = if gone key then none else doc.get key := by
  cases doc with
  | table entries =>
      rw [without, get, OrderedMap.find_filter fun name => !gone name, get]
      cases gone key <;> rfl
  | _ => exact (ite_self _).symm

theorem get_adjust (name : String) (change : Toml → Toml) (key : String) (doc : Toml) :
    (doc.adjust name change).get key = (doc.get key).map fun value => if key = name then change value else value := by
  cases doc with
  | table entries =>
      rw [adjust, get, get]
      induction entries with
      | nil => rfl
      | cons entry rest ih =>
          rw [List.map_cons, OrderedMap.find, OrderedMap.find]
          by_cases heq : entry.1 = key
          · rw [if_pos heq, if_pos heq, Option.map_some, heq]
          · rw [if_neg heq, if_neg heq, ih]
  | _ => rfl

/-- A table that loses none of its keys stays as it is. -/
theorem without_eq_self {gone : String → Bool} {doc : Toml}
    (h : ∀ key, (doc.get key).isSome → gone key = false) : doc.without gone = doc := by
  cases doc with
  | table entries =>
      have hkept : ∀ entry ∈ entries, (!gone entry.1) = true := by
        intro entry hmem
        rw [h entry.1 (get_isSome_iff.mpr (List.mem_map_of_mem hmem))]
        rfl
      rw [without, List.filter_eq_self.mpr hkept]
  | _ => rfl

theorem locate_two (doc : Toml) (first second : String) :
    doc.locate [first, second] = (doc.get first).bind (get second) := by
  cases hfirst : doc.get first <;> simp [locate, List.foldlM, hfirst]

theorem locate_three (doc : Toml) (first second third : String) :
    doc.locate [first, second, third] = ((doc.get first).bind (get second)).bind (get third) := by
  cases hfirst : doc.get first with
  | none => simp [locate, List.foldlM, hfirst]
  | some value => cases hsecond : value.get second <;> simp [locate, List.foldlM, hfirst, hsecond]

/-! ### Fields -/

theorem fields_table_iff : fields names (table entries) = some known ↔
    entries = known ∧ (entries.map Prod.fst).Nodup ∧ ∀ key ∈ entries.map Prod.fst, key ∈ names := by
  rw [fields]
  split_ifs with hkeys
  · rw [Option.some.injEq, and_iff_left hkeys]
  · refine iff_of_false (fun h => ?_) fun h => hkeys h.2
    cases h

theorem fields_without (gone : String → Bool) (h : fields names (table entries) = some known) :
    ∃ rest, (table entries).without gone = table rest ∧ fields names (table rest) = some rest := by
  obtain ⟨_, hnodup, hnames⟩ := fields_table_iff.mp h
  refine ⟨_, rfl, fields_table_iff.mpr ⟨rfl, ?_, ?_⟩⟩
  · exact hnodup.sublist (List.filter_sublist.map Prod.fst)
  · intro key hkey
    obtain ⟨entry, hentry, rfl⟩ := List.mem_map.mp hkey
    exact hnames _ (List.mem_map_of_mem (List.mem_of_mem_filter hentry))

theorem fields_adjust (name : String) (change : Toml → Toml) (h : fields names (table entries) = some known) :
    ∃ changed, (table entries).adjust name change = table changed ∧ fields names (table changed) = some changed := by
  have hkeys : (entries.map fun entry => (entry.1, if entry.1 = name then change entry.2 else entry.2)).map Prod.fst =
      entries.map Prod.fst := by
    rw [List.map_map]
    rfl
  refine ⟨_, rfl, fields_table_iff.mpr ⟨rfl, ?_⟩⟩
  rw [hkeys]
  exact (fields_table_iff.mp h).2

/-! ### Records -/

variable {α : Type} {decode : Toml → Option α} {doc : Toml} {a : α}

/-- The decoder takes a table only with exactly these keys. -/
def Strict (names : List String) (decode : Toml → Option α) : Prop :=
  ∀ entries a, decode (table entries) = some a → ∀ key, key ∈ entries.map Prod.fst ↔ key ∈ names

theorem find_isSome_of_required {name : String} (h : required name decode entries = some a) :
    (OrderedMap.find name entries).isSome := by
  obtain ⟨value, hfind, _⟩ := Option.bind_eq_some_iff.mp h
  rw [hfind, Option.isSome_some]

/-- A table with every key of a record has its keys only. -/
theorem keys_of_required (hfields : fields names (table entries) = some known)
    (hrequired : names.Forall fun name => (OrderedMap.find name known).isSome) (key : String) :
    key ∈ entries.map Prod.fst ↔ key ∈ names := by
  obtain ⟨rfl, _, hnames⟩ := fields_table_iff.mp hfields
  refine ⟨hnames key, fun hmem => ?_⟩
  exact get_isSome_iff.mp (List.forall_iff_forall_mem.mp hrequired key hmem)

/-- What such a decoder takes is no longer taken once a key is gone. -/
theorem Strict.decode_without_iff (hstrict : Strict names decode) (hdecode : decode doc = some a)
    {gone : String → Bool} {b : α} :
    decode (doc.without gone) = some b ↔ b = a ∧ ∀ key, (doc.get key).isSome → gone key = false := by
  constructor
  · intro hrest
    have hkept : ∀ key, (doc.get key).isSome → gone key = false := by
      intro key hkey
      cases doc with
      | table entries =>
          have hname := (hstrict _ _ hdecode key).mp (get_isSome_iff.mp hkey)
          have hleft : (((table entries).without gone).get key).isSome :=
            get_isSome_iff.mpr ((hstrict _ _ hrest key).mpr hname)
          rw [get_without] at hleft
          cases hgone : gone key with
          | false => rfl
          | true =>
              rw [hgone, if_pos rfl] at hleft
              cases hleft
      | _ => cases hkey
    rw [without_eq_self hkept, hdecode] at hrest
    exact ⟨(Option.some.inj hrest).symm, hkept⟩
  · rintro ⟨rfl, hkept⟩
    rw [without_eq_self hkept, hdecode]

/-- A section of such a record, or its default where there is no section. -/
theorem Strict.elim_without_iff {found : Option Toml} {default : α} (hstrict : Strict names decode)
    (hdecode : found.elim (some default) decode = some a) {gone : String → Bool} {b : α} :
    (found.map (without gone)).elim (some default) decode = some b ↔
      b = a ∧ ∀ key, (found.bind (get key)).isSome → gone key = false := by
  cases found with
  | none =>
      obtain rfl := Option.some.inj hdecode
      simp only [Option.map_none, Option.elim_none, Option.some.injEq, Option.bind_none, Option.isSome_none,
        Bool.false_eq_true, false_implies, implies_true, and_true]
      exact eq_comm
  | some doc =>
      rw [Option.map_some, Option.elim_some]
      exact hstrict.decode_without_iff hdecode

section Defaulting

variable {found : Option Toml} {default : α} {defaulting : (String → Bool) → α → α} {gone : String → Bool}

/-- What is decoded after a deletion is what was decoded, with the defaults of the deleted keys, exactly when no
key of the section is deleted. -/
theorem Strict.defaulting_iff (hstrict : Strict names decode) (hself : ∀ a, defaulting (fun _ => false) a = a)
    (hdecode : found.elim (some default) decode = some a) {deleted : String → Bool}
    (hdeleted : ∀ key, deleted key = (gone key && (found.bind (get key)).isSome)) :
    (found.map (without gone)).elim (some default) decode = some (defaulting deleted a) ↔
      ∀ key, deleted key = false := by
  have hkept : (∀ key, deleted key = false) ↔ ∀ key, (found.bind (get key)).isSome → gone key = false := by
    apply forall_congr'
    intro key
    rw [hdeleted]
    cases (found.bind (get key)).isSome <;> cases gone key <;> decide
  rw [hstrict.elim_without_iff hdecode, ← hkept]
  refine ⟨fun h => h.2, fun h => ⟨?_, h⟩⟩
  rw [funext h, hself]

/-- The same for a section that may be deleted as a whole. -/
theorem Strict.defaulting_section_iff (hstrict : Strict names decode)
    (hself : ∀ a, defaulting (fun _ => false) a = a) (hdecode : found.elim (some default) decode = some a)
    {deleted : String → Bool} (hdeleted : ∀ key, deleted key = (gone key && (found.bind (get key)).isSome))
    (whole : Bool) :
    (if whole then none else found.map (without gone)).elim (some default) decode =
        some (if whole && found.isSome then default else defaulting deleted a) ↔
      (whole && found.isSome) = true ∨ ∀ key, deleted key = false := by
  cases whole with
  | false =>
      rw [Bool.false_and, if_neg Bool.false_ne_true, if_neg Bool.false_ne_true,
        or_iff_right Bool.false_ne_true]
      exact hstrict.defaulting_iff hself hdecode hdeleted
  | true =>
      rw [Bool.true_and, if_pos rfl, Option.elim_none]
      cases found with
      | none =>
          have hnone : ∀ key, deleted key = false := by
            intro key
            rw [hdeleted, Option.bind_none, Option.isSome_none, Bool.and_false]
          rw [Option.isSome_none, if_neg Bool.false_ne_true, funext hnone, hself]
          exact iff_of_true hdecode (Or.inr fun _ => rfl)
      | some doc => exact iff_of_true rfl (Or.inl rfl)

end Defaulting

end Toml
