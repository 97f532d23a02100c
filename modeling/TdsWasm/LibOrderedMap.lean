import Mathlib.Order.Defs.LinearOrder
import Mathlib.Data.List.Induction
import Mathlib.Data.List.Sort

/-! Ordered maps as association lists with strictly increasing keys. The list functions come
first, since a recursive type can nest a list but not a structure that carries a proof about it;
`OrderedMap` packages them with the invariant. -/

set_option autoImplicit false

namespace OrderedMap

variable {κ ν : Type} [LinearOrder κ]

/-- Keys strictly increase along the list. -/
def Sorted (entries : List (κ × ν)) : Prop :=
  entries.Pairwise fun left right => left.1 < right.1

def find (key : κ) : List (κ × ν) → Option ν
  | [] => none
  | (k, v) :: rest => if k = key then some v else find key rest

/-- Insert an entry at its place, replacing the value of a key that is already there. -/
def insertEntry (key : κ) (value : ν) : List (κ × ν) → List (κ × ν)
  | [] => [(key, value)]
  | (k, v) :: rest =>
      if key < k then (key, value) :: (k, v) :: rest
      else if key = k then (key, value) :: rest
      else (k, v) :: insertEntry key value rest

/-- Insert every entry in turn, so a later entry replaces an earlier one of the same key. -/
def ofEntries (entries : List (κ × ν)) : List (κ × ν) :=
  entries.foldl (fun built entry => insertEntry entry.1 entry.2 built) []

theorem mem_insertEntry {key : κ} {value : ν} {entries : List (κ × ν)} {entry : κ × ν}
    (hmem : entry ∈ insertEntry key value entries) : entry = (key, value) ∨ entry ∈ entries := by
  induction entries with
  | nil => simpa [insertEntry] using hmem
  | cons head rest ih =>
      obtain ⟨k, v⟩ := head
      rw [insertEntry] at hmem
      split_ifs at hmem
      · simpa using hmem
      · rcases List.mem_cons.mp hmem with h | h
        · exact Or.inl h
        · exact Or.inr (List.mem_cons_of_mem _ h)
      · rcases List.mem_cons.mp hmem with h | h
        · exact Or.inr (by simp [h])
        · rcases ih h with h | h
          · exact Or.inl h
          · exact Or.inr (List.mem_cons_of_mem _ h)

theorem sorted_insertEntry (key : κ) (value : ν) {entries : List (κ × ν)}
    (hsorted : Sorted entries) : Sorted (insertEntry key value entries) := by
  induction entries with
  | nil => simp [insertEntry, Sorted]
  | cons head rest ih =>
      obtain ⟨k, v⟩ := head
      obtain ⟨hhead, hrest⟩ := List.pairwise_cons.mp hsorted
      rw [insertEntry]
      split_ifs with hlt heq
      · refine List.pairwise_cons.mpr ⟨?_, hsorted⟩
        intro entry hmem
        rcases List.mem_cons.mp hmem with rfl | hmem
        · exact hlt
        · exact hlt.trans (hhead entry hmem)
      · subst heq
        exact List.pairwise_cons.mpr ⟨hhead, hrest⟩
      · refine List.pairwise_cons.mpr ⟨?_, ih hrest⟩
        intro entry hmem
        rcases mem_insertEntry hmem with rfl | hmem
        · exact lt_of_le_of_ne (not_lt.mp hlt) (Ne.symm heq)
        · exact hhead entry hmem

theorem find_insertEntry_self (key : κ) (value : ν) (entries : List (κ × ν)) :
    find key (insertEntry key value entries) = some value := by
  induction entries with
  | nil => simp [insertEntry, find]
  | cons head rest ih =>
      obtain ⟨k, v⟩ := head
      rw [insertEntry]
      split_ifs with hlt heq
      · simp [find]
      · simp [find]
      · rw [find, if_neg (Ne.symm heq), ih]

theorem find_insertEntry_of_ne {key other : κ} (value : ν) (entries : List (κ × ν))
    (hne : other ≠ key) : find other (insertEntry key value entries) = find other entries := by
  induction entries with
  | nil => simp [insertEntry, find, Ne.symm hne]
  | cons head rest ih =>
      obtain ⟨k, v⟩ := head
      rw [insertEntry]
      split_ifs with hlt heq
      · rw [find, if_neg (Ne.symm hne)]
      · subst heq
        simp [find, Ne.symm hne]
      · simp only [find, ih]

theorem mem_of_find {key : κ} {value : ν} {entries : List (κ × ν)}
    (hfind : find key entries = some value) : (key, value) ∈ entries := by
  induction entries with
  | nil => simp [find] at hfind
  | cons head rest ih =>
      rw [find] at hfind
      split_ifs at hfind with heq
      · cases hfind
        exact List.mem_cons.mpr (Or.inl (by simp [← heq]))
      · exact List.mem_cons_of_mem _ (ih hfind)

theorem length_insertEntry (key : κ) (value : ν) (entries : List (κ × ν)) :
    (insertEntry key value entries).length ≤ entries.length + 1 ∧
      ((find key entries).isSome → Sorted entries → (insertEntry key value entries).length = entries.length) := by
  induction entries with
  | nil => exact ⟨le_rfl, fun h => by cases h⟩
  | cons head rest ih =>
      obtain ⟨k, v⟩ := head
      rw [insertEntry]
      split_ifs with hlt heq
      · refine ⟨le_rfl, fun hfound hsorted => ?_⟩
        obtain ⟨found, hfind⟩ := Option.isSome_iff_exists.mp hfound
        rcases List.mem_cons.mp (mem_of_find hfind) with hhead | hrest
        · rw [(Prod.mk.inj hhead).1] at hlt
          exact absurd hlt (lt_irrefl k)
        · exact absurd (hlt.trans ((List.pairwise_cons.mp hsorted).1 _ hrest)) (lt_irrefl _)
      · exact ⟨Nat.le_succ _, fun _ _ => rfl⟩
      · refine ⟨Nat.succ_le_succ ih.1, fun hfound hsorted => congrArg Nat.succ (ih.2 ?_ hsorted.of_cons)⟩
        rwa [find, if_neg (Ne.symm heq)] at hfound

theorem Sorted.nodup_keys {entries : List (κ × ν)} (hsorted : Sorted entries) :
    (entries.map Prod.fst).Nodup :=
  List.pairwise_map.mpr (List.Pairwise.imp (fun hlt => hlt.ne) hsorted)

theorem find_of_nodup {key : κ} {value : ν} {entries : List (κ × ν)} (hnodup : (entries.map Prod.fst).Nodup)
    (hmem : (key, value) ∈ entries) : find key entries = some value := by
  induction entries with
  | nil => simp at hmem
  | cons head rest ih =>
      obtain ⟨hhead, hrest⟩ := List.nodup_cons.mp hnodup
      rcases List.mem_cons.mp hmem with rfl | hmem
      · simp [find]
      · have hne : head.1 ≠ key := fun heq => hhead (heq ▸ List.mem_map_of_mem hmem)
        rw [find, if_neg hne, ih hrest hmem]

theorem find_of_mem {key : κ} {value : ν} {entries : List (κ × ν)} (hsorted : Sorted entries)
    (hmem : (key, value) ∈ entries) : find key entries = some value :=
  find_of_nodup hsorted.nodup_keys hmem

/-- A sorted list is determined by what it holds at each key. -/
theorem sorted_ext {left right : List (κ × ν)} (hleft : Sorted left) (hright : Sorted right)
    (hfind : ∀ key, find key left = find key right) : left = right := by
  have hmem : ∀ entry, entry ∈ left ↔ entry ∈ right := by
    intro entry
    constructor
    · intro h
      apply mem_of_find
      calc find entry.1 right = find entry.1 left := (hfind entry.1).symm
        _ = some entry.2 := find_of_mem hleft h
    · intro h
      apply mem_of_find
      calc find entry.1 left = find entry.1 right := hfind entry.1
        _ = some entry.2 := find_of_mem hright h
  have hnodup : ∀ {entries : List (κ × ν)}, Sorted entries → entries.Nodup := fun h =>
    List.Pairwise.imp (fun hlt heq => by simp [heq] at hlt) h
  have hperm : left.Perm right :=
    (List.perm_ext_iff_of_nodup (hnodup hleft) (hnodup hright)).mpr hmem
  exact hperm.eq_of_pairwise (fun a b _ _ hab hba => absurd hba (lt_asymm hab)) hleft hright

theorem ofEntries_append (entries : List (κ × ν)) (entry : κ × ν) :
    ofEntries (entries ++ [entry]) = insertEntry entry.1 entry.2 (ofEntries entries) := by
  rw [ofEntries, List.foldl_append]
  rfl

theorem sorted_ofEntries (entries : List (κ × ν)) : Sorted (ofEntries entries) := by
  induction entries using List.reverseRecOn with
  | nil => exact List.Pairwise.nil
  | append_singleton entries entry ih =>
      rw [ofEntries_append]
      exact sorted_insertEntry _ _ ih

/-- The last entry of a key wins. -/
theorem find_ofEntries_reverse (key : κ) (entries : List (κ × ν)) :
    find key (ofEntries entries) = find key entries.reverse := by
  induction entries using List.reverseRecOn with
  | nil => rfl
  | append_singleton entries entry ih =>
      rw [ofEntries_append, List.reverse_append, List.reverse_singleton, List.singleton_append, find]
      split_ifs with heq
      · rw [heq, find_insertEntry_self]
      · rw [find_insertEntry_of_ne _ _ (Ne.symm heq), ih]

theorem find_eq_head? (key : κ) (entries : List (κ × ν)) :
    find key entries = (entries.filter fun entry => entry.1 = key).head?.map Prod.snd := by
  induction entries with
  | nil => rfl
  | cons entry rest ih =>
      rw [find, List.filter_cons]
      by_cases heq : entry.1 = key
      · rw [if_pos heq, if_pos (decide_eq_true heq)]
        rfl
      · rw [if_neg heq, if_neg (by simpa using heq), ih]

/-- A key that occurs once is found in either direction, and in the map. -/
theorem find_ofEntries_of_unique {key : κ} {entries : List (κ × ν)}
    (hunique : (entries.filter fun entry => entry.1 = key).length ≤ 1) :
    find key (ofEntries entries) = find key entries := by
  rw [find_ofEntries_reverse, find_eq_head?, find_eq_head?, List.filter_reverse]
  cases hfilter : entries.filter fun entry => entry.1 = key with
  | nil => rfl
  | cons entry rest =>
      rw [hfilter, List.length_cons, Nat.succ_le_succ_iff, Nat.le_zero, List.length_eq_zero_iff] at hunique
      rw [hunique]
      rfl

theorem length_filter_key_le {entries : List (κ × ν)} (hnodup : (entries.map Prod.fst).Nodup) (key : κ) :
    (entries.filter fun entry => entry.1 = key).length ≤ 1 := by
  have hcount := List.nodup_iff_count_le_one.mp hnodup key
  rw [List.count, List.countP_map, List.countP_eq_length_filter] at hcount
  exact hcount

/-- With distinct keys, building the map keeps every entry. -/
theorem find_ofEntries {entries : List (κ × ν)} (hnodup : (entries.map Prod.fst).Nodup)
    (key : κ) : find key (ofEntries entries) = find key entries :=
  find_ofEntries_of_unique (length_filter_key_le hnodup key)

theorem find_eq_none_iff {key : κ} {entries : List (κ × ν)} :
    find key entries = none ↔ key ∉ entries.map Prod.fst := by
  induction entries with
  | nil => simp [find]
  | cons entry rest ih =>
      rw [find]
      split_ifs with heq
      · simp [heq]
      · rw [ih, List.map_cons, List.mem_cons, not_or]
        exact ⟨fun h => ⟨Ne.symm heq, h⟩, fun h => h.2⟩

theorem find_map {μ : Type} (f : ν → μ) (key : κ) (entries : List (κ × ν)) :
    find key (entries.map fun entry => (entry.1, f entry.2)) = (find key entries).map f := by
  induction entries with
  | nil => rfl
  | cons entry rest ih =>
      rw [List.map_cons, find, find, ih]
      split_ifs <;> rfl

theorem find_filter (p : κ → Bool) (key : κ) (entries : List (κ × ν)) :
    find key (entries.filter fun entry => p entry.1) = if p key then find key entries else none := by
  induction entries with
  | nil => simp [find]
  | cons entry rest ih =>
      rw [List.filter_cons]
      by_cases heq : entry.1 = key
      · subst heq
        by_cases hp : p entry.1 = true
        · rw [if_pos hp, if_pos hp, find, find, if_pos rfl, if_pos rfl]
        · rw [if_neg hp, if_neg hp, ih, if_neg hp]
      · rw [find, if_neg heq, ← ih]
        split_ifs
        · rw [find, if_neg heq]
        · rfl

/-- Entries can be left out before or after the map is built. -/
theorem filter_ofEntries (p : κ → Bool) (entries : List (κ × ν)) :
    (ofEntries entries).filter (fun entry => p entry.1) =
      ofEntries (entries.filter fun entry => p entry.1) := by
  apply sorted_ext (List.Pairwise.filter _ (sorted_ofEntries entries)) (sorted_ofEntries _)
  intro key
  rw [find_filter, find_ofEntries_reverse, find_ofEntries_reverse, ← List.filter_reverse, find_filter]

theorem ofEntries_of_sorted {entries : List (κ × ν)} (hsorted : Sorted entries) :
    ofEntries entries = entries :=
  sorted_ext (sorted_ofEntries entries) hsorted (find_ofEntries hsorted.nodup_keys)

theorem mem_ofEntries {entries : List (κ × ν)} {entry : κ × ν} (hmem : entry ∈ ofEntries entries) :
    entry ∈ entries := by
  induction entries using List.reverseRecOn with
  | nil => exact hmem
  | append_singleton entries last ih =>
      rw [ofEntries_append] at hmem
      rw [List.mem_append, List.mem_singleton]
      rcases mem_insertEntry hmem with rfl | hmem
      · exact Or.inr rfl
      · exact Or.inl (ih hmem)

end OrderedMap

/-- An ordered map: a list of entries with the proof that its keys increase. -/
structure OrderedMap (κ ν : Type) [LinearOrder κ] where
  entries : List (κ × ν)
  sorted : OrderedMap.Sorted entries

namespace OrderedMap

variable {κ ν : Type} [LinearOrder κ]

def empty : OrderedMap κ ν := ⟨[], List.Pairwise.nil⟩

def get (map : OrderedMap κ ν) (key : κ) : Option ν := find key map.entries

def contains (map : OrderedMap κ ν) (key : κ) : Bool := (map.get key).isSome

def size (map : OrderedMap κ ν) : Nat := map.entries.length

def insert (map : OrderedMap κ ν) (key : κ) (value : ν) : OrderedMap κ ν :=
  ⟨insertEntry key value map.entries, sorted_insertEntry key value map.sorted⟩

theorem ext_get {left right : OrderedMap κ ν} (h : ∀ key, left.get key = right.get key) : left = right := by
  cases left with
  | mk leftEntries leftSorted =>
      cases right with
      | mk rightEntries rightSorted =>
          obtain rfl : leftEntries = rightEntries := sorted_ext leftSorted rightSorted h
          rfl

theorem get_insert_self (map : OrderedMap κ ν) (key : κ) (value : ν) :
    (map.insert key value).get key = some value := find_insertEntry_self key value map.entries

theorem get_insert_of_ne (map : OrderedMap κ ν) {key other : κ} (value : ν) (hne : other ≠ key) :
    (map.insert key value).get other = map.get other := find_insertEntry_of_ne value map.entries hne

/-- A value that is put where it already is changes nothing. -/
theorem insert_of_get {map : OrderedMap κ ν} {key : κ} {value : ν} (h : map.get key = some value) :
    map.insert key value = map := by
  apply ext_get
  intro other
  by_cases hother : other = key
  · rw [hother, get_insert_self, h]
  · rw [get_insert_of_ne map value hother]

/-- An insertion adds one entry at most, and none under a key that is there. -/
theorem size_insert (map : OrderedMap κ ν) (key : κ) (value : ν) :
    (map.insert key value).size ≤ map.size + 1 ∧
      (map.contains key = true → (map.insert key value).size = map.size) :=
  ⟨(length_insertEntry key value map.entries).1,
    fun h => (length_insertEntry key value map.entries).2 h map.sorted⟩

theorem mem_insert {map : OrderedMap κ ν} {key : κ} {value : ν} {entry : κ × ν}
    (h : entry ∈ (map.insert key value).entries) : entry = (key, value) ∨ entry ∈ map.entries :=
  mem_insertEntry h

end OrderedMap
