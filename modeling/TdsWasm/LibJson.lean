import TdsWasm.LibOrderedMap
import Mathlib.Data.List.TakeWhile
import Mathlib.Data.String.Basic

/-! JSON documents and JSON values. A document is the syntax tree of a text: the members of an
object stand in the order of the text and a name may occur twice. A value is what a reader keeps of
it: objects are ordered maps and the last occurrence of a name wins. Numbers are carried as their
literals. -/

set_option autoImplicit false

/-! ### Number literals -/

namespace Numeral

def digits (cs : List Char) : Bool := !cs.isEmpty && cs.all Char.isDigit

/-- The integer part has no leading zero unless it is the digit zero. -/
def integerPart (cs : List Char) : Bool := digits cs && (cs.length == 1 || cs.head? != some '0')

def signedDigits : List Char → Bool
  | [] => false
  | c :: cs => if c = '+' ∨ c = '-' then digits cs else digits (c :: cs)

def exponentPart : List Char → Bool
  | [] => true
  | c :: cs => (c == 'e' || c == 'E') && signedDigits cs

def fractionPart : List Char → Bool
  | [] => true
  | c :: cs =>
      if c = '.' then digits (cs.takeWhile Char.isDigit) && exponentPart (cs.dropWhile Char.isDigit)
      else exponentPart (c :: cs)

def unsigned (cs : List Char) : Bool :=
  integerPart (cs.takeWhile Char.isDigit) && fractionPart (cs.dropWhile Char.isDigit)

def wellFormed : List Char → Bool
  | [] => false
  | c :: cs => if c = '-' then unsigned cs else unsigned (c :: cs)

end Numeral

/-- A number as the literal that stands for it in a text. -/
structure Numeral where
  literal : List Char
  valid : Numeral.wellFormed literal = true
  deriving DecidableEq

namespace Numeral

theorem takeWhile_of_all {p : Char → Bool} {cs : List Char} (hall : ∀ c ∈ cs, p c = true) :
    cs.takeWhile p = cs ∧ cs.dropWhile p = [] :=
  ⟨List.takeWhile_eq_self_iff.mpr hall, List.dropWhile_eq_nil_iff.mpr hall⟩

theorem head_toDigits_ne_zero {n : Nat} (hpos : 0 < n) :
    (Nat.toDigits 10 n).head? ≠ some '0' := by
  induction n using Nat.strongRecOn with
  | ind n ih =>
      rcases Nat.lt_or_ge n 10 with hlt | hge
      · rw [Nat.toDigits_of_lt_base hlt]
        have hall : ∀ d, d < 10 → 0 < d → d.digitChar ≠ '0' := by decide
        simpa using hall n hlt hpos
      · rw [Nat.toDigits_of_base_le (by decide) hge, List.head?_append]
        have hdiv : 0 < n / 10 := Nat.div_pos hge (by decide)
        have hhead := ih (n / 10) (Nat.div_lt_self hpos (by decide)) hdiv
        cases hd : (Nat.toDigits 10 (n / 10)).head? with
        | none => exact absurd (List.head?_eq_none_iff.mp hd) Nat.toDigits_ne_nil
        | some c =>
            rw [hd] at hhead
            simpa using hhead

theorem wellFormed_toDigits (n : Nat) : wellFormed (Nat.toDigits 10 n) = true := by
  have hall : ∀ c ∈ Nat.toDigits 10 n, c.isDigit = true := fun c hc =>
    Nat.isDigit_of_mem_toDigits (by decide) (by decide) hc
  have hinteger : integerPart (Nat.toDigits 10 n) = true := by
    rcases Nat.eq_zero_or_pos n with rfl | hpos
    · decide
    · have hhead := head_toDigits_ne_zero hpos
      simp only [integerPart, digits, Bool.and_eq_true, Bool.not_eq_true', List.isEmpty_eq_false_iff,
        List.all_eq_true, Bool.or_eq_true, bne_iff_ne]
      exact ⟨⟨Nat.toDigits_ne_nil, hall⟩, Or.inr hhead⟩
  have hunsigned : unsigned (Nat.toDigits 10 n) = true := by
    obtain ⟨htake, hdrop⟩ := takeWhile_of_all hall
    rw [unsigned, htake, hdrop, hinteger]
    rfl
  cases hd : Nat.toDigits 10 n with
  | nil => exact absurd hd Nat.toDigits_ne_nil
  | cons c cs =>
      rw [hd] at hall hunsigned
      have hdigit := hall c (by simp)
      rw [wellFormed, if_neg (by rintro rfl; exact absurd hdigit (by decide)), hunsigned]

def ofNat (n : Nat) : Numeral := ⟨Nat.toDigits 10 n, wellFormed_toDigits n⟩

/-- The natural number a literal of digits only stands for. -/
def natural (numeral : Numeral) : Option Nat :=
  if numeral.literal.all Char.isDigit then some (Nat.ofDigitChars 10 numeral.literal 0) else none

@[simp] theorem natural_ofNat (n : Nat) : (ofNat n).natural = some n := by
  have hall : (Nat.toDigits 10 n).all Char.isDigit = true :=
    List.all_eq_true.mpr fun c hc => Nat.isDigit_of_mem_toDigits (by decide) (by decide) hc
  simp only [natural, ofNat, hall, if_true, Nat.ofDigitChars_ten_toDigits]

end Numeral

/-! ### Documents -/

inductive Json where
  | null
  | bool (value : Bool)
  | num (value : Numeral)
  | str (value : String)
  | arr (items : List Json)
  | obj (members : List (String × Json))

namespace Json

/-- Induction on documents, with the hypothesis for every item and every member. -/
@[elab_as_elim]
theorem induction {motive : Json → Prop} (null : motive null) (bool : ∀ b, motive (bool b))
    (num : ∀ n, motive (num n)) (str : ∀ s, motive (str s))
    (arr : ∀ items, (∀ item ∈ items, motive item) → motive (arr items))
    (obj : ∀ members, (∀ member ∈ members, motive member.2) → motive (obj members)) :
    ∀ j, motive j := fun j =>
  Json.rec (motive_1 := motive) (motive_2 := fun items => ∀ item ∈ items, motive item)
    (motive_3 := fun members => ∀ member ∈ members, motive member.2)
    (motive_4 := fun member => motive member.2)
    null bool num str arr obj (by simp)
    (fun _ _ hhead htail => List.forall_mem_cons.mpr ⟨hhead, htail⟩) (by simp)
    (fun _ _ hhead htail => List.forall_mem_cons.mpr ⟨hhead, htail⟩) (fun _ _ h => h) j

mutual

/-- How many arrays and objects are open at the deepest point. -/
def depth : Json → Nat
  | null | bool _ | num _ | str _ => 0
  | arr items => depthItems items + 1
  | obj members => depthMembers members + 1

def depthItems : List Json → Nat
  | [] => 0
  | item :: rest => max (depth item) (depthItems rest)

def depthMembers : List (String × Json) → Nat
  | [] => 0
  | (_, item) :: rest => max (depth item) (depthMembers rest)

end

@[simp] theorem depth_null : depth null = 0 := by rw [depth]

@[simp] theorem depth_bool (b : Bool) : depth (bool b) = 0 := by rw [depth]

@[simp] theorem depth_num (n : Numeral) : depth (num n) = 0 := by rw [depth]

@[simp] theorem depth_str (s : String) : depth (str s) = 0 := by rw [depth]

theorem depthItems_le {items : List Json} {levels : Nat} :
    depthItems items ≤ levels ↔ ∀ item ∈ items, item.depth ≤ levels := by
  induction items with
  | nil => simp [depthItems]
  | cons item rest ih => simp [depthItems, ih]

theorem depthMembers_le {members : List (String × Json)} {levels : Nat} :
    depthMembers members ≤ levels ↔ ∀ member ∈ members, member.2.depth ≤ levels := by
  induction members with
  | nil => simp [depthMembers]
  | cons member rest ih => simp [depthMembers, ih]

@[simp] theorem depth_arr_le {items : List Json} {levels : Nat} :
    (arr items).depth ≤ levels + 1 ↔ ∀ item ∈ items, item.depth ≤ levels := by
  rw [depth, Nat.add_le_add_iff_right, depthItems_le]

@[simp] theorem depth_obj_le {members : List (String × Json)} {levels : Nat} :
    (obj members).depth ≤ levels + 1 ↔ ∀ member ∈ members, member.2.depth ≤ levels := by
  rw [depth, Nat.add_le_add_iff_right, depthMembers_le]

@[simp] theorem depth_arr_pos (items : List Json) : ¬ (arr items).depth ≤ 0 := by simp [depth]

@[simp] theorem depth_obj_pos (members : List (String × Json)) : ¬ (obj members).depth ≤ 0 := by
  simp [depth]

/-! ### Numbers -/

mutual

/-- Every number of the document is of this kind. -/
def Numbers (kind : Numeral → Prop) : Json → Prop
  | null | bool _ | str _ => True
  | num n => kind n
  | arr items => NumbersItems kind items
  | obj members => NumbersMembers kind members

def NumbersItems (kind : Numeral → Prop) : List Json → Prop
  | [] => True
  | item :: rest => Numbers kind item ∧ NumbersItems kind rest

def NumbersMembers (kind : Numeral → Prop) : List (String × Json) → Prop
  | [] => True
  | (_, item) :: rest => Numbers kind item ∧ NumbersMembers kind rest

end

theorem numbersItems_iff {kind : Numeral → Prop} {items : List Json} :
    NumbersItems kind items ↔ ∀ item ∈ items, item.Numbers kind := by
  induction items with
  | nil => simp [NumbersItems]
  | cons item rest ih => simp [NumbersItems, ih]

theorem numbersMembers_iff {kind : Numeral → Prop} {members : List (String × Json)} :
    NumbersMembers kind members ↔ ∀ member ∈ members, member.2.Numbers kind := by
  induction members with
  | nil => simp [NumbersMembers]
  | cons member rest ih => simp [NumbersMembers, ih]

/-- When all numbers there are are of the kind, those of a document are. -/
theorem numbers_of_forall {kind : Numeral → Prop} (h : ∀ n, kind n) (j : Json) : j.Numbers kind := by
  induction j using Json.induction with
  | null | bool b | str s => simp [Numbers]
  | num n => exact h n
  | arr items ih =>
      rw [Numbers, numbersItems_iff]
      exact ih
  | obj members ih =>
      rw [Numbers, numbersMembers_iff]
      exact ih

/-! ### Values -/

mutual

/-- Every object of the document lists its names in strictly increasing order. -/
def Normal : Json → Prop
  | null | bool _ | num _ | str _ => True
  | arr items => NormalItems items
  | obj members => OrderedMap.Sorted members ∧ NormalMembers members

def NormalItems : List Json → Prop
  | [] => True
  | item :: rest => Normal item ∧ NormalItems rest

def NormalMembers : List (String × Json) → Prop
  | [] => True
  | (_, item) :: rest => Normal item ∧ NormalMembers rest

end

mutual

/-- What a reader keeps of a document: the members of an object become an ordered map. -/
def normalize : Json → Json
  | null => null
  | bool b => bool b
  | num n => num n
  | str s => str s
  | arr items => arr (normalizeItems items)
  | obj members => obj (OrderedMap.ofEntries (normalizeMembers members))

def normalizeItems : List Json → List Json
  | [] => []
  | item :: rest => normalize item :: normalizeItems rest

def normalizeMembers : List (String × Json) → List (String × Json)
  | [] => []
  | (name, item) :: rest => (name, normalize item) :: normalizeMembers rest

end

theorem normalItems_iff {items : List Json} : NormalItems items ↔ ∀ item ∈ items, item.Normal := by
  induction items with
  | nil => simp [NormalItems]
  | cons item rest ih => simp [NormalItems, ih]

theorem normalMembers_iff {members : List (String × Json)} :
    NormalMembers members ↔ ∀ member ∈ members, member.2.Normal := by
  induction members with
  | nil => simp [NormalMembers]
  | cons member rest ih => simp [NormalMembers, ih]

theorem normalizeItems_eq_map (items : List Json) : normalizeItems items = items.map normalize := by
  induction items with
  | nil => rfl
  | cons item rest ih => rw [normalizeItems, ih, List.map_cons]

theorem normalizeMembers_eq_map (members : List (String × Json)) :
    normalizeMembers members = members.map fun member => (member.1, member.2.normalize) := by
  induction members with
  | nil => rfl
  | cons member rest ih => rw [normalizeMembers, ih, List.map_cons]

theorem normalize_obj (members : List (String × Json)) : (obj members).normalize =
    obj (OrderedMap.ofEntries (members.map fun member => (member.1, member.2.normalize))) := by
  rw [normalize, normalizeMembers_eq_map]

theorem normal_normalize (j : Json) : j.normalize.Normal := by
  induction j using Json.induction with
  | null | bool b | num n | str s => simp [normalize, Normal]
  | arr items ih =>
      rw [normalize, Normal, normalizeItems_eq_map, normalItems_iff]
      simpa using ih
  | obj members ih =>
      rw [normalize, Normal, normalizeMembers_eq_map, normalMembers_iff]
      refine ⟨OrderedMap.sorted_ofEntries _, fun member hmem => ?_⟩
      obtain ⟨source, hsource, rfl⟩ := List.mem_map.mp (OrderedMap.mem_ofEntries hmem)
      exact ih source hsource

theorem normalize_of_normal {j : Json} (hnormal : j.Normal) : j.normalize = j := by
  induction j using Json.induction with
  | null | bool b | num n | str s => simp [normalize]
  | arr items ih =>
      rw [Normal, normalItems_iff] at hnormal
      rw [normalize, normalizeItems_eq_map, List.map_congr_left fun item hmem => ih item hmem (hnormal item hmem)]
      simp
  | obj members ih =>
      rw [Normal, normalMembers_iff] at hnormal
      rw [normalize, normalizeMembers_eq_map,
        List.map_congr_left (g := id) fun member hmem => by
          rw [ih member hmem (hnormal.2 member hmem)]; rfl,
        List.map_id, OrderedMap.ofEntries_of_sorted hnormal.1]

theorem depth_normalize_le (j : Json) : j.normalize.depth ≤ j.depth := by
  induction j using Json.induction with
  | null | bool b | num n | str s => simp [normalize]
  | arr items ih =>
      rw [normalize, depth, depth, Nat.add_le_add_iff_right, depthItems_le, normalizeItems_eq_map]
      intro item hmem
      obtain ⟨source, hsource, rfl⟩ := List.mem_map.mp hmem
      exact (ih source hsource).trans (depthItems_le.mp le_rfl source hsource)
  | obj members ih =>
      rw [normalize, depth, depth, Nat.add_le_add_iff_right, depthMembers_le, normalizeMembers_eq_map]
      intro member hmem
      obtain ⟨source, hsource, rfl⟩ := List.mem_map.mp (OrderedMap.mem_ofEntries hmem)
      exact (ih source hsource).trans (depthMembers_le.mp le_rfl source hsource)

end Json

/-- A JSON value: a document whose objects are ordered maps. -/
def JsonValue : Type := { document : Json // document.Normal }

namespace JsonValue

/-- The document a value is written as. -/
def toJson (value : JsonValue) : Json := value.val

theorem ext {left right : JsonValue} (h : left.toJson = right.toJson) : left = right :=
  Subtype.ext h

end JsonValue

/-- The value of a document. -/
def Json.toValue (document : Json) : JsonValue := ⟨document.normalize, document.normal_normalize⟩

namespace JsonValue

@[simp] theorem toValue_toJson (value : JsonValue) : value.toJson.toValue = value :=
  ext (Json.normalize_of_normal value.property)

/-- The member of that name, when the value is an object that has it. -/
def get (value : JsonValue) (name : String) : Option Json :=
  match value.toJson with
  | .obj members => OrderedMap.find name members
  | _ => none

/-- Objects are the same when they have the same members. -/
theorem ext_get {left right : JsonValue} {members others : List (String × Json)}
    (hleft : left.toJson = .obj members) (hright : right.toJson = .obj others)
    (hget : ∀ name, left.get name = right.get name) : left = right := by
  have hleftNormal := left.property
  have hrightNormal := right.property
  rw [show left.val = .obj members from hleft, Json.Normal] at hleftNormal
  rw [show right.val = .obj others from hright, Json.Normal] at hrightNormal
  simp only [get, hleft, hright] at hget
  apply ext
  rw [hleft, hright, OrderedMap.sorted_ext hleftNormal.1 hrightNormal.1 hget]

/-- The members of a value are values. -/
theorem normalize_get {value : JsonValue} {name : String} {j : Json} (hget : value.get name = some j) :
    j.normalize = j := by
  have hnormal := value.property
  rw [get] at hget
  split at hget
  · next members hobj =>
      rw [show value.val = .obj members from hobj, Json.Normal, Json.normalMembers_iff] at hnormal
      exact Json.normalize_of_normal (hnormal.2 (name, j) (OrderedMap.mem_of_find hget))
  · cases hget

/-- An object whose names are distinct keeps every member. -/
theorem get_toValue_obj {members : List (String × Json)} (hnodup : (members.map Prod.fst).Nodup)
    (name : String) : (Json.obj members).toValue.get name =
      (OrderedMap.find name members).map Json.normalize := by
  have hkeys : ((Json.normalizeMembers members).map Prod.fst).Nodup := by
    rw [Json.normalizeMembers_eq_map, List.map_map]
    exact hnodup
  have hobj : (Json.obj members).toValue.toJson =
      .obj (OrderedMap.ofEntries (Json.normalizeMembers members)) := by
    simp only [toJson, Json.toValue, Json.normalize]
  rw [get, hobj]
  show OrderedMap.find name (OrderedMap.ofEntries (Json.normalizeMembers members)) = _
  rw [OrderedMap.find_ofEntries hkeys, Json.normalizeMembers_eq_map,
    OrderedMap.find_map Json.normalize]

end JsonValue

/-- The items of an array document. -/
def Json.elements : Json → List Json
  | .arr items => items
  | _ => []

/-- The text of a string document. -/
def Json.asStr : Json → Option String
  | .str s => some s
  | _ => none
