import TdsWasm.LibJsonText

/-! The strings of a document and the text it is read from: no string takes more bytes than its text. -/

set_option autoImplicit false

/-! ### Characters -/

namespace Text

/-- The bytes that a text takes. -/
def size (cs : List Char) : Nat := (encodeChars cs).length

theorem utf8ByteSize_ofList (cs : List Char) : (String.ofList cs).utf8ByteSize = size cs := by
  rw [← length_utf8, utf8_eq, String.toList_ofList]
  rfl

@[simp] theorem size_nil : size [] = 0 := rfl

@[simp] theorem size_cons (c : Char) (cs : List Char) : size (c :: cs) = c.utf8Size + size cs := by
  rw [size, length_encodeChars_cons, String.length_utf8EncodeChar]
  rfl

theorem size_le_of_suffix {left right : List Char} (h : left <:+ right) : size left ≤ size right := by
  obtain ⟨front, rfl⟩ := h
  rw [size, size, length_encodeChars_append]
  exact Nat.le_add_left _ _

theorem toNat_ofNat_le (n : Nat) : (Char.ofNat n).toNat ≤ n := by
  by_cases hvalid : n.isValidChar
  · rw [Char.ofNat, dif_pos hvalid]
    exact Nat.le_of_eq UInt32.toNat_ofNatLT
  · rw [Char.ofNat, dif_neg hvalid]
    exact Nat.zero_le _

theorem utf8Size_ofNat_le {n : Nat} :
    (n < 0x80 → (Char.ofNat n).utf8Size ≤ 1) ∧ (n < 0x800 → (Char.ofNat n).utf8Size ≤ 2) ∧
      (n < 0x10000 → (Char.ofNat n).utf8Size ≤ 3) := by
  have hle := toNat_ofNat_le n
  generalize Char.ofNat n = c at hle
  have hval : c.val.toNat = c.toNat := rfl
  have hsize : c.utf8Size = 1 ∨ c.utf8Size = 2 ∨ c.utf8Size = 3 ∨ c.utf8Size = 4 := c.utf8Size_eq
  have htwo := c.utf8Size_eq_two_iff
  have hthree := c.utf8Size_eq_three_iff
  have hfour := c.utf8Size_eq_four_iff
  simp only [UInt32.lt_iff_toNat_lt, UInt32.le_iff_toNat_le, hval] at htwo hthree hfour
  simp only [show (127 : UInt32).toNat = 127 from rfl, show (0x7ff : UInt32).toNat = 0x7ff from rfl,
    show (0xffff : UInt32).toNat = 0xffff from rfl] at htwo hthree hfour
  omega

/-- A decoded character takes no more bytes than are read for it. -/
theorem decodeOne_size {first : UInt8} {rest rest' : Bytes} {c : Char}
    (h : decodeOne first rest = (some c, rest')) : c.utf8Size + rest'.length ≤ rest.length + 1 := by
  have hfirst := first.toNat_lt
  unfold decodeOne at h
  split_ifs at h with hone htwo hthree hfour
  · cases h
    have hsize := (utf8Size_ofNat_le (n := first.toNat)).1 (UInt8.lt_iff_toNat_lt.mp hone)
    omega
  · cases rest with
    | nil => cases h
    | cons b rest =>
        simp only at h
        split_ifs at h
        · cases h
          have hhigh := Nat.mod_lt first.toNat (by decide : 32 > 0)
          have hlow := Nat.mod_lt b.toNat (by decide : 64 > 0)
          have hsize := (utf8Size_ofNat_le (n := payload first 32 * 64 + payload b 64)).2.1
            (by unfold payload; omega)
          rw [List.length_cons]
          omega
        · cases h
  · cases rest with
    | nil => cases h
    | cons b rest =>
        simp only at h
        split_ifs at h
        · cases rest with
          | nil => cases h
          | cons d rest =>
              simp only at h
              split_ifs at h
              · cases h
                have hhigh := Nat.mod_lt first.toNat (by decide : 16 > 0)
                have hmiddle := Nat.mod_lt b.toNat (by decide : 64 > 0)
                have hlow := Nat.mod_lt d.toNat (by decide : 64 > 0)
                have hsize := (utf8Size_ofNat_le
                  (n := payload first 16 * 4096 + payload b 64 * 64 + payload d 64)).2.2
                  (by unfold payload; omega)
                rw [List.length_cons, List.length_cons]
                omega
              · cases h
        · cases h
  · cases rest with
    | nil => cases h
    | cons b rest =>
        simp only at h
        split_ifs at h
        · cases rest with
          | nil => cases h
          | cons d rest =>
              simp only at h
              split_ifs at h
              · cases rest with
                | nil => cases h
                | cons e rest =>
                    simp only at h
                    split_ifs at h
                    · cases h
                      have hsize := Char.utf8Size_le_four (Char.ofNat (payload first 8 * 262144 +
                        payload b 64 * 4096 + payload d 64 * 64 + payload e 64))
                      rw [List.length_cons, List.length_cons, List.length_cons]
                      omega
                    · cases h
              · cases h
        · cases h
  · cases h

theorem strictChars_size {fuel : Nat} {bytes : Bytes} {cs : List Char} (h : strictChars fuel bytes = some cs) :
    size cs ≤ bytes.length := by
  induction fuel generalizing bytes cs with
  | zero =>
      cases bytes with
      | nil =>
          cases h
          exact le_rfl
      | cons first rest => cases h
  | succ fuel ih =>
      cases bytes with
      | nil =>
          cases h
          exact le_rfl
      | cons first rest =>
          rw [strictChars] at h
          obtain ⟨c, hc, hmap⟩ := Option.bind_eq_some_iff.mp h
          obtain ⟨tail, htail, rfl⟩ := Option.map_eq_some_iff.mp hmap
          have hsize := decodeOne_size (Prod.ext hc rfl : decodeOne first rest = (some c, _))
          rw [size_cons, List.length_cons]
          calc c.utf8Size + size tail ≤ c.utf8Size + _ := Nat.add_le_add_left (ih htail) _
            _ ≤ rest.length + 1 := hsize

end Text

/-! ### Strings of a document -/

namespace Json

mutual

/-- The strings of a document, with the names of its members. -/
def strings : Json → List String
  | null | bool _ | num _ => []
  | str s => [s]
  | arr items => stringsItems items
  | obj members => stringsMembers members

def stringsItems : List Json → List String
  | [] => []
  | item :: rest => strings item ++ stringsItems rest

def stringsMembers : List (String × Json) → List String
  | [] => []
  | (name, item) :: rest => name :: strings item ++ stringsMembers rest

end

theorem mem_stringsItems {s : String} {items : List Json} :
    s ∈ stringsItems items ↔ ∃ item ∈ items, s ∈ item.strings := by
  induction items with
  | nil => simp [stringsItems]
  | cons item rest ih => simp [stringsItems, ih]

theorem mem_stringsMembers {s : String} {members : List (String × Json)} :
    s ∈ stringsMembers members ↔ ∃ member ∈ members, s = member.1 ∨ s ∈ member.2.strings := by
  induction members with
  | nil => simp [stringsMembers]
  | cons member rest ih =>
      obtain ⟨name, item⟩ := member
      simp [stringsMembers, ih, or_assoc]

/-- A value has no strings that its document has not. -/
theorem strings_normalize {j : Json} {s : String} (h : s ∈ j.normalize.strings) : s ∈ j.strings := by
  induction j using Json.induction with
  | null | bool b | num n => simp [normalize, strings] at h
  | str t => simpa [normalize] using h
  | arr items ih =>
      rw [normalize, strings, normalizeItems_eq_map, mem_stringsItems] at h
      obtain ⟨item, hitem, hs⟩ := h
      obtain ⟨source, hsource, rfl⟩ := List.mem_map.mp hitem
      rw [strings, mem_stringsItems]
      exact ⟨source, hsource, ih source hsource hs⟩
  | obj members ih =>
      rw [normalize, strings, normalizeMembers_eq_map, mem_stringsMembers] at h
      obtain ⟨member, hmember, hs⟩ := h
      obtain ⟨source, hsource, rfl⟩ := List.mem_map.mp (OrderedMap.mem_ofEntries hmember)
      rw [strings, mem_stringsMembers]
      exact ⟨source, hsource, hs.imp_right (ih source hsource)⟩

theorem mem_strings_of_asStr {j : Json} {s : String} (h : j.asStr = some s) : s ∈ j.strings := by
  cases j with
  | str t =>
      cases h
      exact List.mem_singleton.mpr rfl
  | null | bool b | num n | arr items | obj members => cases h

/-- No string of the document takes more than this many bytes. -/
def StringsWithin (size : Nat) (j : Json) : Prop := ∀ s ∈ j.strings, s.utf8ByteSize ≤ size

theorem StringsWithin.mono {small large : Nat} {j : Json} (h : j.StringsWithin small) (hle : small ≤ large) :
    j.StringsWithin large := fun s hs => (h s hs).trans hle

end Json

namespace Decode

/-- The fields of a record have no strings that the document has not. -/
theorem stringsWithin_fields {names : List String} {j : Json} {known : List (String × Json)} {n : Nat}
    (hwithin : j.StringsWithin n) (h : fields names j = some known) :
    ∀ field ∈ known, field.2.StringsWithin n := by
  intro field hfield s hs
  apply hwithin
  cases j with
  | obj members =>
      simp only [fields] at h
      split_ifs at h
      cases h
      rw [Json.strings, Json.mem_stringsMembers]
      exact ⟨field, List.mem_of_mem_filter hfield, Or.inr hs⟩
  | arr items =>
      simp only [fields] at h
      split_ifs at h
      cases h
      rw [Json.strings, Json.mem_stringsItems]
      exact ⟨field.2, (List.of_mem_zip hfield).2, hs⟩
  | null | bool b | num v | str t => cases h

end Decode

/-! ### Reading -/

section

open Text

namespace Json.Text

theorem hexValue_lt {c : Char} {n : Nat} (h : hexValue c = some n) : n < 16 := by
  unfold hexValue at h
  split_ifs at h with hdigit hlower hupper
  · cases h
    have hhigh : c.toNat ≤ '9'.toNat := hdigit.2
    have hnine : '9'.toNat = 57 := rfl
    have hzero : '0'.toNat = 48 := rfl
    omega
  · cases h
    have hhigh : c.toNat ≤ 'f'.toNat := hlower.2
    have hf : 'f'.toNat = 102 := rfl
    have ha : 'a'.toNat = 97 := rfl
    omega
  · cases h
    have hhigh : c.toNat ≤ 'F'.toNat := hupper.2
    have hf : 'F'.toNat = 70 := rfl
    have ha : 'A'.toNat = 65 := rfl
    omega

theorem hex4_lt {a b c d : Char} {n : Nat} (h : hex4 a b c d = some n) : n < 0x10000 := by
  unfold hex4 at h
  simp only [Option.bind_eq_bind, Option.bind_eq_some_iff, Option.pure_def, Option.some.injEq] at h
  obtain ⟨na, ha, nb, hb, nc, hc, nd, hd, rfl⟩ := h
  have hna := hexValue_lt ha
  have hnb := hexValue_lt hb
  have hnc := hexValue_lt hc
  have hnd := hexValue_lt hd
  omega

theorem simpleEscape_size {c d : Char} (h : simpleEscape c = some d) : d.utf8Size ≤ 1 := by
  have hall : ∀ pair ∈ [('"', '"'), ('\\', '\\'), ('/', '/'), ('b', '\x08'), ('f', '\x0c'), ('n', '\n'), ('r', '\r'),
      ('t', '\t')], pair.2.utf8Size ≤ 1 := by decide
  obtain ⟨before, after, hlist, _⟩ := List.lookup_eq_some_iff.mp h
  exact hall (c, d) (hlist ▸ List.mem_append_right _ List.mem_cons_self)

/-- What reading a string literal pushes and leaves takes no more than the text. -/
theorem size_map_push {c : Char} {read : Option (List Char × List Char)} {out rest : List Char} {left : Nat}
    (h : read.map (push c) = some (out, rest))
    (ih : ∀ out rest, read = some (out, rest) → size out + size rest ≤ left) :
    size out + size rest ≤ c.utf8Size + left := by
  obtain ⟨⟨tail, rest'⟩, hread, heq⟩ := Option.map_eq_some_iff.mp h
  simp only [push, Prod.mk.injEq] at heq
  obtain ⟨rfl, rfl⟩ := heq
  have hsize := ih _ _ hread
  rw [size_cons]
  omega

theorem readString_size {cs out rest : List Char} (h : readString cs = some (out, rest)) :
    size out + size rest ≤ size cs := by
  induction cs using readString.induct generalizing out rest with
  | case1 => cases h
  | case2 after =>
      cases h
      rw [size_nil, size_cons]
      omega
  | case3 a b c d after ihpair ih =>
      have ha := a.utf8Size_pos
      have hb := b.utf8Size_pos
      have hc := c.utf8Size_pos
      have hd := d.utf8Size_pos
      rw [readString] at h
      obtain ⟨code, hcode, h⟩ := Option.bind_eq_some_iff.mp h
      have hlt := hex4_lt hcode
      simp only [size_cons]
      split_ifs at h with hhigh hlow
      · split at h
        · next a' b' c' d' after' =>
            obtain ⟨low, _, h⟩ := Option.bind_eq_some_iff.mp h
            split_ifs at h
            have hsize := size_map_push h fun out rest hread => ihpair hread
            have hfour := Char.utf8Size_le_four (Char.ofNat (0x10000 + (code - 0xD800) * 0x400 + (low - 0xDC00)))
            simp only [size_cons]
            omega
        · cases h
      · have hsize := size_map_push h fun out rest hread => ih hread
        have hthree := (utf8Size_ofNat_le (n := code)).2.2 hlt
        omega
  | case4 c after hnot ih =>
      have hslash := Char.utf8Size_pos '\\'
      rw [readString] at h
      · obtain ⟨d, hd, h⟩ := Option.bind_eq_some_iff.mp h
        have hsize := size_map_push h fun out rest hread => ih hread
        have hone := simpleEscape_size hd
        have hpos := c.utf8Size_pos
        simp only [size_cons]
        omega
      · exact hnot
  | case5 c after hquote hunicode hescape hbad =>
      rw [readString] at h
      · rw [if_pos hbad] at h
        cases h
      · exact hquote
      · exact hunicode
      · exact hescape
  | case6 c after hquote hunicode hescape hgood ih =>
      rw [readString] at h
      · rw [if_neg hgood] at h
        rw [size_cons]
        exact size_map_push h fun out rest hread => ih hread
      · exact hquote
      · exact hunicode
      · exact hescape

theorem skipSpace_suffix (cs : List Char) : skipSpace cs <:+ cs := by
  induction cs with
  | nil => exact List.suffix_rfl
  | cons c cs ih =>
      unfold skipSpace
      split_ifs
      · exact ih.trans (List.suffix_cons c cs)
      · exact List.suffix_rfl

theorem readKeyword_size {tail cs rest : List Char} {j other : Json}
    (h : readKeyword tail j cs = some (other, rest)) : size rest ≤ size cs ∧ other = j := by
  unfold readKeyword at h
  split_ifs at h
  cases h
  exact ⟨size_le_of_suffix (List.drop_suffix _ _), rfl⟩

theorem readNumber_size {cs rest : List Char} {j : Json} (h : readNumber cs = some (j, rest)) :
    size rest ≤ size cs ∧ j.strings = [] := by
  unfold readNumber at h
  split_ifs at h
  cases h
  exact ⟨size_le_of_suffix (List.dropWhile_suffix _), by rw [strings]⟩

/-- Nothing that is read takes more than the text, and neither does what is left. -/
def ValueBounded (fuel : Nat) : Prop := ∀ cs j rest, readValue fuel cs = some (j, rest) →
  size rest ≤ size cs ∧ j.StringsWithin (size cs)

def ItemsBounded (fuel : Nat) : Prop := ∀ cs items rest, readItems fuel cs = some (items, rest) →
  size rest ≤ size cs ∧ (arr items).StringsWithin (size cs)

def MembersBounded (fuel : Nat) : Prop := ∀ cs members rest, readMembers fuel cs = some (members, rest) →
  size rest ≤ size cs ∧ (obj members).StringsWithin (size cs)

theorem stringsWithin_of_nil {j : Json} (h : j.strings = []) (n : Nat) : j.StringsWithin n := by
  intro s hs
  rw [h] at hs
  cases hs

theorem stringsWithin_arr_cons {n : Nat} {item : Json} {rest : List Json} (hitem : item.StringsWithin n)
    (hrest : (arr rest).StringsWithin n) : (arr (item :: rest)).StringsWithin n := by
  intro s hs
  rw [strings, stringsItems, List.mem_append] at hs
  exact hs.elim (hitem s) (fun h => hrest s (by rwa [strings]))

theorem stringsWithin_obj_cons {n : Nat} {name : String} {item : Json} {rest : List (String × Json)}
    (hname : name.utf8ByteSize ≤ n) (hitem : item.StringsWithin n) (hrest : (obj rest).StringsWithin n) :
    (obj ((name, item) :: rest)).StringsWithin n := by
  intro s hs
  rw [strings, stringsMembers, List.mem_append, List.mem_cons] at hs
  rcases hs with (rfl | hs) | hs
  · exact hname
  · exact hitem s hs
  · exact hrest s (by rwa [strings])

theorem size_skipSpace (cs : List Char) : size (skipSpace cs) ≤ size cs := size_le_of_suffix (skipSpace_suffix cs)

/-- What is left of a text of this size, and the strings that have been read from it, take no more than it. -/
def ReadWithin (n : Nat) (j : Json) (rest : List Char) : Prop := size rest ≤ n ∧ j.StringsWithin n

theorem ReadWithin.mono {n m : Nat} {j : Json} {rest : List Char} (h : ReadWithin n j rest) (hle : n ≤ m) :
    ReadWithin m j rest := ⟨h.1.trans hle, h.2.mono hle⟩

section Productions

variable {fuel : Nat} {cs rest : List Char} {j other : Json}

theorem readWithin_keyword {tail : List Char} (hnil : j.strings = []) (h : readKeyword tail j cs = some (other, rest)) :
    ReadWithin (size cs) other rest := by
  obtain ⟨hrest, rfl⟩ := readKeyword_size h
  exact ⟨hrest, stringsWithin_of_nil hnil _⟩

theorem readWithin_string (h : (readString cs).map (fun read => (str (String.ofList read.1), read.2)) = some (j, rest)) :
    ReadWithin (size cs) j rest := by
  obtain ⟨⟨out, left⟩, hread, heq⟩ := Option.map_eq_some_iff.mp h
  simp only [Prod.mk.injEq] at heq
  obtain ⟨rfl, rfl⟩ := heq
  have hsize := readString_size hread
  refine ⟨by omega, fun s hs => ?_⟩
  rw [strings, List.mem_singleton] at hs
  rw [hs, utf8ByteSize_ofList]
  omega

theorem readWithin_items (hitems : ItemsBounded fuel)
    (h : (readItems fuel cs).map (fun read => (arr read.1, read.2)) = some (j, rest)) : ReadWithin (size cs) j rest := by
  obtain ⟨⟨items, left⟩, hread, heq⟩ := Option.map_eq_some_iff.mp h
  simp only [Prod.mk.injEq] at heq
  obtain ⟨rfl, rfl⟩ := heq
  exact hitems _ _ _ hread

theorem readWithin_members (hmembers : MembersBounded fuel)
    (h : (readMembers fuel cs).map (fun read => (obj read.1, read.2)) = some (j, rest)) :
    ReadWithin (size cs) j rest := by
  obtain ⟨⟨members, left⟩, hread, heq⟩ := Option.map_eq_some_iff.mp h
  simp only [Prod.mk.injEq] at heq
  obtain ⟨rfl, rfl⟩ := heq
  exact hmembers _ _ _ hread

end Productions

theorem valueBounded_succ {fuel : Nat} (hitems : ItemsBounded fuel) (hmembers : MembersBounded fuel) :
    ValueBounded (fuel + 1) := by
  intro cs j rest h
  have hskip := size_skipSpace cs
  rw [readValue] at h
  split at h
  · cases h
  next c after hafter =>
  rw [hafter, size_cons] at hskip
  have hinner := size_skipSpace after
  have hle : size after ≤ size cs := by omega
  by_cases hnull : c = 'n'
  · rw [if_pos hnull] at h
    exact (readWithin_keyword (by rw [strings]) h).mono hle
  rw [if_neg hnull] at h
  by_cases htrue : c = 't'
  · rw [if_pos htrue] at h
    exact (readWithin_keyword (by rw [strings]) h).mono hle
  rw [if_neg htrue] at h
  by_cases hfalse : c = 'f'
  · rw [if_pos hfalse] at h
    exact (readWithin_keyword (by rw [strings]) h).mono hle
  rw [if_neg hfalse] at h
  by_cases hquote : c = '"'
  · rw [if_pos hquote] at h
    exact (readWithin_string h).mono hle
  rw [if_neg hquote] at h
  by_cases hbracket : c = '['
  · rw [if_pos hbracket] at h
    split at h
    · next left hclose =>
        cases h
        rw [hclose, size_cons] at hinner
        exact ⟨by omega, stringsWithin_of_nil (by rw [strings, stringsItems]) _⟩
    · exact (readWithin_items hitems h).mono hle
  rw [if_neg hbracket] at h
  by_cases hbrace : c = '{'
  · rw [if_pos hbrace] at h
    split at h
    · next left hclose =>
        cases h
        rw [hclose, size_cons] at hinner
        exact ⟨by omega, stringsWithin_of_nil (by rw [strings, stringsMembers]) _⟩
    · exact (readWithin_members hmembers h).mono hle
  rw [if_neg hbrace] at h
  obtain ⟨hrest, hnil⟩ := readNumber_size h
  rw [size_cons] at hrest
  exact ⟨by omega, stringsWithin_of_nil hnil _⟩

theorem itemsBounded_succ {fuel : Nat} (hvalue : ValueBounded fuel) (hitems : ItemsBounded fuel) :
    ItemsBounded (fuel + 1) := by
  intro cs items rest h
  rw [readItems] at h
  obtain ⟨⟨item, after⟩, hread, h⟩ := Option.bind_eq_some_iff.mp h
  obtain ⟨hafter, hitem⟩ := hvalue _ _ _ hread
  have hskip := size_skipSpace after
  simp only at h
  split at h
  · next left hcomma =>
      obtain ⟨⟨next, last⟩, hnext, heq⟩ := Option.map_eq_some_iff.mp h
      simp only [Prod.mk.injEq] at heq
      obtain ⟨rfl, rfl⟩ := heq
      obtain ⟨hrest, hwithin⟩ := hitems _ _ _ hnext
      rw [hcomma, size_cons] at hskip
      exact ⟨by omega, stringsWithin_arr_cons hitem (hwithin.mono (by omega))⟩
  · next left hclose =>
      cases h
      rw [hclose, size_cons] at hskip
      exact ⟨by omega, stringsWithin_arr_cons hitem (stringsWithin_of_nil (by rw [strings, stringsItems]) _)⟩
  · cases h

theorem membersBounded_succ {fuel : Nat} (hvalue : ValueBounded fuel) (hmembers : MembersBounded fuel) :
    MembersBounded (fuel + 1) := by
  intro cs members rest h
  have hskip := size_skipSpace cs
  rw [readMembers] at h
  split at h
  · next after hquote =>
      rw [hquote, size_cons] at hskip
      obtain ⟨⟨name, left⟩, hname, h⟩ := Option.bind_eq_some_iff.mp h
      have hnamed := readString_size hname
      have hcolon := size_skipSpace left
      simp only at h
      split at h
      · next value hvalueText =>
          rw [hvalueText, size_cons] at hcolon
          obtain ⟨⟨item, last⟩, hread, h⟩ := Option.bind_eq_some_iff.mp h
          obtain ⟨hlast, hitem⟩ := hvalue _ _ _ hread
          have hend := size_skipSpace last
          have hsmall : (String.ofList name).utf8ByteSize ≤ size cs := by
            rw [utf8ByteSize_ofList]
            omega
          simp only at h
          split at h
          · next more hcomma =>
              obtain ⟨⟨next, final⟩, hnext, heq⟩ := Option.map_eq_some_iff.mp h
              simp only [Prod.mk.injEq] at heq
              obtain ⟨rfl, rfl⟩ := heq
              obtain ⟨hrest, hwithin⟩ := hmembers _ _ _ hnext
              rw [hcomma, size_cons] at hend
              exact ⟨by omega, stringsWithin_obj_cons hsmall (hitem.mono (by omega)) (hwithin.mono (by omega))⟩
          · next more hclose =>
              cases h
              rw [hclose, size_cons] at hend
              exact ⟨by omega, stringsWithin_obj_cons hsmall (hitem.mono (by omega))
                (stringsWithin_of_nil (by rw [strings, stringsMembers]) _)⟩
          · cases h
      · cases h
  · cases h

theorem bounded (fuel : Nat) : ValueBounded fuel ∧ ItemsBounded fuel ∧ MembersBounded fuel := by
  induction fuel with
  | zero =>
      refine ⟨fun cs j rest h => ?_, fun cs items rest h => ?_, fun cs members rest h => ?_⟩
      · cases h
      · cases h
      · cases h
  | succ fuel ih =>
      obtain ⟨hvalue, hitems, hmembers⟩ := ih
      exact ⟨valueBounded_succ hitems hmembers, itemsBounded_succ hvalue hitems,
        membersBounded_succ hvalue hmembers⟩

theorem read_stringsWithin {cs : List Char} {j : Json} (h : read cs = some j) : j.StringsWithin (size cs) := by
  unfold read at h
  obtain ⟨⟨other, rest⟩, hread, h⟩ := Option.bind_eq_some_iff.mp h
  simp only at h
  split_ifs at h
  cases h
  exact ((bounded _).1 _ _ _ hread).2

end Json.Text

end

namespace JsonCodec

/-- A string that the library decodes takes no more bytes than the text that it came from. -/
def DecodesWithin (codec : JsonCodec) : Prop :=
  ∀ bytes j, codec.parse bytes = some j → j.StringsWithin bytes.length

theorem decodesWithin_compact : DecodesWithin compact := by
  intro bytes j h
  obtain ⟨cs, hcs, hread⟩ := Option.bind_eq_some_iff.mp h
  exact (Json.Text.read_stringsWithin hread).mono (Text.strictChars_size hcs)

end JsonCodec
