import TdsWasm.LibJsonText

/-! Words and values on a line of text: what is between white space is found again by trimming and splitting, and a
JSON text without spaces is one line that white space neither starts nor ends. -/

set_option autoImplicit false

namespace Text

/-! ### White space around a text -/

/-- White space neither starts nor ends the text, which is not empty. -/
structure Solid (cs : List Char) : Prop where
  head : ∃ c rest, cs = c :: rest ∧ isWhitespace c = false
  last : ∃ start c, cs = start ++ [c] ∧ isWhitespace c = false

/-- A check of the characters one by one, to be evaluated. -/
theorem plain_of_all {cs : List Char} (h : (cs.all fun c => !isWhitespace c) = true) :
    ∀ c ∈ cs, isWhitespace c = false := by
  intro c hc
  simpa using List.all_eq_true.mp h c hc

theorem solid_of_plain {cs : List Char} (hne : cs ≠ []) (hplain : ∀ c ∈ cs, isWhitespace c = false) : Solid cs where
  head := by
    obtain ⟨c, rest, rfl⟩ := List.exists_cons_of_ne_nil hne
    exact ⟨c, rest, rfl, hplain c List.mem_cons_self⟩
  last := ⟨cs.dropLast, cs.getLast hne, (List.dropLast_append_getLast hne).symm, hplain _ (List.getLast_mem hne)⟩

/-- What starts as one such text and ends as another is one. -/
theorem Solid.append {left right : List Char} (hleft : Solid left) (hright : Solid right) (between : List Char) :
    Solid (left ++ between ++ right) where
  head := by
    obtain ⟨c, rest, rfl, hc⟩ := hleft.head
    exact ⟨c, _, rfl, hc⟩
  last := by
    obtain ⟨start, c, rfl, hc⟩ := hright.last
    exact ⟨left ++ between ++ start, c, (List.append_assoc _ _ _).symm, hc⟩

/-- Trimming takes off the white space around such a text and no more. -/
theorem trim_padded {before core after : String} (hsolid : Solid core.toList)
    (hbefore : ∀ c ∈ before.toList, isWhitespace c = true) (hafter : ∀ c ∈ after.toList, isWhitespace c = true) :
    trim (before ++ core ++ after) = core := by
  obtain ⟨first, rest, hfirst, hfirstSolid⟩ := hsolid.head
  obtain ⟨start, last, hlast, hlastSolid⟩ := hsolid.last
  have hdrop : (before ++ core ++ after).toList.dropWhile isWhitespace = core.toList ++ after.toList := by
    rw [String.toList_append, String.toList_append, List.append_assoc, List.dropWhile_append_of_pos hbefore, hfirst,
      List.cons_append, List.dropWhile_cons_of_neg (by rw [hfirstSolid]; decide)]
  have hreverse : (core.toList ++ after.toList).reverse.dropWhile isWhitespace = core.toList.reverse := by
    rw [List.reverse_append, List.dropWhile_append_of_pos fun c hc => hafter c (List.mem_reverse.mp hc), hlast,
      List.reverse_append, List.reverse_singleton, List.singleton_append,
      List.dropWhile_cons_of_neg (by rw [hlastSolid]; decide)]
  rw [trim, hdrop, hreverse, List.reverse_reverse, String.ofList_toList]

theorem trim_solid {s : String} (hsolid : Solid s.toList) : trim s = s := by
  have hpadded : trim ("" ++ s ++ "") = s := trim_padded hsolid (List.forall_mem_nil _) (List.forall_mem_nil _)
  rwa [String.empty_append, String.append_empty] at hpadded

/-! ### Parts of a line -/

theorem stripPrefix_append (start rest : String) : stripPrefix start (start ++ rest) = some rest := by
  have hstart : start.toList.isPrefixOf (start ++ rest).toList = true := by
    rw [String.toList_append, List.isPrefixOf_iff_prefix]
    exact List.prefix_append _ _
  rw [stripPrefix, if_pos hstart, String.toList_append, List.drop_left, String.ofList_toList]

/-- A word is split off at the white space after it, and trimming finds what comes after the white space. -/
theorem splitOnceWhitespace_append {word gap rest : String} (hword : ∀ c ∈ word.toList, isWhitespace c = false)
    (hgap : ∀ c ∈ gap.toList, isWhitespace c = true) (hne : gap ≠ "") (hrest : Solid rest.toList) :
    ∃ args, splitOnceWhitespace (word ++ gap ++ rest) = some (word, args) ∧ trim args = rest := by
  obtain ⟨c, blanks, hblanks⟩ : ∃ c blanks, gap.toList = c :: blanks :=
    List.exists_cons_of_ne_nil fun hnil => hne (by rw [← String.toList_inj, hnil]; rfl)
  obtain ⟨hc, htail⟩ := List.forall_mem_cons.mp (hblanks ▸ hgap)
  have hpos : ∀ x ∈ word.toList, (!isWhitespace x) = true := fun x hx => by rw [hword x hx]; rfl
  have hneg : ¬ (!isWhitespace c) = true := by rw [hc]; decide
  have hline : (word ++ gap ++ rest).toList = word.toList ++ c :: (blanks ++ rest.toList) := by
    rw [String.toList_append, String.toList_append, hblanks, List.append_assoc, List.cons_append]
  have hstop : (c :: (blanks ++ rest.toList)).takeWhile (fun x => !isWhitespace x) = [] :=
    List.takeWhile_cons_of_neg hneg
  have hdrop : (word ++ gap ++ rest).toList.dropWhile (fun x => !isWhitespace x) = c :: (blanks ++ rest.toList) := by
    rw [hline, List.dropWhile_append_of_pos hpos]
    exact List.dropWhile_cons_of_neg hneg
  have htake : (word ++ gap ++ rest).toList.takeWhile (fun x => !isWhitespace x) = word.toList := by
    rw [hline, List.takeWhile_append_of_pos hpos, hstop, List.append_nil]
  refine ⟨String.ofList (blanks ++ rest.toList), ?_, ?_⟩
  · simp only [splitOnceWhitespace, hdrop, htake, String.ofList_toList]
  · have hargs : String.ofList (blanks ++ rest.toList) = String.ofList blanks ++ rest ++ "" := by
      rw [String.append_empty, String.ofList_append, String.ofList_toList]
    rw [hargs]
    exact trim_padded hrest (by rwa [String.toList_ofList]) (List.forall_mem_nil _)

/-- What is found in a text of one line. -/
theorem filterMap_lines_single {α : Type} {f : String → Option α}
    (htrim : ∀ line other, trim line = trim other → f line = f other) (hempty : f "" = none) {line : String}
    (hline : '\n' ∉ line.toList) : (lines line).filterMap f = (f line).toList := by
  rw [filterMap_lines htrim hempty, List.splitOn_eq_singleton hline]
  cases hfound : f line with
  | none => exact List.filterMap_cons_none (by rw [String.ofList_toList]; exact hfound)
  | some a => exact List.filterMap_cons_some (by rw [String.ofList_toList]; exact hfound)

end Text

/-! ### JSON texts -/

namespace Json.Text

theorem escape_line (c : Char) : '\n' ∉ escape c := by
  have hhex : ∀ n, n < 16 → hexDigit n ≠ '\n' := by decide
  unfold escape
  split_ifs with h1 h2 hn h4 h5 h6 h7 hcontrol
  all_goals try decide
  · have hhigh := hhex (c.toNat / 16) (by omega)
    have hlow := hhex (c.toNat % 16) (by omega)
    simp [Ne.symm hhigh, Ne.symm hlow]
  · simp [Ne.symm hn]

theorem writeString_line (cs : List Char) : '\n' ∉ writeString cs := by
  have hflat : '\n' ∉ cs.flatMap escape := by
    intro hmem
    obtain ⟨c, _, hc⟩ := List.mem_flatMap.mp hmem
    exact escape_line c hc
  simp [writeString, hflat]

theorem writeItems_line {items : List Json} (h : ∀ item ∈ items, '\n' ∉ write item) : '\n' ∉ writeItems items := by
  induction items with
  | nil => decide
  | cons item rest ih =>
      obtain ⟨hhead, hrest⟩ := List.forall_mem_cons.mp h
      cases rest with
      | nil => simp [writeItems, hhead]
      | cons next rest => simp [writeItems, hhead, ih hrest]

theorem writeMembers_line {members : List (String × Json)} (h : ∀ member ∈ members, '\n' ∉ write member.2) :
    '\n' ∉ writeMembers members := by
  induction members with
  | nil => decide
  | cons member rest ih =>
      obtain ⟨hhead, hrest⟩ := List.forall_mem_cons.mp h
      have hname := writeString_line (Text.chars member.1)
      cases rest with
      | nil => simp [writeMembers, hname, hhead]
      | cons next rest => simp [writeMembers, hname, hhead, ih hrest]

/-- A written document is one line. -/
theorem write_line (j : Json) : '\n' ∉ write j := by
  induction j using Json.induction with
  | null => decide
  | bool b => cases b <;> decide
  | num n =>
      obtain ⟨_, _, _, _, hall⟩ := literal_shape n
      intro hmem
      exact absurd (hall _ hmem) (by decide)
  | str s => exact writeString_line _
  | arr items ih => simp [write, writeItems_line ih]
  | obj members ih => simp [write, writeMembers_line ih]

theorem not_whitespace_of_isNumberChar {c : Char} (h : isNumberChar c = true) : Text.isWhitespace c = false := by
  rw [isNumberChar, Bool.or_eq_true, List.contains_iff_mem] at h
  rcases h with hdigit | hmem
  · obtain ⟨hlow, hhigh⟩ := Char.isDigit_iff_toNat.mp hdigit
    have hzero : '0'.toNat = 48 := rfl
    have hnine : '9'.toNat = 57 := rfl
    simp only [Text.isWhitespace, Bool.or_eq_false_iff, Bool.and_eq_false_iff, decide_eq_false_iff_not,
      List.contains_eq_mem,
      List.mem_cons, List.not_mem_nil, or_false]
    omega
  · simp only [List.mem_cons, List.not_mem_nil, or_false] at hmem
    rcases hmem with rfl | rfl | rfl | rfl | rfl <;> rfl

theorem writeItems_last (items : List Json) : ∃ start, writeItems items = start ++ [']'] := by
  induction items with
  | nil => exact ⟨[], rfl⟩
  | cons item rest ih =>
      cases rest with
      | nil => exact ⟨write item, rfl⟩
      | cons next rest =>
          obtain ⟨start, hstart⟩ := ih
          exact ⟨write item ++ ',' :: start, by rw [writeItems, hstart, List.append_assoc, List.cons_append]⟩

theorem writeMembers_last (members : List (String × Json)) : ∃ start, writeMembers members = start ++ ['\x7d'] := by
  induction members with
  | nil => exact ⟨[], rfl⟩
  | cons member rest ih =>
      cases rest with
      | nil => exact ⟨writeString (Text.chars member.1) ++ ':' :: write member.2, rfl⟩
      | cons next rest =>
          obtain ⟨start, hstart⟩ := ih
          refine ⟨writeString (Text.chars member.1) ++ ':' :: write member.2 ++ ',' :: start, ?_⟩
          rw [writeMembers, hstart]
          simp only [List.append_assoc, List.cons_append]

/-- White space neither starts nor ends a written document. -/
theorem write_solid (j : Json) : Text.Solid (write j) := by
  cases j with
  | null => exact Text.solid_of_plain (List.cons_ne_nil _ _) (Text.plain_of_all rfl)
  | bool b => cases b <;> exact Text.solid_of_plain (List.cons_ne_nil _ _) (Text.plain_of_all rfl)
  | num n =>
      obtain ⟨c, cs, hliteral, _, hall⟩ := literal_shape n
      have hne : n.literal ≠ [] := by
        rw [hliteral]
        exact List.cons_ne_nil _ _
      exact Text.solid_of_plain hne fun c hc => not_whitespace_of_isNumberChar (hall c hc)
  | str s => exact ⟨⟨'"', _, rfl, by decide⟩, ⟨_, '"', rfl, by decide⟩⟩
  | arr items =>
      obtain ⟨start, hstart⟩ := writeItems_last items
      exact ⟨⟨'[', _, rfl, by decide⟩, ⟨'[' :: start, ']', by rw [write, hstart, List.cons_append], by decide⟩⟩
  | obj members =>
      obtain ⟨start, hstart⟩ := writeMembers_last members
      exact ⟨⟨'\x7b', _, rfl, by decide⟩,
        ⟨'\x7b' :: start, '\x7d', by rw [write, hstart, List.cons_append], by decide⟩⟩

end Json.Text

/-- The codec writes texts without spaces. -/
def JsonCodec.WritesCompact (codec : JsonCodec) : Prop :=
  ∀ j, codec.toVec j = Text.utf8 (String.ofList (Json.Text.write j))

theorem JsonCodec.writesCompact_compact : compact.WritesCompact := by
  intro j
  rw [Text.utf8_eq, String.toList_ofList]
  rfl
