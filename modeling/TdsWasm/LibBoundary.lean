import TdsWasm.LibText

/-! Character boundaries of UTF-8 texts. An index is a boundary exactly when some of the characters at the front of
the text take up to there, so walking back from an index ends at the longest prefix that fits. -/

set_option autoImplicit false

namespace Text

/-- The text up to an index, as a slice of it: nothing when the index is no boundary. -/
def sliceTo (s : String) (index : Nat) : Option String :=
  if isCharBoundary s index then fromUtf8 ((utf8 s).take index) else none

/-! ### Bytes of a character -/

theorem length_utf8EncodeChar (c : Char) : (String.utf8EncodeChar c).length = c.utf8Size := by
  simp

/-- The first byte of a character continues none, and all others do. -/
theorem utf8EncodeChar_continuation (c : Char) : ∃ first tail, String.utf8EncodeChar c = first :: tail ∧
    continuation first = false ∧ ∀ b ∈ tail, continuation b = true := by
  have hvalid : c.val.toNat < 0xd800 ∨ 0xdfff < c.val.toNat ∧ c.val.toNat < 0x110000 := c.valid
  have hfirst : ∀ n, n < 256 → (n < 128 ∨ 191 < n) → continuation (UInt8.ofNat n) = false := by
    intro n hn hrange
    rw [Bool.eq_false_iff, ne_eq, continuation, inRange_ofNat hn]
    rintro ⟨hlow, hhigh⟩
    replace hlow : 128 ≤ n := hlow
    replace hhigh : n ≤ 191 := hhigh
    omega
  unfold String.utf8EncodeChar
  generalize c.val.toNat = v at hvalid
  simp only
  split_ifs with hone htwo hthree
  · exact ⟨_, _, rfl, hfirst v (by omega) (by omega), by simp⟩
  · exact ⟨_, _, rfl, hfirst _ (by omega) (by omega), List.forall_mem_singleton.mpr (continuation_ofNat _)⟩
  · refine ⟨_, _, rfl, hfirst _ (by omega) (by omega), List.forall_mem_cons.mpr ⟨continuation_ofNat _, ?_⟩⟩
    exact List.forall_mem_singleton.mpr (continuation_ofNat _)
  · refine ⟨_, _, rfl, hfirst _ (by omega) (by omega), List.forall_mem_cons.mpr ⟨continuation_ofNat _, ?_⟩⟩
    rw [List.forall_mem_cons]
    exact ⟨continuation_ofNat _, List.forall_mem_singleton.mpr (continuation_ofNat _)⟩

/-! ### Boundaries -/

/-- Whether an index stands before the first byte of a character, or at the end. -/
def boundaryAt (bytes : Bytes) (index : Nat) : Bool :=
  (bytes[index]?).elim (index == bytes.length) fun b => !continuation b

theorem boundaryAt_zero (cs : List Char) : boundaryAt (encodeChars cs) 0 = true := by
  cases cs with
  | nil => rfl
  | cons c rest =>
      obtain ⟨first, tail, hc, hfirst, _⟩ := utf8EncodeChar_continuation c
      rw [encodeChars, List.flatMap_cons, hc]
      show (!continuation first) = true
      rw [hfirst]
      rfl

theorem isCharBoundary_eq (s : String) (index : Nat) :
    isCharBoundary s index = boundaryAt (encodeChars s.toList) index := by
  have hsize : s.utf8ByteSize = (encodeChars s.toList).length := by rw [← utf8_eq, length_utf8]
  unfold isCharBoundary
  rw [utf8_eq, hsize]
  cases index with
  | zero => exact (boundaryAt_zero s.toList).symm
  | succ index =>
      unfold boundaryAt
      cases (encodeChars s.toList)[index + 1]? <;> rfl

/-- Inside a character stands a byte that continues it. -/
theorem boundaryAt_inside {c : Char} (rest : List Char) {index : Nat}
    (h : index + 1 < (String.utf8EncodeChar c).length) : boundaryAt (encodeChars (c :: rest)) (index + 1) = false := by
  obtain ⟨first, tail, hc, _, htail⟩ := utf8EncodeChar_continuation c
  have hlt : index < tail.length := by simpa [hc] using h
  have hget : (encodeChars (c :: rest))[index + 1]? = some tail[index] := by
    rw [encodeChars, List.flatMap_cons, hc, List.cons_append, List.getElem?_cons_succ,
      List.getElem?_append_left hlt, List.getElem?_eq_getElem hlt]
  rw [boundaryAt, hget]
  simp [htail]

/-- Past a character, the boundaries are those of the rest. -/
theorem boundaryAt_past {c : Char} (rest : List Char) {index : Nat} (h : (String.utf8EncodeChar c).length ≤ index) :
    boundaryAt (encodeChars (c :: rest)) index =
      boundaryAt (encodeChars rest) (index - (String.utf8EncodeChar c).length) := by
  have hcons : encodeChars (c :: rest) = String.utf8EncodeChar c ++ encodeChars rest := List.flatMap_cons
  rw [boundaryAt, boundaryAt, hcons, List.getElem?_append_right h, List.length_append]
  congr 1
  rw [Bool.eq_iff_iff, beq_iff_eq, beq_iff_eq]
  omega

/-- The characters up to an index are none, or the first one and some of the rest. -/
theorem exists_prefix_cons {c : Char} {rest : List Char} {index : Nat} :
    (∃ left right, c :: rest = left ++ right ∧ (encodeChars left).length = index) ↔
      index = 0 ∨ ∃ left right, rest = left ++ right ∧
        (String.utf8EncodeChar c).length + (encodeChars left).length = index := by
  constructor
  · rintro ⟨left, right, hcs, hlength⟩
    cases left with
    | nil => exact Or.inl hlength.symm
    | cons c' left =>
        obtain ⟨rfl, hrest⟩ := List.cons.inj hcs
        exact Or.inr ⟨left, right, hrest, (length_encodeChars_cons _ _).symm.trans hlength⟩
  · rintro (rfl | ⟨left, right, rfl, hlength⟩)
    · exact ⟨[], c :: rest, rfl, rfl⟩
    · exact ⟨c :: left, right, rfl, (length_encodeChars_cons _ _).trans hlength⟩

/-- An index is a boundary exactly when the characters before it take up to there. -/
theorem boundaryAt_iff (cs : List Char) (index : Nat) : boundaryAt (encodeChars cs) index = true ↔
    ∃ left right, cs = left ++ right ∧ (encodeChars left).length = index := by
  induction cs generalizing index with
  | nil =>
      constructor
      · intro h
        have hindex : index = 0 := by simpa [boundaryAt, encodeChars] using h
        exact ⟨[], [], rfl, hindex.symm⟩
      · rintro ⟨left, right, hcs, hlength⟩
        obtain ⟨rfl, rfl⟩ := List.append_eq_nil_iff.mp hcs.symm
        rw [← hlength]
        rfl
  | cons c rest ih =>
      rw [exists_prefix_cons]
      rcases Nat.lt_or_ge index (String.utf8EncodeChar c).length with hinside | hpast
      · cases index with
        | zero => exact iff_of_true (boundaryAt_zero _) (Or.inl rfl)
        | succ index =>
            apply iff_of_false
            · rw [boundaryAt_inside rest hinside]
              exact Bool.false_ne_true
            · rintro (hzero | ⟨left, right, _, hlength⟩) <;> omega
      · have hpos : 0 < (String.utf8EncodeChar c).length := by
          rw [length_utf8EncodeChar]
          exact Char.utf8Size_pos c
        rw [boundaryAt_past rest hpast, ih]
        constructor
        · rintro ⟨left, right, hrest, hlength⟩
          exact Or.inr ⟨left, right, hrest, by omega⟩
        · rintro (hzero | ⟨left, right, hrest, hlength⟩)
          · omega
          · exact ⟨left, right, hrest, by omega⟩

/-- The boundaries of a text are the lengths of its prefixes. -/
theorem isCharBoundary_iff {s : String} {index : Nat} :
    isCharBoundary s index = true ↔ ∃ kept rest, s = kept ++ rest ∧ kept.utf8ByteSize = index := by
  have hsize : ∀ t : String, t.utf8ByteSize = (encodeChars t.toList).length := fun t => by
    rw [← utf8_eq, length_utf8]
  rw [isCharBoundary_eq, boundaryAt_iff]
  constructor
  · rintro ⟨left, right, hcs, hlength⟩
    refine ⟨String.ofList left, String.ofList right, ?_, ?_⟩
    · rw [← String.ofList_append, ← hcs, String.ofList_toList]
    · rw [hsize, String.toList_ofList, hlength]
  · rintro ⟨kept, rest, rfl, hlength⟩
    exact ⟨kept.toList, rest.toList, String.toList_append, by rw [← hsize, hlength]⟩

/-! ### Walking back -/

theorem floorCharBoundary_le (s : String) (index : Nat) : floorCharBoundary s index ≤ index := by
  induction index with
  | zero => exact le_rfl
  | succ index ih =>
      rw [floorCharBoundary]
      split_ifs
      · exact le_rfl
      · omega

theorem isCharBoundary_floor (s : String) (index : Nat) : isCharBoundary s (floorCharBoundary s index) = true := by
  induction index with
  | zero => rfl
  | succ index ih =>
      rw [floorCharBoundary]
      split_ifs with hboundary
      · exact hboundary
      · exact ih

/-- No boundary is passed on the way back. -/
theorem le_floorCharBoundary {s : String} {boundary index : Nat} (hboundary : isCharBoundary s boundary = true)
    (hle : boundary ≤ index) : boundary ≤ floorCharBoundary s index := by
  induction index with
  | zero => exact hle
  | succ index ih =>
      rw [floorCharBoundary]
      split_ifs with hhere
      · exact hle
      · apply ih
        rcases Nat.lt_or_ge index boundary with hlast | hbefore
        · have hsame : boundary = index + 1 := by omega
          exact absurd (hsame ▸ hboundary) hhere
        · exact hbefore

/-! ### Prefixes -/

theorem takeBytesList_append (left right : List Char) :
    takeBytesList (left ++ right) (encodeChars left).length = left := by
  induction left with
  | nil =>
      cases right with
      | nil => rfl
      | cons c rest =>
          have hpos := c.utf8Size_pos
          exact if_neg (Nat.not_le.mpr hpos)
  | cons c rest ih =>
      rw [length_encodeChars_cons, length_utf8EncodeChar, List.cons_append, takeBytesList,
        if_pos (Nat.le_add_right _ _),
        Nat.add_sub_cancel_left, ih]

theorem takeBytes_append (kept rest : String) : takeBytes (kept ++ rest) kept.utf8ByteSize = kept := by
  have hsize : kept.utf8ByteSize = (encodeChars kept.toList).length := by rw [← utf8_eq, length_utf8]
  rw [takeBytes, String.toList_append, hsize, takeBytesList_append, String.ofList_toList]

/-- A slice up to a boundary is the prefix that ends there. -/
theorem sliceTo_append (kept rest : String) : sliceTo (kept ++ rest) kept.utf8ByteSize = some kept := by
  have htake : (utf8 (kept ++ rest)).take kept.utf8ByteSize = utf8 kept := by
    rw [utf8_eq, utf8_eq kept, String.toList_append, encodeChars, List.flatMap_append]
    apply List.take_left'
    rw [← length_utf8, utf8_eq]
    rfl
  rw [sliceTo, if_pos (isCharBoundary_iff.mpr ⟨kept, rest, rfl, rfl⟩), htake, fromUtf8_utf8]

/-- What is kept of a text that is cut at an index: a prefix of at most so many bytes, the longest one, and at most
three bytes short of the index. -/
structure Cut (s : String) (index : Nat) (kept rest : String) : Prop where
  eq_append : s = kept ++ rest
  le : kept.utf8ByteSize ≤ index
  longest : ∀ other more, s = other ++ more → other.utf8ByteSize ≤ index → other.utf8ByteSize ≤ kept.utf8ByteSize
  close : index < kept.utf8ByteSize + 4

/-- Cutting a text before its end, at the boundary that is found by walking back. -/
theorem cut_floorCharBoundary {s : String} {index : Nat} (hlong : index < s.utf8ByteSize) :
    ∃ kept rest, Cut s index kept rest ∧ kept.utf8ByteSize = floorCharBoundary s index := by
  obtain ⟨kept, rest, hs, hsize⟩ := isCharBoundary_iff.mp (isCharBoundary_floor s index)
  have hle := floorCharBoundary_le s index
  have hlongest : ∀ other more, s = other ++ more → other.utf8ByteSize ≤ index →
      other.utf8ByteSize ≤ kept.utf8ByteSize := by
    intro other more hother hfits
    rw [hsize]
    exact le_floorCharBoundary (isCharBoundary_iff.mpr ⟨other, more, hother, rfl⟩) hfits
  refine ⟨kept, rest, ⟨hs, hsize ▸ hle, hlongest, ?_⟩, hsize⟩
  -- The next character does not fit, and it has at most four bytes.
  by_contra hfar
  cases hrest : rest.toList with
  | nil =>
      have hnil : rest = "" := by rw [← String.ofList_toList (s := rest), hrest]
      rw [hs, hnil, String.append_empty] at hlong
      omega
  | cons c more =>
      have hsplit : s = (kept ++ String.singleton c) ++ String.ofList more := by
        rw [hs, ← String.toList_inj]
        simp [hrest]
      have hnext : (kept ++ String.singleton c).utf8ByteSize = kept.utf8ByteSize + c.utf8Size := by simp
      have hfour := c.utf8Size_le_four
      have hpos := c.utf8Size_pos
      have hmore := hlongest _ _ hsplit (by omega)
      omega

/-- The prefix that is kept is what the slice up to the boundary gives. -/
theorem cut_takeBytes {s : String} {index : Nat} (hlong : index < s.utf8ByteSize) :
    ∃ kept rest, Cut s index kept rest ∧ takeBytes s (floorCharBoundary s index) = kept ∧
      sliceTo s (floorCharBoundary s index) = some kept ∧
        s.utf8ByteSize - floorCharBoundary s index = rest.utf8ByteSize := by
  obtain ⟨kept, rest, hcut, hfloor⟩ := cut_floorCharBoundary hlong
  refine ⟨kept, rest, hcut, ?_, ?_, ?_⟩
  · rw [← hfloor, hcut.eq_append, takeBytes_append]
  · rw [← hfloor, hcut.eq_append, sliceTo_append]
  · rw [← hfloor, hcut.eq_append, String.utf8ByteSize_append, Nat.add_sub_cancel_left]

/-- What a text of bounded length is given back as: the text itself when it fits, and otherwise as much of it as fits,
with a mark that may tell how many bytes are gone. -/
structure Shortened (mark : Nat → String) (s : String) (max : Nat) (result : String) : Prop where
  whole : s.utf8ByteSize ≤ max → result = s
  cut : max < s.utf8ByteSize → ∃ kept rest, Cut s max kept rest ∧ result = kept ++ mark rest.utf8ByteSize

/-- A text is shortened by walking back to a boundary. -/
theorem shortened_takeBytes (mark : Nat → String) (s : String) (max : Nat) :
    Shortened mark s max (if s.utf8ByteSize ≤ max then s
      else takeBytes s (floorCharBoundary s max) ++ mark (s.utf8ByteSize - floorCharBoundary s max)) where
  whole := fun hfits => if_pos hfits
  cut := by
    intro hlong
    obtain ⟨kept, rest, hcut, hkept, _, hgone⟩ := cut_takeBytes hlong
    refine ⟨kept, rest, hcut, ?_⟩
    rw [if_neg (Nat.not_le.mpr hlong), hkept, hgone]

end Text
