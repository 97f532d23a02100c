import Mathlib.Data.List.TakeWhile
import Mathlib.Data.String.Basic

/-! Byte strings and UTF-8 text: strict and lossy decoding, character boundaries, white space and lines. -/

set_option autoImplicit false

abbrev Bytes := List UInt8

namespace Text

/-- The UTF-8 encoding of a string. -/
def utf8 (s : String) : Bytes := s.toByteArray.data.toList

/-- Strict decoding: nothing when the bytes are not UTF-8. -/
def fromUtf8 (bytes : Bytes) : Option String := String.fromUTF8? ⟨bytes.toArray⟩

@[simp] theorem fromUtf8_utf8 (s : String) : fromUtf8 (utf8 s) = some s := by
  have hbytes : (⟨(utf8 s).toArray⟩ : ByteArray) = s.toByteArray := by simp [utf8]
  rw [fromUtf8, hbytes, String.fromUTF8?, dif_pos s.isValidUTF8]
  rfl

@[simp] theorem length_utf8 (s : String) : (utf8 s).length = s.utf8ByteSize := by
  rw [utf8, Array.length_toList]
  rfl

/-! ### Lossy decoding -/

def inRange (low high b : UInt8) : Bool := low ≤ b && b ≤ high

def continuation (b : UInt8) : Bool := inRange 0x80 0xBF b

/-- The second bytes that may follow the first byte of a three-byte sequence. -/
def second3 (first second : UInt8) : Bool :=
  if first = 0xE0 then inRange 0xA0 0xBF second
  else if first = 0xED then inRange 0x80 0x9F second
  else continuation second

/-- The second bytes that may follow the first byte of a four-byte sequence. -/
def second4 (first second : UInt8) : Bool :=
  if first = 0xF0 then inRange 0x90 0xBF second
  else if first = 0xF4 then inRange 0x80 0x8F second
  else continuation second

def payload (b : UInt8) (mask : Nat) : Nat := b.toNat % mask

/-- Read one character after its first byte. Nothing is read for a maximal invalid sequence, whose
bytes are still consumed. -/
def decodeOne (first : UInt8) (rest : Bytes) : Option Char × Bytes :=
  if first < 0x80 then (some (Char.ofNat first.toNat), rest)
  else if inRange 0xC2 0xDF first then
    match rest with
    | b :: rest' =>
        if continuation b then (some (Char.ofNat (payload first 32 * 64 + payload b 64)), rest')
        else (none, rest)
    | [] => (none, [])
  else if inRange 0xE0 0xEF first then
    match rest with
    | b :: rest' =>
        if second3 first b then
          match rest' with
          | c :: rest'' =>
              if continuation c then
                (some (Char.ofNat (payload first 16 * 4096 + payload b 64 * 64 + payload c 64)), rest'')
              else (none, rest')
          | [] => (none, [])
        else (none, rest)
    | [] => (none, [])
  else if inRange 0xF0 0xF4 first then
    match rest with
    | b :: rest' =>
        if second4 first b then
          match rest' with
          | c :: rest'' =>
              if continuation c then
                match rest'' with
                | d :: rest''' =>
                    if continuation d then
                      (some (Char.ofNat (payload first 8 * 262144 + payload b 64 * 4096 +
                        payload c 64 * 64 + payload d 64)), rest''')
                    else (none, rest'')
                | [] => (none, [])
              else (none, rest')
          | [] => (none, [])
        else (none, rest)
    | [] => (none, [])
  else (none, rest)

def lossyChars : Nat → Bytes → List Char
  | 0, _ => []
  | _ + 1, [] => []
  | fuel + 1, first :: rest =>
      ((decodeOne first rest).1.getD '\uFFFD') :: lossyChars fuel (decodeOne first rest).2

/-- Decoding that puts U+FFFD for every maximal invalid sequence. Each character takes at least one
byte, so the number of bytes is enough fuel. -/
def fromUtf8Lossy (bytes : Bytes) : String := String.ofList (lossyChars bytes.length bytes)

/-! ### Decoding what was encoded -/

theorem inRange_ofNat {low high : UInt8} {n : Nat} (hn : n < 256) :
    inRange low high (UInt8.ofNat n) = true ↔ low.toNat ≤ n ∧ n ≤ high.toNat := by
  have hbyte : (UInt8.ofNat n).toNat = n := UInt8.toNat_ofNat_of_lt' hn
  rw [inRange, Bool.and_eq_true, decide_eq_true_eq, decide_eq_true_eq, UInt8.le_iff_toNat_le,
    UInt8.le_iff_toNat_le, hbyte]

theorem ofNat_lt {bound : UInt8} {n : Nat} (hn : n < 256) : UInt8.ofNat n < bound ↔ n < bound.toNat := by
  have hbyte : (UInt8.ofNat n).toNat = n := UInt8.toNat_ofNat_of_lt' hn
  rw [UInt8.lt_iff_toNat_lt, hbyte]

theorem ofNat_eq {b : UInt8} {n : Nat} (hn : n < 256) : UInt8.ofNat n = b ↔ n = b.toNat := by
  have hbyte : (UInt8.ofNat n).toNat = n := UInt8.toNat_ofNat_of_lt' hn
  rw [← UInt8.toNat_inj, hbyte]

theorem continuation_ofNat (n : Nat) : continuation (UInt8.ofNat (n % 64 + 128)) = true := by
  have hhigh : n % 64 + 128 ≤ 191 := by omega
  exact (inRange_ofNat (by omega)).mpr ⟨Nat.le_add_left _ _, hhigh⟩

theorem payload_ofNat {n mask high : Nat} (hsize : n % mask + high < 256) (hhigh : high % mask = 0) :
    payload (UInt8.ofNat (n % mask + high)) mask = n % mask := by
  rw [payload, UInt8.toNat_ofNat_of_lt' hsize, Nat.add_mod, hhigh, Nat.add_zero, Nat.mod_mod,
    Nat.mod_mod]

theorem decodeOne_one {v : Nat} (hv : v < 128) (rest : Bytes) :
    decodeOne (UInt8.ofNat v) rest = (some (Char.ofNat v), rest) := by
  have hbyte : (UInt8.ofNat v).toNat = v := UInt8.toNat_ofNat_of_lt' (hv.trans (by decide))
  unfold decodeOne
  rw [if_pos ((ofNat_lt (by omega)).mpr hv), hbyte]

theorem decodeOne_two {v : Nat} (hlow : 128 ≤ v) (hhigh : v < 2048) (rest : Bytes) :
    decodeOne (UInt8.ofNat (v / 64 % 32 + 192)) (UInt8.ofNat (v % 64 + 128) :: rest) =
      (some (Char.ofNat v), rest) := by
  have hone : ¬ UInt8.ofNat (v / 64 % 32 + 192) < 0x80 := by
    rw [ofNat_lt (by omega)]
    exact Nat.not_lt.mpr (by show 128 ≤ _; omega)
  have htwo : inRange 0xC2 0xDF (UInt8.ofNat (v / 64 % 32 + 192)) = true :=
    (inRange_ofNat (by omega)).mpr ⟨by show 194 ≤ _; omega, by show _ ≤ 223; omega⟩
  unfold decodeOne
  simp only [hone, htwo, continuation_ofNat, if_true, if_false]
  rw [payload_ofNat (by omega) (by decide), payload_ofNat (by omega) (by decide)]
  congr 3
  omega

theorem second3_ofNat {v : Nat} (hlow : 2048 ≤ v) (hhigh : v < 65536) (hvalid : v < 0xd800 ∨ 0xdfff < v) :
    second3 (UInt8.ofNat (v / 4096 % 16 + 224)) (UInt8.ofNat (v / 64 % 64 + 128)) = true := by
  unfold second3
  split_ifs with hfirst hlast
  · replace hfirst : v / 4096 % 16 + 224 = 224 := (ofNat_eq (by omega)).mp hfirst
    exact (inRange_ofNat (by omega)).mpr ⟨by show 160 ≤ _; omega, by show _ ≤ 191; omega⟩
  · replace hlast : v / 4096 % 16 + 224 = 237 := (ofNat_eq (by omega)).mp hlast
    exact (inRange_ofNat (by omega)).mpr ⟨by show 128 ≤ _; omega, by show _ ≤ 159; omega⟩
  · exact continuation_ofNat _

theorem decodeOne_three {v : Nat} (hlow : 2048 ≤ v) (hhigh : v < 65536)
    (hvalid : v < 0xd800 ∨ 0xdfff < v) (rest : Bytes) :
    decodeOne (UInt8.ofNat (v / 4096 % 16 + 224)) (UInt8.ofNat (v / 64 % 64 + 128) ::
      UInt8.ofNat (v % 64 + 128) :: rest) = (some (Char.ofNat v), rest) := by
  have hone : ¬ UInt8.ofNat (v / 4096 % 16 + 224) < 0x80 := by
    rw [ofNat_lt (by omega)]
    exact Nat.not_lt.mpr (by show 128 ≤ _; omega)
  have htwo : ¬ inRange 0xC2 0xDF (UInt8.ofNat (v / 4096 % 16 + 224)) = true := by
    rw [inRange_ofNat (by omega)]
    exact fun h => absurd h.2 (Nat.not_le.mpr (by show 223 < _; omega))
  have hthree : inRange 0xE0 0xEF (UInt8.ofNat (v / 4096 % 16 + 224)) = true :=
    (inRange_ofNat (by omega)).mpr ⟨by show 224 ≤ _; omega, by show _ ≤ 239; omega⟩
  unfold decodeOne
  simp only [hone, htwo, hthree, second3_ofNat hlow hhigh hvalid, continuation_ofNat, if_true, if_false,
    Bool.false_eq_true]
  rw [payload_ofNat (by omega) (by decide), payload_ofNat (by omega) (by decide),
    payload_ofNat (by omega) (by decide)]
  congr 3
  omega

theorem second4_ofNat {v : Nat} (hlow : 65536 ≤ v) (hhigh : v < 0x110000) :
    second4 (UInt8.ofNat (v / 262144 % 8 + 240)) (UInt8.ofNat (v / 4096 % 64 + 128)) = true := by
  unfold second4
  split_ifs with hfirst hlast
  · replace hfirst : v / 262144 % 8 + 240 = 240 := (ofNat_eq (by omega)).mp hfirst
    exact (inRange_ofNat (by omega)).mpr ⟨by show 144 ≤ _; omega, by show _ ≤ 191; omega⟩
  · replace hlast : v / 262144 % 8 + 240 = 244 := (ofNat_eq (by omega)).mp hlast
    exact (inRange_ofNat (by omega)).mpr ⟨by show 128 ≤ _; omega, by show _ ≤ 143; omega⟩
  · exact continuation_ofNat _

theorem decodeOne_four {v : Nat} (hlow : 65536 ≤ v) (hhigh : v < 0x110000) (rest : Bytes) :
    decodeOne (UInt8.ofNat (v / 262144 % 8 + 240)) (UInt8.ofNat (v / 4096 % 64 + 128) ::
      UInt8.ofNat (v / 64 % 64 + 128) :: UInt8.ofNat (v % 64 + 128) :: rest) =
        (some (Char.ofNat v), rest) := by
  have hone : ¬ UInt8.ofNat (v / 262144 % 8 + 240) < 0x80 := by
    rw [ofNat_lt (by omega)]
    exact Nat.not_lt.mpr (by show 128 ≤ _; omega)
  have htwo : ¬ inRange 0xC2 0xDF (UInt8.ofNat (v / 262144 % 8 + 240)) = true := by
    rw [inRange_ofNat (by omega)]
    exact fun h => absurd h.2 (Nat.not_le.mpr (by show 223 < _; omega))
  have hthree : ¬ inRange 0xE0 0xEF (UInt8.ofNat (v / 262144 % 8 + 240)) = true := by
    rw [inRange_ofNat (by omega)]
    exact fun h => absurd h.2 (Nat.not_le.mpr (by show 239 < _; omega))
  have hfour : inRange 0xF0 0xF4 (UInt8.ofNat (v / 262144 % 8 + 240)) = true :=
    (inRange_ofNat (by omega)).mpr ⟨by show 240 ≤ _; omega, by show _ ≤ 244; omega⟩
  unfold decodeOne
  simp only [hone, htwo, hthree, hfour, second4_ofNat hlow hhigh, continuation_ofNat, if_true, if_false,
    Bool.false_eq_true]
  rw [payload_ofNat (by omega) (by decide), payload_ofNat (by omega) (by decide),
    payload_ofNat (by omega) (by decide), payload_ofNat (by omega) (by decide)]
  congr 3
  omega

/-- The decoder reads back every character from its encoding. -/
theorem decodeOne_utf8EncodeChar (c : Char) : ∃ first tail, String.utf8EncodeChar c = first :: tail ∧
    ∀ rest, decodeOne first (tail ++ rest) = (some c, rest) := by
  have hvalid : c.val.toNat < 0xd800 ∨ 0xdfff < c.val.toNat ∧ c.val.toNat < 0x110000 := c.valid
  have hchar : Char.ofNat c.val.toNat = c := Char.ofNat_toNat c
  unfold String.utf8EncodeChar
  generalize c.val.toNat = v at hvalid hchar
  rw [← hchar]
  simp only
  split_ifs with hone htwo hthree
  · exact ⟨_, _, rfl, decodeOne_one (by omega)⟩
  · exact ⟨_, _, rfl, decodeOne_two (by omega) (by omega)⟩
  · exact ⟨_, _, rfl, decodeOne_three (by omega) (by omega) (by omega)⟩
  · exact ⟨_, _, rfl, decodeOne_four (by omega) (by omega)⟩

/-! ### Strings as lists -/

def encodeChars (cs : List Char) : Bytes := cs.flatMap String.utf8EncodeChar

/-- Strict decoding, one character after the other. -/
def strictChars : Nat → Bytes → Option (List Char)
  | _, [] => some []
  | 0, _ :: _ => none
  | fuel + 1, first :: rest =>
      (decodeOne first rest).1.bind fun c => (strictChars fuel (decodeOne first rest).2).map (c :: ·)

theorem strictChars_encodeChars (cs : List Char) {fuel : Nat} (hfuel : (encodeChars cs).length ≤ fuel) :
    strictChars fuel (encodeChars cs) = some cs := by
  induction cs generalizing fuel with
  | nil => cases fuel <;> rfl
  | cons c rest ih =>
      obtain ⟨first, tail, hc, hdecode⟩ := decodeOne_utf8EncodeChar c
      have hcons : encodeChars (c :: rest) = first :: (tail ++ encodeChars rest) := by
        rw [encodeChars, List.flatMap_cons, hc]
        rfl
      rw [hcons] at hfuel ⊢
      cases fuel with
      | zero => simp at hfuel
      | succ fuel =>
          rw [List.length_cons, List.length_append] at hfuel
          rw [strictChars, hdecode, Option.bind_some, ih (by omega)]
          rfl

theorem length_encodeChars_append (left right : List Char) :
    (encodeChars (left ++ right)).length = (encodeChars left).length + (encodeChars right).length := by
  rw [encodeChars, List.flatMap_append, List.length_append]
  rfl

theorem length_encodeChars_cons (c : Char) (rest : List Char) :
    (encodeChars (c :: rest)).length = (String.utf8EncodeChar c).length + (encodeChars rest).length := by
  rw [encodeChars, List.flatMap_cons, List.length_append]
  rfl

theorem utf8_eq (s : String) : utf8 s = encodeChars s.toList := by
  rw [utf8, ← String.utf8Encode_toList]
  simp [List.utf8Encode, encodeChars]

/-- The characters of a string, in a form that evaluates by list recursion. -/
def chars (s : String) : List Char := (strictChars (utf8 s).length (utf8 s)).getD []

theorem chars_eq (s : String) : chars s = s.toList := by
  rw [chars, utf8_eq, strictChars_encodeChars s.toList le_rfl]
  rfl

/-! ### Boundaries and prefixes -/

def isCharBoundary (s : String) (index : Nat) : Bool :=
  index == 0 || match (utf8 s)[index]? with
    | none => index == s.utf8ByteSize
    | some b => !continuation b

/-- Walk back from an index to a character boundary. -/
def floorCharBoundary (s : String) : Nat → Nat
  | 0 => 0
  | index + 1 => if isCharBoundary s (index + 1) then index + 1 else floorCharBoundary s index

def takeBytesList : List Char → Nat → List Char
  | [], _ => []
  | c :: cs, n => if c.utf8Size ≤ n then c :: takeBytesList cs (n - c.utf8Size) else []

/-- The characters of a string that lie wholly in its first `n` bytes. -/
def takeBytes (s : String) (n : Nat) : String := String.ofList (takeBytesList s.toList n)

/-! ### Debug text -/

def hexDigits (n : Nat) : String := String.ofList (Nat.toDigits 16 n)

/-- A character in the debug text of a string. Beyond ASCII the Unicode tables decide: `plain` says
which characters stand for themselves. -/
def debugChar (plain : Char → Bool) (c : Char) : String :=
  if c = '\u0000' then "\\0"
  else if c = '\t' then "\\t"
  else if c = '\r' then "\\r"
  else if c = '\n' then "\\n"
  else if c = '"' then "\\\""
  else if c = '\\' then "\\\\"
  else if 0x20 ≤ c.toNat ∧ c.toNat < 0x7F ∨ 0x80 ≤ c.toNat ∧ plain c = true then c.toString
  else "\\u\x7b" ++ hexDigits c.toNat ++ "\x7d"

def debug (plain : Char → Bool) (s : String) : String :=
  "\"" ++ String.join (s.toList.map (debugChar plain)) ++ "\""

/-! ### White space -/

/-- The characters of Unicode's `White_Space` property. -/
def isWhitespace (c : Char) : Bool :=
  (9 ≤ c.toNat && c.toNat ≤ 13) || (0x2000 ≤ c.toNat && c.toNat ≤ 0x200A) ||
    [0x20, 0x85, 0xA0, 0x1680, 0x2028, 0x2029, 0x202F, 0x205F, 0x3000].contains c.toNat

def trim (s : String) : String :=
  String.ofList (((s.toList.dropWhile isWhitespace).reverse.dropWhile isWhitespace).reverse)

/-- What follows a start of a text. -/
def stripPrefix (start s : String) : Option String :=
  if start.toList.isPrefixOf s.toList then some (String.ofList (s.toList.drop start.toList.length)) else none

/-- A text before and after its first white space. -/
def splitOnceWhitespace (s : String) : Option (String × String) :=
  match s.toList.dropWhile fun c => !isWhitespace c with
  | [] => none
  | _ :: rest => some (String.ofList (s.toList.takeWhile fun c => !isWhitespace c), String.ofList rest)

/-- A line without the carriage return before its line feed. -/
def stripReturn (line : List Char) : List Char := if line.getLast? = some '\r' then line.dropLast else line

/-- The lines of a text without their endings. A line feed at the end of the text ends the last line. -/
def lines (s : String) : List String :=
  let pieces := s.toList.splitOn '\n'
  let last := pieces.getLast?.getD []
  (pieces.dropLast.map stripReturn ++ if last.isEmpty then [] else [last]).map String.ofList

/-- The text without the white space at its end. -/
def trimEnd (s : String) : String := String.ofList (s.toList.reverse.dropWhile isWhitespace).reverse

/-! ### Trimming and lines -/

theorem dropWhile_append_of_exists {α : Type} {p : α → Bool} {xs ys : List α} (h : ∃ x ∈ xs, p x = false) :
    (xs ++ ys).dropWhile p = xs.dropWhile p ++ ys := by
  induction xs with
  | nil =>
      obtain ⟨x, hmem, _⟩ := h
      cases hmem
  | cons x rest ih =>
      rw [List.cons_append]
      by_cases hx : p x = true
      · obtain ⟨y, hmem, hy⟩ := h
        rcases List.mem_cons.mp hmem with rfl | hrest
        · rw [hx] at hy
          cases hy
        · rw [List.dropWhile_cons_of_pos hx, List.dropWhile_cons_of_pos hx, ih ⟨y, hrest, hy⟩]
      · rw [List.dropWhile_cons_of_neg hx, List.dropWhile_cons_of_neg hx, List.cons_append]

theorem mem_intercalate {α : Type} {sep piece : List α} {pieces : List (List α)} (hmem : piece ∈ pieces) {x : α}
    (hx : x ∈ piece) : x ∈ sep.intercalate pieces := by
  induction pieces with
  | nil => cases hmem
  | cons first rest ih =>
      cases rest with
      | nil =>
          rw [List.mem_singleton.mp hmem] at hx
          rwa [List.intercalate_singleton]
      | cons next rest =>
          rw [List.intercalate_cons_cons, List.append_assoc, List.mem_append, List.mem_append]
          rcases List.mem_cons.mp hmem with rfl | hrest
          · exact Or.inl hx
          · exact Or.inr (Or.inr (ih hrest))

theorem trim_eq (s : String) : trim s = trimEnd (String.ofList (s.toList.dropWhile isWhitespace)) := by
  rw [trim, trimEnd, String.toList_ofList]

/-- Nothing is left of a text exactly when it is white space. -/
theorem trim_eq_empty_iff {s : String} : trim s = "" ↔ ∀ c ∈ s.toList, isWhitespace c = true := by
  have hempty : ∀ cs : List Char, String.ofList cs = "" ↔ cs = [] := fun cs =>
    ⟨fun h => by simpa using congrArg String.toList h, fun h => by rw [h]⟩
  rw [trim, hempty, List.reverse_eq_nil_iff, List.dropWhile_eq_nil_iff]
  constructor
  · intro h
    by_contra hne
    have hcons : s.toList.dropWhile isWhitespace ≠ [] := fun hnil => hne (List.dropWhile_eq_nil_iff.mp hnil)
    have hhead := List.head_dropWhile_not isWhitespace hcons
    rw [h _ (List.mem_reverse.mpr (List.head_mem hcons))] at hhead
    cases hhead
  · intro h x hmem
    exact h x ((List.dropWhile_sublist _).subset (List.mem_reverse.mp hmem))

/-- White space at the end of a line is trimmed. -/
theorem trim_append_whitespace (line : List Char) {c : Char} (hc : isWhitespace c = true) :
    trim (String.ofList (line ++ [c])) = trim (String.ofList line) := by
  by_cases hall : ∃ x ∈ line, isWhitespace x = false
  · rw [trim_eq, trim_eq, String.toList_ofList, String.toList_ofList, dropWhile_append_of_exists hall, trimEnd, trimEnd,
      String.toList_ofList, String.toList_ofList, List.reverse_append, List.reverse_singleton, List.singleton_append,
      List.dropWhile_cons_of_pos hc]
  · have hwhite : ∀ x ∈ line, isWhitespace x = true := by
      intro x hmem
      by_contra hx
      exact hall ⟨x, hmem, Bool.eq_false_iff.mpr hx⟩
    have hblank : trim (String.ofList (line ++ [c])) = "" := by
      rw [trim_eq_empty_iff, String.toList_ofList, List.forall_mem_append]
      exact ⟨hwhite, List.forall_mem_singleton.mpr hc⟩
    rw [hblank, eq_comm, trim_eq_empty_iff, String.toList_ofList]
    exact hwhite

section Lines

variable {α : Type} {f : String → Option α}

/-- What is found in the lines of a text, when only their trimmed form counts: neither the carriage return at the
end of a line nor an empty line makes a difference to it. -/
theorem filterMap_lines (htrim : ∀ line other, trim line = trim other → f line = f other) (hempty : f "" = none)
    (s : String) :
    (lines s).filterMap f = (s.toList.splitOn '\n').filterMap fun piece => f (String.ofList piece) := by
  have hreturn : ∀ piece, f (String.ofList (stripReturn piece)) = f (String.ofList piece) := by
    intro piece
    unfold stripReturn
    split_ifs with hlast
    · obtain ⟨start, rfl⟩ := List.getLast?_eq_some_iff.mp hlast
      rw [List.dropLast_concat]
      exact (htrim _ _ (trim_append_whitespace start (by decide))).symm
    · rfl
  obtain ⟨start, last, hpieces⟩ : ∃ start last, s.toList.splitOn '\n' = start ++ [last] :=
    ⟨_, _, (List.dropLast_append_getLast (List.splitOn_ne_nil _ _)).symm⟩
  have hlast : ((if last.isEmpty then [] else [last]).map String.ofList).filterMap f =
      [last].filterMap fun piece => f (String.ofList piece) := by
    cases last with
    | nil => exact (List.filterMap_cons_none hempty).symm
    | cons c rest => exact List.filterMap_map
  simp only [lines, hpieces]
  rw [List.dropLast_concat, List.getLast?_concat, Option.getD_some]
  rw [List.map_append, List.filterMap_append, List.filterMap_append, hlast, List.map_map, List.filterMap_map]
  exact congrArg (· ++ _) (List.filterMap_congr fun piece _ => hreturn piece)

/-- The lines of two texts with a line feed between them are those of the one and then those of the other. -/
theorem filterMap_lines_append (htrim : ∀ line other, trim line = trim other → f line = f other)
    (hempty : f "" = none) (left right : String) :
    (lines (left ++ "\n" ++ right)).filterMap f = (lines left).filterMap f ++ (lines right).filterMap f := by
  rw [filterMap_lines htrim hempty, filterMap_lines htrim hempty, filterMap_lines htrim hempty, String.toList_append,
    String.toList_append, List.append_assoc]
  show ((left.toList ++ '\n' :: right.toList).splitOn '\n').filterMap _ = _
  rw [List.splitOn_append_cons_self, List.filterMap_append]

/-- Nothing is found in white space. -/
theorem filterMap_lines_blank (htrim : ∀ line other, trim line = trim other → f line = f other)
    (hempty : f "" = none) {s : String}
    (hblank : trim s = "") : (lines s).filterMap f = [] := by
  rw [trim_eq_empty_iff] at hblank
  rw [filterMap_lines htrim hempty, List.filterMap_eq_nil_iff]
  intro piece hmem
  have hpiece : ∀ c ∈ (String.ofList piece).toList, isWhitespace c = true := by
    intro c hc
    rw [String.toList_ofList] at hc
    apply hblank
    have hjoin : ['\n'].intercalate (s.toList.splitOn '\n') = s.toList := List.intercalate_splitOn '\n'
    rw [← hjoin]
    exact mem_intercalate hmem hc
  calc f (String.ofList piece) = f "" := htrim _ "" (trim_eq_empty_iff.mpr hpiece)
    _ = none := hempty

end Lines

/-! ### The end of a text -/

theorem trimEnd_append {left right : String} (h : ∃ c ∈ right.toList, isWhitespace c = false) :
    trimEnd (left ++ right) = left ++ trimEnd right := by
  obtain ⟨c, hmem, hc⟩ := h
  rw [trimEnd, trimEnd, String.toList_append, List.reverse_append,
    dropWhile_append_of_exists ⟨c, List.mem_reverse.mpr hmem, hc⟩, List.reverse_append, List.reverse_reverse,
    String.ofList_append, String.ofList_toList]

theorem trimEnd_of_blank {s : String} (h : ¬ ∃ c ∈ s.toList, isWhitespace c = false) : trimEnd s = "" := by
  have hnil : s.toList.reverse.dropWhile isWhitespace = [] := by
    apply List.dropWhile_eq_nil_iff.mpr
    intro c hmem
    by_contra hc
    exact h ⟨c, List.mem_reverse.mp hmem, Bool.eq_false_iff.mpr hc⟩
  rw [trimEnd, hnil]
  rfl

/-- A text that starts with no white space is trimmed at its end only. -/
theorem trim_of_head {c : Char} {s : String} {rest : List Char} (hs : s.toList = c :: rest)
    (hc : isWhitespace c = false) : trim s = trimEnd s := by
  rw [trim_eq, hs, List.dropWhile_cons_of_neg (by simp [hc]), ← hs, String.ofList_toList]

/-- The texts stand in the other one, each after the one before it. -/
def InOrder : List String → String → Prop
  | [], _ => True
  | t :: rest, s => ∃ before after, s = before ++ t ++ after ∧ InOrder rest after

theorem InOrder.mem {texts : List String} {s t : String} (h : InOrder texts s) (hmem : t ∈ texts) {c : Char}
    (hc : c ∈ t.toList) : c ∈ s.toList := by
  induction texts generalizing s with
  | nil => cases hmem
  | cons first rest ih =>
      obtain ⟨before, after, rfl, hrest⟩ := h
      rw [String.toList_append, String.toList_append, List.mem_append, List.mem_append]
      rcases List.mem_cons.mp hmem with rfl | hmem
      · exact Or.inl (Or.inr hc)
      · exact Or.inr (ih hrest hmem)

/-- A text with a character that the other one does not have is not shown in it. -/
theorem not_inOrder {α : Type} {items : List α} {text : α → String} {s : String} {c : Char}
    (hitem : (items.any fun item => (text item).toList.contains c) = true) (hs : s.toList.contains c = false) :
    ¬ InOrder (items.map text) s := by
  intro hshown
  obtain ⟨item, hmem, hc⟩ := List.any_eq_true.mp hitem
  have hin := hshown.mem (List.mem_map_of_mem hmem) (List.contains_iff_mem.mp hc)
  rw [← List.contains_iff_mem, hs] at hin
  cases hin

/-- The texts with the last one trimmed at its end. -/
def trimLast : List String → List String
  | [] => []
  | [t] => [trimEnd t]
  | t :: next :: rest => t :: trimLast (next :: rest)

/-- Texts that are joined behind another one and trimmed at the end. -/
theorem inOrder_trimEnd {sep : String} (hsep : ∃ c ∈ sep.toList, isWhitespace c = false) (texts : List String)
    {start : String} (hstart : ∃ c ∈ start.toList, isWhitespace c = false) :
    InOrder (trimLast texts) (trimEnd (start ++ sep.intercalate texts)) := by
  induction texts generalizing start with
  | nil => trivial
  | cons t rest ih =>
      cases rest with
      | nil =>
          rw [String.intercalate_singleton]
          by_cases hblank : ∃ c ∈ t.toList, isWhitespace c = false
          · exact ⟨start, "", by rw [trimEnd_append hblank, String.append_empty], trivial⟩
          · exact ⟨trimEnd (start ++ t), "", by rw [trimEnd_of_blank hblank, String.append_empty, String.append_empty],
              trivial⟩
      | cons next rest =>
          have hrest : ∃ c ∈ (sep ++ sep.intercalate (next :: rest)).toList, isWhitespace c = false := by
            obtain ⟨c, hmem, hc⟩ := hsep
            exact ⟨c, by rw [String.toList_append]; exact List.mem_append_left _ hmem, hc⟩
          refine ⟨start, trimEnd (sep ++ sep.intercalate (next :: rest)), ?_, ih hsep⟩
          rw [String.intercalate_cons_cons, ← trimEnd_append hrest, String.append_assoc, String.append_assoc]

end Text
