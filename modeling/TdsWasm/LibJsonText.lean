import TdsWasm.LibDecode

/-! JSON texts: a compact writer, a reader, and the proof that reading undoes writing. Together they
are a concrete `JsonCodec`. -/

set_option autoImplicit false

namespace Json.Text

/-! ### Writing -/

def hexDigit (n : Nat) : Char := n.digitChar

/-- A character inside a string literal. -/
def escape (c : Char) : List Char :=
  if c = '"' then ['\\', '"']
  else if c = '\\' then ['\\', '\\']
  else if c = '\n' then ['\\', 'n']
  else if c = '\r' then ['\\', 'r']
  else if c = '\t' then ['\\', 't']
  else if c = '\x08' then ['\\', 'b']
  else if c = '\x0c' then ['\\', 'f']
  else if c.toNat < 32 then ['\\', 'u', '0', '0', hexDigit (c.toNat / 16), hexDigit (c.toNat % 16)]
  else [c]

def writeString (cs : List Char) : List Char := '"' :: cs.flatMap escape ++ ['"']

mutual

def write : Json → List Char
  | .null => ['n', 'u', 'l', 'l']
  | .bool true => ['t', 'r', 'u', 'e']
  | .bool false => ['f', 'a', 'l', 's', 'e']
  | .num n => n.literal
  | .str s => writeString (Text.chars s)
  | .arr items => '[' :: writeItems items
  | .obj members => '{' :: writeMembers members

/-- What follows the bracket, or the comma before an item. -/
def writeItems : List Json → List Char
  | [] => [']']
  | [item] => write item ++ [']']
  | item :: next :: rest => write item ++ ',' :: writeItems (next :: rest)

def writeMembers : List (String × Json) → List Char
  | [] => ['}']
  | [(name, item)] => writeString (Text.chars name) ++ ':' :: write item ++ ['}']
  | (name, item) :: next :: rest =>
      writeString (Text.chars name) ++ ':' :: write item ++ ',' :: writeMembers (next :: rest)

end

/-! ### Reading -/

def skipSpace : List Char → List Char
  | [] => []
  | c :: cs => if c = ' ' ∨ c = '\n' ∨ c = '\t' ∨ c = '\r' then skipSpace cs else c :: cs

def hexValue (c : Char) : Option Nat :=
  if '0' ≤ c ∧ c ≤ '9' then some (c.toNat - '0'.toNat)
  else if 'a' ≤ c ∧ c ≤ 'f' then some (c.toNat - 'a'.toNat + 10)
  else if 'A' ≤ c ∧ c ≤ 'F' then some (c.toNat - 'A'.toNat + 10)
  else none

def hex4 (a b c d : Char) : Option Nat := do
  let a ← hexValue a
  let b ← hexValue b
  let c ← hexValue c
  let d ← hexValue d
  return a * 4096 + b * 256 + c * 16 + d

def simpleEscape (c : Char) : Option Char :=
  [('"', '"'), ('\\', '\\'), ('/', '/'), ('b', '\x08'), ('f', '\x0c'), ('n', '\n'), ('r', '\r'),
    ('t', '\t')].lookup c

def push (c : Char) (read : List Char × List Char) : List Char × List Char := (c :: read.1, read.2)

/-- The characters of a string literal after its opening quote, and what follows the literal. A
pair of surrogate escapes stands for one character; a lone surrogate is refused. -/
def readString : List Char → Option (List Char × List Char)
  | [] => none
  | '"' :: rest => some ([], rest)
  | '\\' :: 'u' :: a :: b :: c :: d :: rest =>
      (hex4 a b c d).bind fun code =>
        if 0xD800 ≤ code ∧ code ≤ 0xDBFF then
          match rest with
          | '\\' :: 'u' :: a' :: b' :: c' :: d' :: rest' =>
              (hex4 a' b' c' d').bind fun low =>
                if 0xDC00 ≤ low ∧ low ≤ 0xDFFF then
                  (readString rest').map
                    (push (Char.ofNat (0x10000 + (code - 0xD800) * 0x400 + (low - 0xDC00))))
                else none
          | _ => none
        else if 0xDC00 ≤ code ∧ code ≤ 0xDFFF then none
        else (readString rest).map (push (Char.ofNat code))
  | '\\' :: c :: rest => (simpleEscape c).bind fun c => (readString rest).map (push c)
  | c :: rest => if c.toNat < 32 ∨ c = '\\' then none else (readString rest).map (push c)

def isNumberChar (c : Char) : Bool := c.isDigit || ['+', '-', '.', 'e', 'E'].contains c

def readNumber (cs : List Char) : Option (Json × List Char) :=
  if h : Numeral.wellFormed (cs.takeWhile isNumberChar) = true then
    some (.num ⟨_, h⟩, cs.dropWhile isNumberChar)
  else none

def readKeyword (tail : List Char) (j : Json) (cs : List Char) : Option (Json × List Char) :=
  if tail.isPrefixOf cs then some (j, cs.drop tail.length) else none

mutual

def readValue : Nat → List Char → Option (Json × List Char)
  | 0, _ => none
  | fuel + 1, cs =>
      match skipSpace cs with
      | [] => none
      | c :: rest =>
          if c = 'n' then readKeyword ['u', 'l', 'l'] .null rest
          else if c = 't' then readKeyword ['r', 'u', 'e'] (.bool true) rest
          else if c = 'f' then readKeyword ['a', 'l', 's', 'e'] (.bool false) rest
          else if c = '"' then (readString rest).map fun read => (.str (String.ofList read.1), read.2)
          else if c = '[' then
            match skipSpace rest with
            | ']' :: rest => some (.arr [], rest)
            | _ => (readItems fuel rest).map fun read => (.arr read.1, read.2)
          else if c = '{' then
            match skipSpace rest with
            | '}' :: rest => some (.obj [], rest)
            | _ => (readMembers fuel rest).map fun read => (.obj read.1, read.2)
          else readNumber (c :: rest)

/-- One item or more, up to the closing bracket. -/
def readItems : Nat → List Char → Option (List Json × List Char)
  | 0, _ => none
  | fuel + 1, cs =>
      (readValue fuel cs).bind fun read =>
        match skipSpace read.2 with
        | ',' :: rest => (readItems fuel rest).map fun next => (read.1 :: next.1, next.2)
        | ']' :: rest => some ([read.1], rest)
        | _ => none

def readMembers : Nat → List Char → Option (List (String × Json) × List Char)
  | 0, _ => none
  | fuel + 1, cs =>
      match skipSpace cs with
      | '"' :: rest =>
          (readString rest).bind fun name =>
            match skipSpace name.2 with
            | ':' :: rest =>
                (readValue fuel rest).bind fun read =>
                  match skipSpace read.2 with
                  | ',' :: rest => (readMembers fuel rest).map fun next =>
                      ((String.ofList name.1, read.1) :: next.1, next.2)
                  | '}' :: rest => some ([(String.ofList name.1, read.1)], rest)
                  | _ => none
            | _ => none
      | _ => none

end

/-- Read a whole text. Every nested call consumes a character, so its length is enough fuel. -/
def read (cs : List Char) : Option Json :=
  (readValue (cs.length + 1) cs).bind fun (j, rest) => if skipSpace rest = [] then some j else none

/-! ### Reading undoes writing -/

theorem hexValue_hexDigit : ∀ n, n < 16 → hexValue (hexDigit n) = some n := by decide

theorem readString_plain {c : Char} (hquote : c ≠ '"') (hslash : c ≠ '\\') (hcontrol : ¬ c.toNat < 32)
    (rest : List Char) : readString (c :: rest) = (readString rest).map (push c) := by
  rw [readString.eq_def]
  split <;> simp_all

theorem readString_escape (c : Char) (rest : List Char) :
    readString (escape c ++ rest) = (readString rest).map (push c) := by
  rw [escape]
  split_ifs with hquote hslash hn hr ht hb hf hcontrol
  · subst hquote
    rfl
  · subst hslash
    rfl
  · subst hn
    rfl
  · subst hr
    rfl
  · subst ht
    rfl
  · subst hb
    rfl
  · subst hf
    rfl
  · have hhigh := hexValue_hexDigit (c.toNat / 16) (by omega)
    have hlow := hexValue_hexDigit (c.toNat % 16) (by omega)
    have hcode : hex4 '0' '0' (hexDigit (c.toNat / 16)) (hexDigit (c.toNat % 16)) = some c.toNat := by
      have hzero : hexValue '0' = some 0 := by decide
      have hsum : 0 * 4096 + 0 * 256 + c.toNat / 16 * 16 + c.toNat % 16 = c.toNat := by omega
      simp only [hex4, hzero, hhigh, hlow, Option.bind_eq_bind, Option.bind_some, Option.pure_def, hsum]
    rw [List.cons_append, List.cons_append, List.cons_append, List.cons_append, List.cons_append,
      List.cons_append, List.nil_append, readString, hcode, Option.bind_some, if_neg (by omega),
      if_neg (by omega), Char.ofNat_toNat]
  · exact readString_plain hquote hslash hcontrol rest

theorem readString_writeString (cs rest : List Char) :
    readString (cs.flatMap escape ++ '"' :: rest) = some (cs, rest) := by
  induction cs with
  | nil => rfl
  | cons c cs ih =>
      rw [List.flatMap_cons, List.append_assoc, readString_escape, ih]
      rfl

/-- What follows a number in a text: nothing, or a character that cannot be part of it. -/
def Delimited (rest : List Char) : Prop := ∀ c, rest.head? = some c → isNumberChar c = false

theorem takeWhile_append_delimited {cs rest : List Char} (hall : ∀ c ∈ cs, isNumberChar c = true)
    (hrest : Delimited rest) :
    (cs ++ rest).takeWhile isNumberChar = cs ∧ (cs ++ rest).dropWhile isNumberChar = rest := by
  have hstop : rest.takeWhile isNumberChar = [] ∧ rest.dropWhile isNumberChar = rest := by
    cases rest with
    | nil => exact ⟨rfl, rfl⟩
    | cons c rest =>
        have hc := hrest c rfl
        simp [hc]
  rw [List.takeWhile_append_of_pos hall, List.dropWhile_append_of_pos hall, hstop.1, hstop.2,
    List.append_nil]
  exact ⟨rfl, rfl⟩

theorem isNumberChar_of_digit {c : Char} (h : c.isDigit = true) : isNumberChar c = true := by
  rw [isNumberChar, h, Bool.true_or]

theorem all_of_takeWhile {p q : Char → Bool} {cs : List Char} (hp : ∀ c ∈ cs.takeWhile p, q c = true)
    (hrest : ∀ c ∈ cs.dropWhile p, q c = true) : ∀ c ∈ cs, q c = true := by
  intro c hc
  rw [← List.takeWhile_append_dropWhile (p := p) (l := cs)] at hc
  rcases List.mem_append.mp hc with hc | hc
  · exact hp c hc
  · exact hrest c hc

theorem isNumberChar_of_digits {cs : List Char} (h : Numeral.digits cs = true) :
    ∀ c ∈ cs, isNumberChar c = true := by
  intro c hc
  rw [Numeral.digits, Bool.and_eq_true, List.all_eq_true] at h
  exact isNumberChar_of_digit (h.2 c hc)

theorem isNumberChar_of_takeWhile (cs : List Char) :
    ∀ c ∈ cs.takeWhile Char.isDigit, isNumberChar c = true := fun _ hc =>
  isNumberChar_of_digit (List.mem_takeWhile_imp hc)

theorem isNumberChar_of_signedDigits {cs : List Char} (h : Numeral.signedDigits cs = true) :
    ∀ c ∈ cs, isNumberChar c = true := by
  cases cs with
  | nil => simp
  | cons c cs =>
      rw [Numeral.signedDigits] at h
      split_ifs at h with hsign
      · refine List.forall_mem_cons.mpr ⟨?_, isNumberChar_of_digits h⟩
        rcases hsign with rfl | rfl <;> decide
      · exact isNumberChar_of_digits h

theorem isNumberChar_of_exponentPart {cs : List Char} (h : Numeral.exponentPart cs = true) :
    ∀ c ∈ cs, isNumberChar c = true := by
  cases cs with
  | nil => simp
  | cons c cs =>
      rw [Numeral.exponentPart, Bool.and_eq_true, Bool.or_eq_true, beq_iff_eq, beq_iff_eq] at h
      refine List.forall_mem_cons.mpr ⟨?_, isNumberChar_of_signedDigits h.2⟩
      rcases h.1 with rfl | rfl <;> decide

theorem isNumberChar_of_fractionPart {cs : List Char} (h : Numeral.fractionPart cs = true) :
    ∀ c ∈ cs, isNumberChar c = true := by
  cases cs with
  | nil => simp
  | cons c cs =>
      rw [Numeral.fractionPart] at h
      split_ifs at h with hpoint
      · rw [Bool.and_eq_true] at h
        subst hpoint
        exact List.forall_mem_cons.mpr ⟨by decide,
          all_of_takeWhile (isNumberChar_of_takeWhile cs) (isNumberChar_of_exponentPart h.2)⟩
      · exact isNumberChar_of_exponentPart h

theorem isNumberChar_of_unsigned {cs : List Char} (h : Numeral.unsigned cs = true) :
    ∀ c ∈ cs, isNumberChar c = true := by
  rw [Numeral.unsigned, Bool.and_eq_true] at h
  exact all_of_takeWhile (isNumberChar_of_takeWhile cs) (isNumberChar_of_fractionPart h.2)

/-- A literal starts with a minus sign or a digit and has number characters only. -/
theorem literal_shape (n : Numeral) : ∃ c cs, n.literal = c :: cs ∧ (c = '-' ∨ c.isDigit = true) ∧
    ∀ d ∈ n.literal, isNumberChar d = true := by
  have hvalid := n.valid
  cases hliteral : n.literal with
  | nil =>
      rw [hliteral] at hvalid
      cases hvalid
  | cons c cs =>
      rw [hliteral, Numeral.wellFormed] at hvalid
      refine ⟨c, cs, rfl, ?_⟩
      split_ifs at hvalid with hminus
      · subst hminus
        exact ⟨Or.inl rfl, List.forall_mem_cons.mpr ⟨by decide, isNumberChar_of_unsigned hvalid⟩⟩
      · refine ⟨Or.inr ?_, isNumberChar_of_unsigned hvalid⟩
        by_contra hdigit
        rw [Numeral.unsigned, List.takeWhile_cons_of_neg hdigit] at hvalid
        cases hvalid

theorem readNumber_literal (n : Numeral) {rest : List Char} (hrest : Delimited rest) :
    readNumber (n.literal ++ rest) = some (.num n, rest) := by
  obtain ⟨_, _, _, _, hall⟩ := literal_shape n
  obtain ⟨htake, hdrop⟩ := takeWhile_append_delimited hall hrest
  have hvalid : Numeral.wellFormed ((n.literal ++ rest).takeWhile isNumberChar) = true := by
    rw [htake, n.valid]
  rw [readNumber, dif_pos hvalid, hdrop]
  congr 3
  exact Numeral.mk.injEq .. ▸ htake

mutual

/-- How much fuel a document takes. -/
def weight : Json → Nat
  | .null | .bool _ | .num _ | .str _ => 1
  | .arr items => weightItems items + 1
  | .obj members => weightMembers members + 1

def weightItems : List Json → Nat
  | [] => 0
  | item :: rest => weight item + weightItems rest + 1

def weightMembers : List (String × Json) → Nat
  | [] => 0
  | (_, item) :: rest => weight item + weightMembers rest + 1

end

def isSpace (c : Char) : Prop := c = ' ' ∨ c = '\n' ∨ c = '\t' ∨ c = '\r'

theorem skipSpace_cons {c : Char} (cs : List Char) (h : ¬ isSpace c) :
    skipSpace (c :: cs) = c :: cs := if_neg h

/-- A written document starts with a character that is neither space nor a closing bracket. -/
theorem write_head (j : Json) : ∃ c cs, write j = c :: cs ∧ ¬ isSpace c ∧ c ≠ ']' := by
  cases j with
  | null => exact ⟨_, _, rfl, by unfold isSpace; decide, by decide⟩
  | bool b => cases b <;> exact ⟨_, _, rfl, by unfold isSpace; decide, by decide⟩
  | num n =>
      obtain ⟨c, cs, hliteral, hhead, _⟩ := literal_shape n
      refine ⟨c, cs, by rw [write, hliteral], ?_, ?_⟩
      · rintro (rfl | rfl | rfl | rfl) <;> revert hhead <;> decide
      · rintro rfl
        revert hhead
        decide
  | str s => exact ⟨_, _, rfl, by unfold isSpace; decide, by decide⟩
  | arr items => exact ⟨_, _, rfl, by unfold isSpace; decide, by decide⟩
  | obj members => exact ⟨_, _, rfl, by unfold isSpace; decide, by decide⟩

theorem delimited_cons {c : Char} (rest : List Char) (h : isNumberChar c = false) :
    Delimited (c :: rest) := by
  rintro d ⟨⟩
  exact h

/-- Reading gives back a document that is followed by something else. -/
def Reads (j : Json) : Prop := ∀ fuel rest, weight j ≤ fuel → Delimited rest →
  readValue fuel (write j ++ rest) = some (j, rest)

theorem readItems_write {items : List Json} (hne : items ≠ []) (h : ∀ item ∈ items, Reads item)
    (fuel : Nat) (rest : List Char) (hfuel : weightItems items ≤ fuel) :
    readItems fuel (writeItems items ++ rest) = some (items, rest) := by
  induction items generalizing fuel with
  | nil => exact absurd rfl hne
  | cons item next ih =>
      obtain ⟨hitem, hnext⟩ := List.forall_mem_cons.mp h
      rw [weightItems] at hfuel
      obtain ⟨fuel, rfl⟩ : ∃ f, fuel = f + 1 := ⟨fuel - 1, by omega⟩
      cases next with
      | nil =>
          rw [writeItems, List.append_assoc, List.singleton_append, readItems,
            hitem fuel _ (by omega) (delimited_cons _ (by decide)), Option.bind_some,
            skipSpace_cons _ (by unfold isSpace; decide)]
          rfl
      | cons head tail =>
          rw [writeItems, List.append_assoc, List.cons_append, readItems,
            hitem fuel _ (by omega) (delimited_cons _ (by decide)), Option.bind_some,
            skipSpace_cons _ (by unfold isSpace; decide)]
          simp only [ih (by simp) hnext fuel (by omega), Option.map_some]

theorem readMembers_write {members : List (String × Json)} (hne : members ≠ [])
    (h : ∀ member ∈ members, Reads member.2) (fuel : Nat) (rest : List Char)
    (hfuel : weightMembers members ≤ fuel) :
    readMembers fuel (writeMembers members ++ rest) = some (members, rest) := by
  induction members generalizing fuel with
  | nil => exact absurd rfl hne
  | cons member next ih =>
      obtain ⟨name, item⟩ := member
      have hitem : Reads item := h (name, item) (by simp)
      have hnext : ∀ member ∈ next, Reads member.2 := fun member hmem =>
        h member (List.mem_cons_of_mem _ hmem)
      rw [weightMembers] at hfuel
      obtain ⟨fuel, rfl⟩ : ∃ f, fuel = f + 1 := ⟨fuel - 1, by omega⟩
      have hname : ∀ after : List Char, readMembers (fuel + 1)
          (writeString (Text.chars name) ++ ':' :: write item ++ after) =
            (readValue fuel (write item ++ after)).bind fun read =>
              match skipSpace read.2 with
              | ',' :: rest => (readMembers fuel rest).map fun next =>
                  ((name, read.1) :: next.1, next.2)
              | '}' :: rest => some ([(name, read.1)], rest)
              | _ => none := by
        intro after
        simp only [writeString, List.cons_append, List.append_assoc, List.nil_append]
        rw [readMembers, skipSpace_cons _ (by unfold isSpace; decide)]
        simp only [readString_writeString, Option.bind_some,
          skipSpace_cons (c := ':') _ (by unfold isSpace; decide), Text.chars_eq, String.ofList_toList]
      cases next with
      | nil =>
          rw [writeMembers, List.append_assoc, hname, List.singleton_append,
            hitem fuel _ (by omega) (delimited_cons _ (by decide)), Option.bind_some,
            skipSpace_cons _ (by unfold isSpace; decide)]
          rfl
      | cons head tail =>
          rw [writeMembers, List.append_assoc, hname, List.cons_append,
            hitem fuel _ (by omega) (delimited_cons _ (by decide)), Option.bind_some,
            skipSpace_cons _ (by unfold isSpace; decide)]
          simp only [ih (by simp) hnext fuel (by omega), Option.map_some]

theorem reads_num (n : Numeral) : Reads (.num n) := by
  intro fuel rest hfuel hrest
  obtain ⟨c, cs, hliteral, hhead, _⟩ := literal_shape n
  obtain ⟨fuel, rfl⟩ : ∃ f, fuel = f + 1 := ⟨fuel - 1, by rw [weight] at hfuel; omega⟩
  have hspace : ¬ isSpace c := by
    rintro (rfl | rfl | rfl | rfl) <;> revert hhead <;> decide
  have hstart : c ≠ 'n' ∧ c ≠ 't' ∧ c ≠ 'f' ∧ c ≠ '"' ∧ c ≠ '[' ∧ c ≠ '{' := by
    refine ⟨?_, ?_, ?_, ?_, ?_, ?_⟩ <;> rintro rfl <;> revert hhead <;> decide
  obtain ⟨hn, ht, hf, hquote, harr, hobj⟩ := hstart
  have hread := readNumber_literal n hrest
  rw [write, hliteral, List.cons_append, readValue, skipSpace_cons _ hspace]
  rw [hliteral, List.cons_append] at hread
  simp only [hn, ht, hf, hquote, harr, hobj, if_false, hread]

theorem reads_arr {items : List Json} (h : ∀ item ∈ items, Reads item) : Reads (.arr items) := by
  intro fuel rest hfuel hrest
  rw [weight] at hfuel
  obtain ⟨fuel, rfl⟩ : ∃ f, fuel = f + 1 := ⟨fuel - 1, by omega⟩
  cases items with
  | nil => rfl
  | cons item next =>
      have hitems := readItems_write (by simp) h fuel rest (by omega)
      have hfirst : ∃ c cs, writeItems (item :: next) ++ rest = c :: cs ∧ ¬ isSpace c ∧ c ≠ ']' := by
        obtain ⟨c, cs, hwrite, hspace, hclose⟩ := write_head item
        cases next with
        | nil => exact ⟨c, _, by rw [writeItems, hwrite]; rfl, hspace, hclose⟩
        | cons head tail => exact ⟨c, _, by rw [writeItems, hwrite]; rfl, hspace, hclose⟩
      obtain ⟨c, cs, hwrite, hspace, hclose⟩ := hfirst
      rw [hwrite] at hitems
      rw [write, List.cons_append, hwrite, readValue, skipSpace_cons _ (by unfold isSpace; decide)]
      simp [skipSpace_cons _ hspace, hitems, hclose]

theorem reads_obj {members : List (String × Json)} (h : ∀ member ∈ members, Reads member.2) :
    Reads (.obj members) := by
  intro fuel rest hfuel hrest
  rw [weight] at hfuel
  obtain ⟨fuel, rfl⟩ : ∃ f, fuel = f + 1 := ⟨fuel - 1, by omega⟩
  cases members with
  | nil => rfl
  | cons member next =>
      have hmembers := readMembers_write (by simp) h fuel rest (by omega)
      have hfirst : ∃ cs, writeMembers (member :: next) ++ rest = '"' :: cs := by
        cases next with
        | nil => exact ⟨_, rfl⟩
        | cons head tail => exact ⟨_, rfl⟩
      obtain ⟨cs, hwrite⟩ := hfirst
      rw [hwrite] at hmembers
      rw [write, List.cons_append, hwrite, readValue, skipSpace_cons _ (by unfold isSpace; decide)]
      simp [skipSpace_cons (c := '"') _ (by unfold isSpace; decide), hmembers]

theorem reads_str (s : String) : Reads (.str s) := by
  intro fuel rest hfuel hrest
  obtain ⟨fuel, rfl⟩ : ∃ f, fuel = f + 1 := ⟨fuel - 1, by rw [weight] at hfuel; omega⟩
  rw [write, writeString, List.append_assoc, List.singleton_append, List.cons_append, readValue,
    skipSpace_cons _ (by unfold isSpace; decide)]
  simp [readString_writeString, Text.chars_eq]

theorem readValue_keyword {c : Char} {tail : List Char} {j : Json} (fuel : Nat) (rest : List Char)
    (h : (c, tail, j) ∈ [('n', ['u', 'l', 'l'], Json.null), ('t', ['r', 'u', 'e'], .bool true),
      ('f', ['a', 'l', 's', 'e'], .bool false)]) :
    readValue (fuel + 1) (c :: tail ++ rest) = some (j, rest) := by
  simp only [List.mem_cons, List.not_mem_nil, Prod.mk.injEq, or_false] at h
  rcases h with ⟨rfl, rfl, rfl⟩ | ⟨rfl, rfl, rfl⟩ | ⟨rfl, rfl, rfl⟩ <;>
    simp [readValue, readKeyword, skipSpace]

theorem reads (j : Json) : Reads j := by
  induction j using Json.induction with
  | null =>
      intro fuel rest hfuel hrest
      obtain ⟨fuel, rfl⟩ : ∃ f, fuel = f + 1 := ⟨fuel - 1, by rw [weight] at hfuel; omega⟩
      rw [write]
      exact readValue_keyword fuel rest (by simp)
  | bool b =>
      intro fuel rest hfuel hrest
      obtain ⟨fuel, rfl⟩ : ∃ f, fuel = f + 1 := ⟨fuel - 1, by rw [weight] at hfuel; omega⟩
      cases b with
      | false =>
          rw [write]
          exact readValue_keyword fuel rest (by simp)
      | true =>
          rw [write]
          exact readValue_keyword fuel rest (by simp)
  | str s => exact reads_str s
  | num n => exact reads_num n
  | arr items ih => exact reads_arr ih
  | obj members ih => exact reads_obj ih

/-! ### Fuel -/

theorem weightItems_le_length {items : List Json}
    (h : ∀ item ∈ items, weight item ≤ (write item).length) :
    weightItems items ≤ (writeItems items).length := by
  induction items with
  | nil => simp [weightItems]
  | cons item next ih =>
      obtain ⟨hitem, hnext⟩ := List.forall_mem_cons.mp h
      have hrest := ih hnext
      rw [weightItems]
      cases next with
      | nil =>
          rw [writeItems, List.length_append, List.length_singleton, weightItems]
          omega
      | cons head tail =>
          rw [writeItems, List.length_append, List.length_cons]
          omega

theorem weightMembers_le_length {members : List (String × Json)}
    (h : ∀ member ∈ members, weight member.2 ≤ (write member.2).length) :
    weightMembers members ≤ (writeMembers members).length := by
  induction members with
  | nil => simp [weightMembers]
  | cons member next ih =>
      obtain ⟨name, item⟩ := member
      have hitem : weight item ≤ (write item).length := h (name, item) (by simp)
      have hrest := ih fun member hmem => h member (List.mem_cons_of_mem _ hmem)
      rw [weightMembers]
      cases next with
      | nil =>
          simp only [writeMembers, List.length_append, List.length_cons, weightMembers]
          omega
      | cons head tail =>
          simp only [writeMembers, List.length_append, List.length_cons]
          omega

theorem length_write_pos (j : Json) : 1 ≤ (write j).length := by
  obtain ⟨c, cs, hwrite, _, _⟩ := write_head j
  rw [hwrite, List.length_cons]
  omega

theorem weight_le_length (j : Json) : weight j ≤ (write j).length := by
  induction j using Json.induction with
  | null | bool b | num n | str s =>
      rw [weight]
      exact length_write_pos _
  | arr items ih =>
      have := weightItems_le_length ih
      rw [weight, write, List.length_cons]
      omega
  | obj members ih =>
      have := weightMembers_le_length ih
      rw [weight, write, List.length_cons]
      omega

/-- Reading undoes writing. -/
theorem read_write (j : Json) : read (write j) = some j := by
  have hread := reads j ((write j).length + 1) [] (by have := weight_le_length j; omega)
    (by rintro d ⟨⟩)
  rw [List.append_nil] at hread
  rw [read, hread]
  rfl

end Json.Text

/-- A concrete JSON library: texts without spaces in UTF-8. -/
def JsonCodec.compact : JsonCodec where
  toVec j := Text.encodeChars (Json.Text.write j)
  parse bytes := (Text.strictChars bytes.length bytes).bind Json.Text.read
  errorText target _ := "expected a text of type " ++ target
  rereads _ := True
  parse_toVec j _ := by
    rw [Text.strictChars_encodeChars _ le_rfl, Option.bind_some, Json.Text.read_write]
  parse_nil := by decide
