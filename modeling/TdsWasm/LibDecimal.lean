import Mathlib.Data.List.Induction
import Mathlib.Data.Nat.Digits.Defs
import TdsWasm.LibText

/-! Numbers that bytes spell in decimal. A text of ASCII bytes is its bytes one by one, so a reader of digits that goes
through the text finds the number that the bytes spell. -/

set_option autoImplicit false

namespace Text

/-- The character of an ASCII byte. -/
def asciiChar (b : UInt8) : Char := Char.ofNat b.toNat

/-- The bytes are digits, one at least. -/
def Digits (bytes : Bytes) : Prop := bytes ≠ [] ∧ ∀ digit ∈ bytes, 48 ≤ digit.toNat ∧ digit.toNat ≤ 57

instance (bytes : Bytes) : Decidable (Digits bytes) := inferInstanceAs (Decidable (_ ∧ _))

/-- The number that digits spell. -/
def number (digits : Bytes) : Nat := Nat.ofDigits 10 (digits.reverse.map fun digit => digit.toNat - 48)

theorem toNat_asciiChar {b : UInt8} (h : b.toNat < 128) : (asciiChar b).toNat = b.toNat := by
  have hvalid : b.toNat.isValidChar := Or.inl (h.trans (by decide))
  rw [asciiChar, Char.ofNat, dif_pos hvalid]
  rfl

theorem encodeChars_ascii {bytes : Bytes} (h : ∀ b ∈ bytes, b.toNat < 128) :
    encodeChars (bytes.map asciiChar) = bytes := by
  induction bytes with
  | nil => rfl
  | cons b rest ih =>
      obtain ⟨hb, hrest⟩ := List.forall_mem_cons.mp h
      have hchar : String.utf8EncodeChar (asciiChar b) = [b] := by
        have hval : (asciiChar b).val.toNat = b.toNat := toNat_asciiChar hb
        have hsmall : b.toNat ≤ 127 := Nat.le_of_lt_succ hb
        unfold String.utf8EncodeChar
        simp only [hval, if_pos hsmall, UInt8.ofNat_toNat]
      show String.utf8EncodeChar (asciiChar b) ++ encodeChars (rest.map asciiChar) = b :: rest
      rw [hchar, ih hrest]
      rfl

/-- ASCII bytes are a text. -/
theorem fromUtf8_ascii {bytes : Bytes} (h : ∀ b ∈ bytes, b.toNat < 128) :
    fromUtf8 bytes = some (String.ofList (bytes.map asciiChar)) := by
  have hutf8 : utf8 (String.ofList (bytes.map asciiChar)) = bytes := by
    rw [utf8_eq, String.toList_ofList, encodeChars_ascii h]
  rw [← hutf8, fromUtf8_utf8, hutf8]

theorem isDigit_asciiChar {b : UInt8} (h : b.toNat < 128) :
    (asciiChar b).isDigit = true ↔ 48 ≤ b.toNat ∧ b.toNat ≤ 57 := by
  rw [Char.isDigit_iff_toNat, toNat_asciiChar h]
  rfl

/-- Characters are digits when the bytes are. -/
theorem all_isDigit_ascii {bytes : Bytes} (h : ∀ b ∈ bytes, b.toNat < 128) :
    bytes.map asciiChar ≠ [] ∧ (bytes.map asciiChar).all Char.isDigit = true ↔ Digits bytes := by
  rw [ne_eq, List.map_eq_nil_iff, List.all_map, List.all_eq_true]
  exact and_congr_right fun _ => forall₂_congr fun b hb => isDigit_asciiChar (h b hb)

/-- The digits of a text spell what its bytes do. -/
theorem ofDigitChars_ascii {bytes : Bytes} (h : ∀ digit ∈ bytes, 48 ≤ digit.toNat ∧ digit.toNat ≤ 57) :
    Nat.ofDigitChars 10 (bytes.map asciiChar) 0 = number bytes := by
  induction bytes using List.reverseRecOn with
  | nil => rfl
  | append_singleton rest digit ih =>
      obtain ⟨hrest, hlast⟩ := List.forall_mem_append.mp h
      have hdigit := hlast digit (List.mem_singleton_self _)
      have hvalue : (asciiChar digit).toNat = digit.toNat := toNat_asciiChar (by omega)
      rw [List.map_append, Nat.ofDigitChars_append, ih hrest, List.map_singleton, Nat.ofDigitChars_cons,
        Nat.ofDigitChars_nil, hvalue, number, number, List.reverse_append, List.reverse_singleton,
        List.singleton_append, List.map_cons, Nat.ofDigits_cons]
      exact Nat.add_comm _ _

end Text
