import TdsWasm.LibJsonSize

/-! How long a text gets by lossy decoding: a byte that is not UTF-8 makes three. -/

set_option autoImplicit false

namespace Text

/-- Decoding goes forward only. -/
theorem decodeOne_rest_le (first : UInt8) (rest : Bytes) : (decodeOne first rest).2.length ≤ rest.length := by
  unfold decodeOne
  split_ifs
  · exact le_rfl
  · cases rest with
    | nil => exact le_rfl
    | cons b rest =>
        simp only
        split_ifs <;> grind
  · cases rest with
    | nil => exact le_rfl
    | cons b rest => cases rest <;> grind
  · cases rest with
    | nil => exact le_rfl
    | cons b rest =>
        cases rest with
        | nil => grind
        | cons d rest => cases rest <;> grind
  · exact le_rfl

theorem lossyChars_size (fuel : Nat) (bytes : Bytes) : size (lossyChars fuel bytes) ≤ 3 * bytes.length := by
  induction fuel generalizing bytes with
  | zero => exact Nat.zero_le _
  | succ fuel ih =>
      cases bytes with
      | nil => exact Nat.zero_le _
      | cons first rest =>
          have hrest := ih (decodeOne first rest).2
          have hforward := decodeOne_rest_le first rest
          rw [lossyChars, size_cons, List.length_cons]
          cases hc : (decodeOne first rest).1 with
          | none =>
              have hmark : '\uFFFD'.utf8Size = 3 := by decide
              rw [Option.getD_none, hmark]
              omega
          | some c =>
              have hsize : c.utf8Size + (decodeOne first rest).2.length ≤ rest.length + 1 :=
                decodeOne_size (Prod.ext hc rfl)
              rw [Option.getD_some]
              omega

theorem utf8ByteSize_fromUtf8Lossy_le (bytes : Bytes) : (fromUtf8Lossy bytes).utf8ByteSize ≤ 3 * bytes.length := by
  rw [fromUtf8Lossy, utf8ByteSize_ofList]
  exact lossyChars_size _ bytes

theorem utf8_append (first second : String) : utf8 (first ++ second) = utf8 first ++ utf8 second := by
  rw [utf8_eq, utf8_eq, utf8_eq, String.toList_append]
  exact List.flatMap_append

/-- A byte below 0x80 is a character of its own. -/
theorem fromUtf8Lossy_cons {b : UInt8} (h : b < 0x80) (bytes : Bytes) :
    (fromUtf8Lossy (b :: bytes)).toList = Char.ofNat b.toNat :: (fromUtf8Lossy bytes).toList := by
  have hone : decodeOne b bytes = (some (Char.ofNat b.toNat), bytes) := by
    unfold decodeOne
    rw [if_pos h]
  rw [fromUtf8Lossy, fromUtf8Lossy, String.toList_ofList, String.toList_ofList, List.length_cons, lossyChars, hone,
    Option.getD_some]

example : (fromUtf8Lossy [0x80, 0x80]).utf8ByteSize = 6 := by decide +kernel

end Text
