import Mathlib.Algebra.Group.Nat.Defs
import Mathlib.Data.List.Basic

/-! Fixed-width counters and casts: a counter below a bound does not wrap, and a length survives the cast
to a signed word as long as the word stays positive. -/

set_option autoImplicit false

namespace Word

theorem toNat_add_one {counter bound : UInt32} (hlt : counter < bound) :
    (counter + 1).toNat = counter.toNat + 1 := by
  have hcounter := UInt32.lt_iff_toNat_lt.mp hlt
  have hbound := bound.toNat_lt
  have hone : (1 : UInt32).toNat = 1 := rfl
  rw [UInt32.toNat_add, hone, Nat.mod_eq_of_lt (by omega)]

theorem toNat_max (a b : UInt32) : (max a b).toNat = max a.toNat b.toNat := by
  show (if a ≤ b then b else a).toNat = _
  split_ifs with hle
  · exact (Nat.max_eq_right (UInt32.le_iff_toNat_le.mp hle)).symm
  · rw [UInt32.not_le, UInt32.lt_iff_toNat_lt] at hle
    exact (Nat.max_eq_left (Nat.le_of_lt hle)).symm

theorem toNat_min (a b : UInt32) : (min a b).toNat = min a.toNat b.toNat := by
  show (if a ≤ b then a else b).toNat = _
  split_ifs with hle
  · exact (Nat.min_eq_left (UInt32.le_iff_toNat_le.mp hle)).symm
  · rw [UInt32.not_le, UInt32.lt_iff_toNat_lt] at hle
    exact (Nat.min_eq_right (Nat.le_of_lt hle)).symm

/-- The cast of a small length is not negative. -/
theorem one_le_toNat32 {n : UInt32} : 1 ≤ n.toNat ↔ n ≠ 0 := by
  rw [Nat.one_le_iff_ne_zero, ne_eq, ne_eq, ← UInt32.toNat_inj]
  rfl

theorem one_le_toNat64 {n : UInt64} : 1 ≤ n.toNat ↔ n ≠ 0 := by
  rw [Nat.one_le_iff_ne_zero, ne_eq, ne_eq, ← UInt64.toNat_inj]
  rfl

theorem not_ofNat_neg {n : Nat} (hn : n < 2 ^ 31) : ¬ Int32.ofNat n < 0 := by
  rw [Int32.lt_iff_toInt_lt, Int32.toInt_ofNat_of_lt hn, Int32.toInt_zero]
  omega

theorem ofNat_pos {n : Nat} (hpos : 0 < n) (hn : n < 2 ^ 31) : 0 < Int32.ofNat n := by
  rw [Int32.lt_iff_toInt_lt, Int32.toInt_ofNat_of_lt hn, Int32.toInt_zero]
  omega

/-- The cast of a length with the sign bit set is negative. -/
theorem ofNat_neg {n : Nat} (hlow : 2 ^ 31 ≤ n) (hhigh : n < 2 ^ 32) : Int32.ofNat n < 0 := by
  have hsize : Int32.size = 4294967296 := rfl
  rw [Int32.lt_iff_toInt_lt, Int32.toInt_zero, Int32.toInt_ofNat', Int.bmod_def, hsize]
  split_ifs <;> omega

/-- A length that does not fit a signed word and is cast to a positive one is not that word. -/
theorem toNat_ne_of_wraps {n : Nat} (hn : 2 ^ 31 ≤ n) (hpos : 0 < Int32.ofNat n) :
    n ≠ (Int32.ofNat n).toUInt32.toNat := by
  intro heq
  have hword : n < 2 ^ 32 := by
    rw [heq]
    exact UInt32.toNat_lt _
  rw [Int32.lt_iff_toInt_lt, Int32.toInt_zero, Int32.toInt_ofNat', Int.bmod_def] at hpos
  have hsize : Int32.size = 4294967296 := rfl
  rw [hsize] at hpos
  split_ifs at hpos <;> omega

end Word
