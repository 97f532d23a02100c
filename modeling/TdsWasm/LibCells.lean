import Mathlib.Data.List.Basic

/-! Cells of a memory, one at a time: which cells a range holds, and what a write of a range leaves of the
memory before it. -/

set_option autoImplicit false

namespace Cells

variable {α : Type} {data before after cells : List α} {start : Nat}

/-- The memory has these cells from `start` on. -/
structure Holds (data : List α) (start : Nat) (cells : List α) : Prop where
  inside : start + cells.length ≤ data.length
  cell : ∀ i, i < cells.length → data[start + i]? = cells[i]?

/-- The cells from `start` on are replaced by these, and nothing else is. -/
structure Overwritten (before after : List α) (start : Nat) (cells : List α) : Prop where
  length : after.length = before.length
  written : Holds after start cells
  kept : ∀ i, i < start ∨ start + cells.length ≤ i → after[i]? = before[i]?

theorem holds_iff :
    Holds data start cells ↔ start + cells.length ≤ data.length ∧ (data.drop start).take cells.length = cells := by
  constructor
  · rintro ⟨hinside, hcell⟩
    refine ⟨hinside, ?_⟩
    apply List.ext_getElem?
    intro i
    rw [List.getElem?_take]
    by_cases hi : i < cells.length
    · rw [if_pos hi, List.getElem?_drop]
      exact hcell i hi
    · rw [if_neg hi, List.getElem?_eq_none (Nat.not_lt.mp hi)]
  · rintro ⟨hinside, hcells⟩
    refine ⟨hinside, fun i hi => ?_⟩
    calc data[start + i]? = (data.drop start)[i]? := List.getElem?_drop.symm
      _ = ((data.drop start).take cells.length)[i]? := by rw [List.getElem?_take, if_pos hi]
      _ = cells[i]? := by rw [hcells]

theorem holds_splice (h : start ≤ before.length) (rest : List α) :
    Holds (before.take start ++ cells ++ rest) start cells := by
  have htake : (before.take start).length = start := List.length_take_of_le h
  rw [holds_iff, List.append_assoc, List.drop_left' htake, List.take_left, List.length_append, htake,
    List.length_append]
  exact ⟨by omega, rfl⟩

theorem overwritten_splice (h : start + cells.length ≤ before.length) :
    Overwritten before (before.take start ++ cells ++ before.drop (start + cells.length)) start cells := by
  have htake : (before.take start).length = start := List.length_take_of_le (by omega)
  refine ⟨?_, holds_splice (by omega) _, ?_⟩
  · rw [List.length_append, List.length_append, htake, List.length_drop]
    omega
  · rintro i (hbefore | hafter)
    · rw [List.append_assoc, List.getElem?_append_left (by omega), List.getElem?_take, if_pos hbefore]
    · have hlen : (before.take start ++ cells).length = start + cells.length := by
        rw [List.length_append, htake]
      rw [List.getElem?_append_right (by omega), hlen, List.getElem?_drop]
      congr 1
      omega

end Cells
