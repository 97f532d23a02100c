import Mathlib.Data.List.Basic
import Mathlib.Data.List.Infix

/-! Sequences read as labels between separators: when one sequence of labels is another, when it ends another,
and which matches of the raw sequences these are. -/

set_option autoImplicit false

namespace Labels

variable {α : Type} [DecidableEq α] {sep : α} {xs ys : List α}

theorem splitOn_inj : xs.splitOn sep = ys.splitOn sep ↔ xs = ys := by
  refine ⟨fun h => ?_, fun h => congrArg _ h⟩
  calc xs = [sep].intercalate (xs.splitOn sep) := (List.intercalate_splitOn sep).symm
    _ = [sep].intercalate (ys.splitOn sep) := congrArg _ h
    _ = ys := List.intercalate_splitOn sep

omit [DecidableEq α] in
theorem intercalate_append {front back : List (List α)} (hfront : front ≠ []) (hback : back ≠ []) :
    [sep].intercalate (front ++ back) = [sep].intercalate front ++ sep :: [sep].intercalate back := by
  induction front with
  | nil => exact absurd rfl hfront
  | cons label rest ih =>
      rw [List.cons_append, List.intercalate_cons_of_ne_nil (List.append_ne_nil_of_right_ne_nil rest hback)]
      by_cases hrest : rest = []
      · rw [hrest]
        simp
      · rw [ih hrest, List.intercalate_cons_of_ne_nil hrest]
        simp

/-- The labels of one sequence end those of another exactly when the sequences are equal or the match starts
after a separator. -/
theorem splitOn_suffix_iff : xs.splitOn sep <:+ ys.splitOn sep ↔ xs = ys ∨ sep :: xs <:+ ys := by
  constructor
  · rintro ⟨front, hfront⟩
    by_cases hempty : front = []
    · rw [hempty, List.nil_append] at hfront
      exact Or.inl (splitOn_inj.mp hfront)
    · refine Or.inr ⟨[sep].intercalate front, ?_⟩
      calc [sep].intercalate front ++ sep :: xs
          = [sep].intercalate front ++ sep :: [sep].intercalate (xs.splitOn sep) := by
            rw [List.intercalate_splitOn]
        _ = [sep].intercalate (front ++ xs.splitOn sep) :=
            (intercalate_append hempty (List.splitOn_ne_nil sep xs)).symm
        _ = ys := by rw [hfront, List.intercalate_splitOn]
  · rintro (heq | ⟨front, hfront⟩)
    · rw [heq]
    · rw [← hfront, List.splitOn_append_cons_self]
      exact List.suffix_append _ _

/-- A match does not start inside a label. -/
theorem not_suffix_of_inner_start {c : α} (hc : c ≠ sep) (front : List α) :
    ¬ xs.splitOn sep <:+ (front ++ c :: xs).splitOn sep := by
  rw [splitOn_suffix_iff]
  rintro (heq | hsuffix)
  · have hlength := congrArg List.length heq
    rw [List.length_append, List.length_cons] at hlength
    omega
  · have hsame : sep :: xs = c :: xs :=
      List.IsSuffix.eq_of_length (List.suffix_of_suffix_length_le hsuffix (List.suffix_append front _) le_rfl) rfl
    exact hc (List.cons.inj hsame).1.symm

/-- A match does not end inside a label. -/
theorem not_suffix_of_inner_end {back : List α} (hback : back ≠ []) (hsep : sep ∉ back) (front : List α) :
    ¬ xs.splitOn sep <:+ (front ++ xs ++ back).splitOn sep := by
  rw [splitOn_suffix_iff]
  have hpos : 0 < back.length := List.length_pos_iff.mpr hback
  rintro (heq | hsuffix)
  · have hlength := congrArg List.length heq
    rw [List.length_append, List.length_append] at hlength
    omega
  -- `back` is the end of `xs` as well, so the same match is there again with that end taken away from both
  generalize hsize : xs.length = size at hsuffix
  induction size using Nat.strong_induction_on generalizing xs with
  | _ size ih =>
      have hinside : back <:+ sep :: xs := by
        rcases List.suffix_or_suffix_of_suffix hsuffix (List.suffix_append (front ++ xs) back) with hshort | hlong
        · exact absurd (hshort.subset List.mem_cons_self) hsep
        · exact hlong
      rcases List.suffix_cons_iff.mp hinside with hall | ⟨rest, hrest⟩
      · exact absurd (hall ▸ List.mem_cons_self) hsep
      · obtain ⟨before, hbefore⟩ := hsuffix
        rw [← hrest, ← List.append_assoc front, ← List.cons_append, ← List.append_assoc] at hbefore
        refine ih rest.length ?_ ⟨before, List.append_cancel_right hbefore⟩ rfl
        rw [← hsize, ← hrest, List.length_append]
        omega

end Labels
