import Mathlib.Algebra.Group.Defs

/-! Time along a record. An entry lasts for a while that may depend on the entries before it, and begins when
the one before it ends. -/

set_option autoImplicit false

/-- How long an entry lasts that comes after a record. -/
abbrev Pace (ε τ : Type) : Type := List ε → ε → τ

namespace Pace

variable {ε τ : Type} [AddMonoid τ] (pace : Pace ε τ)

/-- How long these entries last together after a record. -/
def lasts (past : List ε) : List ε → τ
  | [] => 0
  | entry :: rest => pace past entry + lasts (past ++ [entry]) rest

/-- The times of what begins in the course of the entries, when the first entry begins now. What begins in an entry is
given by the times after the begin of the entry. -/
def begun (onsets : List ε → ε → List τ) (past : List ε) (now : τ) : List ε → List τ
  | [] => []
  | entry :: rest =>
      (onsets past entry).map (now + ·) ++ begun onsets (past ++ [entry]) (now + pace past entry) rest

theorem lasts_append (past first second : List ε) :
    pace.lasts past (first ++ second) = pace.lasts past first + pace.lasts (past ++ first) second := by
  induction first generalizing past with
  | nil => simp only [List.nil_append, List.append_nil, lasts, zero_add]
  | cons entry rest ih =>
      rw [List.cons_append, lasts, ih, lasts, List.append_assoc, List.singleton_append, add_assoc]

theorem begun_append (onsets : List ε → ε → List τ) (past : List ε) (now : τ) (first second : List ε) :
    pace.begun onsets past now (first ++ second) =
      pace.begun onsets past now first ++ pace.begun onsets (past ++ first) (now + pace.lasts past first) second := by
  induction first generalizing past now with
  | nil => simp only [List.nil_append, List.append_nil, begun, lasts, add_zero]
  | cons entry rest ih =>
      rw [List.cons_append, begun, ih, begun, lasts, List.append_assoc, List.append_assoc, List.singleton_append,
        add_assoc]

/-- Entries in which nothing begins. -/
theorem begun_of_none {onsets : List ε → ε → List τ} {entries : List ε}
    (h : ∀ entry ∈ entries, ∀ past, onsets past entry = []) (past : List ε) (now : τ) :
    pace.begun onsets past now entries = [] := by
  induction entries generalizing past now with
  | nil => rfl
  | cons entry rest ih =>
      obtain ⟨hhead, htail⟩ := List.forall_mem_cons.mp h
      rw [begun, hhead, List.map_nil, List.nil_append, ih htail]

end Pace
