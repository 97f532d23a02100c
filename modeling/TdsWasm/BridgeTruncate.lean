import TdsWasm.AgentLoop
import TdsWasm.HostLlm
import TdsWasm.LibBoundary

/-! The two functions that shorten a text, the agent's for its report and the provider's for an error message. They
cut at the same place and differ in the mark that they put there. -/

set_option autoImplicit false

namespace TdsWasm

/-- The mark that the agent puts in the place of so many bytes. -/
def truncationMark (bytes : Nat) : String := "… [" ++ toString bytes ++ " bytes truncated]"

/-- A text that is too long is cut where the slice is defined, and both functions keep the same prefix. -/
theorem truncate_of_lt {s : String} {max : Nat} (hlong : max < s.utf8ByteSize) : ∃ kept rest,
    Text.Cut s max kept rest ∧ Text.sliceTo s (Text.floorCharBoundary s max) = some kept ∧
      truncate s max = kept ++ truncationMark rest.utf8ByteSize ∧ truncateDetail s max = kept ++ "…" := by
  obtain ⟨kept, rest, hcut, hkept, hslice, hgone⟩ := Text.cut_takeBytes hlong
  refine ⟨kept, rest, hcut, hslice, ?_, ?_⟩
  · rw [truncate, if_neg (Nat.not_le.mpr hlong)]
    simp only [hkept, hgone, truncationMark, String.append_assoc]
  · rw [truncateDetail, if_neg (Nat.not_le.mpr hlong), hkept]

/-- What is put behind the kept prefix makes the text again exactly when it is what has been cut off. -/
theorem append_eq_iff {s kept rest mark : String} (hs : s = kept ++ rest) : kept ++ mark = s ↔ rest = mark := by
  rw [hs, String.append_right_inj]
  exact eq_comm

/-- A text that fits is returned as it is. Of any other one the longest prefix that fits is kept, the agent counts the
bytes that are gone, and the text comes back only when the mark is what has been cut off. -/
theorem truncate_counts (s : String) (max : Nat) :
    (s.utf8ByteSize ≤ max → truncate s max = s ∧ truncateDetail s max = s) ∧
    (max < s.utf8ByteSize → ∃ kept rest, Text.Cut s max kept rest ∧
      Text.sliceTo s (Text.floorCharBoundary s max) = some kept ∧
      kept.utf8ByteSize + rest.utf8ByteSize = s.utf8ByteSize ∧
      truncate s max = kept ++ truncationMark rest.utf8ByteSize ∧ truncateDetail s max = kept ++ "…" ∧
      (truncate s max = s ↔ rest = truncationMark rest.utf8ByteSize) ∧ (truncateDetail s max = s ↔ rest = "…")) := by
  constructor
  · intro hfits
    exact ⟨if_pos hfits, if_pos hfits⟩
  · intro hlong
    obtain ⟨kept, rest, hcut, hslice, htruncate, hdetail⟩ := truncate_of_lt hlong
    refine ⟨kept, rest, hcut, hslice, ?_, htruncate, hdetail, ?_, ?_⟩
    · rw [hcut.eq_append, String.utf8ByteSize_append]
    · rw [htruncate, append_eq_iff hcut.eq_append]
    · rw [hdetail, append_eq_iff hcut.eq_append]

theorem truncate_unchanged : truncateDetail "…" 2 = "…" ∧
    truncate "… [24 bytes truncated]" 0 = "… [24 bytes truncated]" ∧
    ¬ "…".utf8ByteSize ≤ 2 ∧ ¬ "… [24 bytes truncated]".utf8ByteSize ≤ 0 := by
  decide +kernel

end TdsWasm
