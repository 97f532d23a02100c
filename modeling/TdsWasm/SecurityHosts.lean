import TdsWasm.HostPolicy
import TdsWasm.LibLabels

/-! Which hosts the allowlist admits. The code compares raw strings; what it decides is a comparison of the
dot-separated labels of the rule and of the host. -/

set_option autoImplicit false

namespace TdsWasm

namespace HttpToolConfig

/-- A rule as it is compared: trimmed, in lower case. -/
def comparedRule (rule : String) : List Char := (toAsciiLowercase (Text.trim rule)).toList

def comparedHost (host : String) : List Char := (toAsciiLowercase host).toList

/-- The rule admits the host, label by label: the labels are the same, or those after the star end those of the
host. -/
def Admits (rule host : String) : Prop :=
  (¬ ['*', '.'] <+: comparedRule rule ∧
    (comparedRule rule).splitOn '.' = (comparedHost host).splitOn '.') ∨
  ∃ suffix, comparedRule rule = '*' :: '.' :: suffix ∧ suffix.splitOn '.' <:+ (comparedHost host).splitOn '.'

/-- The text is found in the host where it starts inside a label, or where it ends inside the last one. -/
def MatchesInside (suffix host : List Char) : Prop :=
  (∃ front c, c ≠ '.' ∧ host = front ++ c :: suffix) ∨
  ∃ front back, back ≠ [] ∧ '.' ∉ back ∧ host = front ++ suffix ++ back

theorem allows_iff_exists (config : HttpToolConfig) (host : String) :
    config.allows host = true ↔ ∃ rule ∈ config.allowedHosts, Admits rule host := by
  unfold allows
  rw [List.any_eq_true]
  refine exists_congr fun rule => and_congr_right fun _ => ?_
  show (if ['*', '.'].isPrefixOf (comparedRule rule) then
      comparedHost host == (comparedRule rule).drop 2 ||
        ('.' :: (comparedRule rule).drop 2).isSuffixOf (comparedHost host)
    else comparedHost host == comparedRule rule) = true ↔ Admits rule host
  unfold Admits
  by_cases hstar : ['*', '.'] <+: comparedRule rule
  · rw [if_pos (List.isPrefixOf_iff_prefix.mpr hstar), Bool.or_eq_true, beq_iff_eq,
      List.isSuffixOf_iff_suffix]
    obtain ⟨suffix, hsuffix⟩ := hstar
    rw [← hsuffix]
    constructor
    · intro h
      exact Or.inr ⟨suffix, rfl, Labels.splitOn_suffix_iff.mpr (h.imp_left Eq.symm)⟩
    · rintro (⟨hnot, _⟩ | ⟨other, heq, hlabels⟩)
      · exact absurd (List.prefix_append _ _) hnot
      · obtain rfl : suffix = other := (List.cons.inj (List.cons.inj heq).2).2
        exact (Labels.splitOn_suffix_iff.mp hlabels).imp_left Eq.symm
  · rw [if_neg (fun h => hstar (List.isPrefixOf_iff_prefix.mp h)), beq_iff_eq]
    constructor
    · intro h
      exact Or.inl ⟨hstar, congrArg _ h.symm⟩
    · rintro (⟨_, hlabels⟩ | ⟨suffix, heq, _⟩)
      · exact (Labels.splitOn_inj.mp hlabels).symm
      · exact absurd ⟨suffix, heq.symm⟩ hstar

/-- A match inside a label does not make a rule admit a host. -/
theorem not_admits_inside {rule host : String} {suffix : List Char}
    (hrule : comparedRule rule = '*' :: '.' :: suffix) (hinside : MatchesInside suffix (comparedHost host)) :
    ¬ Admits rule host := by
  rintro (⟨hnot, _⟩ | ⟨other, heq, hlabels⟩)
  · exact hnot ⟨suffix, hrule.symm⟩
  · rw [hrule] at heq
    obtain rfl : suffix = other := (List.cons.inj (List.cons.inj heq).2).2
    rcases hinside with ⟨front, c, hc, hhost⟩ | ⟨front, back, hback, hsep, hhost⟩
    · rw [hhost] at hlabels
      exact Labels.not_suffix_of_inner_start hc front hlabels
    · rw [hhost] at hlabels
      exact Labels.not_suffix_of_inner_end hback hsep front hlabels

end HttpToolConfig

open HttpToolConfig in
/-- The allowlist decides label by label, no rule matches inside a label, and a rule that is added takes no host
away. -/
theorem host_matched_labelwise (config : HttpToolConfig) (host : String) :
    (config.allows host = true ↔ ∃ rule ∈ config.allowedHosts, Admits rule host) ∧
    (∀ rule suffix, comparedRule rule = '*' :: '.' :: suffix → MatchesInside suffix (comparedHost host) →
      { config with allowedHosts := [rule] }.allows host = false) ∧
    (∀ larger : HttpToolConfig, config.allowedHosts ⊆ larger.allowedHosts → config.allows host = true →
      larger.allows host = true) := by
  refine ⟨allows_iff_exists config host, fun rule suffix hrule hinside => ?_, fun larger hsubset hallows => ?_⟩
  · rw [Bool.eq_false_iff]
    intro hallows
    obtain ⟨other, hmem, hadmits⟩ := (allows_iff_exists _ host).mp hallows
    obtain rfl := List.mem_singleton.mp hmem
    exact not_admits_inside hrule hinside hadmits
  · obtain ⟨rule, hmem, hadmits⟩ := (allows_iff_exists config host).mp hallows
    exact (allows_iff_exists larger host).mpr ⟨rule, hsubset hmem, hadmits⟩

end TdsWasm
