import Mathlib.Data.Finset.Card
import Mathlib.Tactic

/-!
# Quorums

Two sets of members that are large enough share a member outside a small set of faulty ones.
-/

namespace Aster.Lib.Quorum

variable {α : Type*} [DecidableEq α] {members faulty A B : Finset α}

/-- **Quorum intersection.**  Two sets of members whose sizes add up to more than the number of
members and of faulty ones share a member that is not faulty. -/
theorem exists_correct_inter (hA : A ⊆ members) (hB : B ⊆ members)
    (hsum : members.card + faulty.card < A.card + B.card) :
    ∃ i ∈ A, i ∈ B ∧ i ∉ faulty := by
  have hunion : (A ∪ B).card ≤ members.card := Finset.card_le_card (Finset.union_subset hA hB)
  have hinter := Finset.card_union_add_card_inter A B
  have hlarge : faulty.card < (A ∩ B).card := by omega
  obtain ⟨i, hi, hcorrect⟩ := Finset.exists_mem_notMem_of_card_lt_card hlarge
  obtain ⟨hiA, hiB⟩ := Finset.mem_inter.mp hi
  exact ⟨i, hiA, hiB, hcorrect⟩

end Aster.Lib.Quorum
