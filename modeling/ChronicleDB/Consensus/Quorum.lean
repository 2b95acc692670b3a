import Mathlib.Data.Finset.Card

/-!
# Majorities

Two majorities of one set of voters share a voter, and so do majorities of two
sets that differ in at most one voter.
-/

namespace ChronicleDB.Consensus

variable {N : Type} [DecidableEq N]

def Majority (C Q : Finset N) : Prop := Q ⊆ C ∧ C.card < 2 * Q.card

/-- At most one voter is in one of the sets only. -/
def Adjacent (C D : Finset N) : Prop := (C \ D).card + (D \ C).card ≤ 1

theorem Adjacent.refl (C : Finset N) : Adjacent C C := by simp [Adjacent]

theorem Majority.inter_of_adjacent {C D Q Q' : Finset N} (hC : Adjacent C D)
    (h : Majority C Q) (h' : Majority D Q') : ∃ u ∈ Q, u ∈ Q' := by
  by_contra hnone
  have hdisjoint : Disjoint Q Q' :=
    Finset.disjoint_left.mpr fun u hu hu' => hnone ⟨u, hu, hu'⟩
  -- the two majorities lie side by side in the union of the two sets
  have hunion : Q.card + Q'.card ≤ (C ∪ D).card := by
    rw [← Finset.card_union_of_disjoint hdisjoint]
    exact Finset.card_le_card (Finset.union_subset_union h.1 h'.1)
  have hcard := Finset.card_union_add_card_inter C D
  have hleft := Finset.card_sdiff_add_card_inter C D
  have hright := Finset.card_sdiff_add_card_inter D C
  rw [Finset.inter_comm] at hright
  have := h.2
  have := h'.2
  unfold Adjacent at hC
  omega

theorem Majority.inter {C Q Q' : Finset N} (h : Majority C Q) (h' : Majority C Q') :
    ∃ u ∈ Q, u ∈ Q' :=
  h.inter_of_adjacent (.refl C) h'

end ChronicleDB.Consensus
