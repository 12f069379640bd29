/-
  Quorum systems: families of sets closed upward, any two of which meet.

  `majority members` is the family of all sets that contain a majority of a list of
  distinct members; that two of them meet is counting.
-/
import Mathlib.Data.Finset.Card
import Mathlib.Data.Set.Basic

namespace Murmur.Basis

/-- A quorum system on `N`. -/
structure QuorumSystem (N : Type) where
  IsQuorum : Set N → Prop
  mono : ∀ {A B : Set N}, A ⊆ B → IsQuorum A → IsQuorum B
  inter : ∀ {A B : Set N}, IsQuorum A → IsQuorum B → (A ∩ B).Nonempty

variable {N : Type} [DecidableEq N]

/-- The sets that contain more than half of the members of `members`. -/
def majority (members : Finset N) : QuorumSystem N where
  IsQuorum A := ∃ F : Finset N, F ⊆ members ∧ (∀ v ∈ F, v ∈ A) ∧ members.card < 2 * F.card
  mono := by
    rintro A B hAB ⟨F, hF, hFA, hcard⟩
    exact ⟨F, hF, fun v hv => hAB (hFA v hv), hcard⟩
  inter := by
    rintro A B ⟨F, hF, hFA, hFc⟩ ⟨G, hG, hGB, hGc⟩
    -- Two sets whose sizes add up to more than the whole are not disjoint.
    have hcard : (F ∪ G).card + (F ∩ G).card = F.card + G.card :=
      Finset.card_union_add_card_inter F G
    have hle : (F ∪ G).card ≤ members.card :=
      Finset.card_le_card (Finset.union_subset hF hG)
    have hpos : 0 < (F ∩ G).card := by omega
    obtain ⟨v, hv⟩ := Finset.card_pos.mp hpos
    rw [Finset.mem_inter] at hv
    exact ⟨v, hFA v hv.1, hGB v hv.2⟩

end Murmur.Basis
