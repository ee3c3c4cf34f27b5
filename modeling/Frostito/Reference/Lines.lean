import Frostito.Reference.Backend
import Frostito.Reshare.Aggregator

/-!
# Commitments to lines

Two dealers with the shares `14` and `17` of the line `11 + 3x` commit to `14 + 2x` and `17 + x`.
At zero their weights are `2` and `-1`, so the two combine to `11 + 3x` again.
-/

namespace Frostito.Reference

/-- The commitment of dealer `i` to `a + b x`. -/
def lineCommitment (i : UInt32) (a b : ℕ) : DealerCommitment Residue :=
  ⟨i, [(a : Residue), (b : Residue)], by norm_num⟩

/-- What dealer `i` sends player `j`. -/
def lineDelivery (i j : UInt32) (a b : ℕ) : SubShare Residue × DealerCommitment Residue :=
  (⟨i, j, a + b * fromU32 j⟩, lineCommitment i a b)

variable {i j : UInt32} {a b : ℕ}

/-- What a dealer of a line sends verifies. -/
lemma verifySubshare_line (hj : j ≠ 0) :
    (lineCommitment i a b).verifySubshare j ((a : Residue) + b * fromU32 j) = true := by
  refine DealerCommitment.verifySubshare_iff.mpr ⟨hj, ?_⟩
  have hgenerator : (generator : Residue) = 1 := rfl
  rw [Sharing.IsShare, lineCommitment, Horner.horner_cons, Horner.horner_cons, Horner.horner_nil,
    hgenerator]
  simp only [smul_eq_mul]
  ring

/-- The weights at zero of two that are numbered 1 and 2. -/
lemma lagrangeCoeff_pair : (lagrangeCoeff [1, 2] 1 : Residue) = 2 ∧
    (lagrangeCoeff [1, 2] 2 : Residue) = -1 := by
  have hne : (fromU32 1 : Residue) ≠ fromU32 2 := by decide
  have hnodes : (nodes [1, 2] : Finset Residue) = {fromU32 1, fromU32 2} := rfl
  have hdiff : (fromU32 2 - fromU32 1 : Residue) = 1 ∧ (fromU32 1 - fromU32 2 : Residue) = -1 := by
    decide
  constructor
  · rw [lagrangeCoeff, hnodes, Interpolation.weight_pair hne, hdiff.1, div_one]
    decide
  · rw [lagrangeCoeff, hnodes, Finset.pair_comm, Interpolation.weight_pair hne.symm, hdiff.2]
    rw [div_neg, div_one]
    decide

end Frostito.Reference

namespace Frostito.Reshare

open Reference

/-- Player 1 waits for the two dealers. -/
def twoDealers : Aggregator Residue Residue := ⟨1, [1, 2], [], []⟩

lemma new_twoDealers : Aggregator.new 1 [1, 2] = .ok twoDealers :=
  Aggregator.new_eq_ok_iff.mpr ⟨by decide, ⟨by simp, by decide, by decide⟩, rfl⟩

end Frostito.Reshare
