import Frostito.Reference.Backend
import Frostito.Reshare.Commitment

/-!
# Commitments with trailing zeros

A dealer may commit to a constant and write as many zero coefficients behind it as it
likes.  The value everywhere is the constant; the threshold is what the zeros make of it.
-/

namespace Frostito.Reference

/-- The constant and `m` zeros fit where `m + 1` coefficients do. -/
lemma fits_padded {m : ℕ} (h : m + 1 < 2 ^ 58) :
    (((5 : ℕ) : Residue) :: List.replicate m 0).length < 2 ^ 58 := by
  rwa [List.length_cons, List.length_replicate]

/-- A single coefficient fits. -/
lemma fits_zero : 0 + 1 < 2 ^ 58 := by
  norm_num

/-- The commitment of dealer `i` to the constant `5`, with `m` zeros behind it. -/
def padded (i : UInt32) (m : ℕ) (h : m + 1 < 2 ^ 58) : DealerCommitment Residue :=
  ⟨i, ((5 : ℕ) : Residue) :: List.replicate m 0, fits_padded h⟩

variable {i j : UInt32} {m : ℕ} (h : m + 1 < 2 ^ 58)

lemma length_padded : (padded i m h).coefficients.length = m + 1 := by
  rw [padded, List.length_cons, List.length_replicate]

lemma padded_ne_nil : (padded i m h).coefficients ≠ [] := List.cons_ne_nil _ _

lemma threshold_padded : (padded i m h).threshold = UInt32.ofNat (m + 1) := by
  rw [DealerCommitment.threshold, length_padded]

/-- The constant is everybody's share. -/
lemma verifySubshare_padded (hj : j ≠ 0) :
    (padded i m h).verifySubshare j ((5 : ℕ) : Residue) = true := by
  refine DealerCommitment.verifySubshare_iff.mpr ⟨hj, ?_⟩
  rw [Sharing.IsShare, padded, Horner.horner_cons, Horner.horner_replicate_zero, smul_zero,
    zero_add]
  exact mul_one _

/-- What dealer `i` sends player 1. -/
def paddedDelivery (i : UInt32) (m : ℕ) (h : m + 1 < 2 ^ 58) :
    SubShare Residue × DealerCommitment Residue :=
  (⟨i, 1, ((5 : ℕ) : Residue)⟩, padded i m h)

end Frostito.Reference
