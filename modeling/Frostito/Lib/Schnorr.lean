import Mathlib.Algebra.Module.Torsion.Field

/-!
# The Schnorr equation

A response `z` answers the challenge `e` for the public value `y` and the commitment `r` when
`z • g = r + e • y`.  Whoever knows the logarithms of `y` and `r` can answer every challenge.
One response answers at most one challenge as long as `y` is not the identity, and every
challenge or none when it is.
-/

namespace Schnorr

variable {S P : Type*} [Field S] [AddCommGroup P] [Module S P] {g y r : P} {z e e' : S}

/-- The response `z` answers the challenge `e`. -/
def Answers (g y r : P) (z e : S) : Prop := z • g = r + e • y

/-- The response computed from the logarithms answers. -/
lemma answers_of_logarithms (g : P) (k e a : S) :
    Answers g (a • g) (k • g) (k + e * a) e := by
  rw [Answers, add_smul, mul_smul]

/-- For a public value other than the identity a response fixes the challenge. -/
lemma Answers.challenge_unique (hy : y ≠ 0) (h : Answers g y r z e) (h' : Answers g y r z e') :
    e = e' := by
  have hsmul : e • y = e' • y := add_left_cancel (h.symm.trans h')
  exact smul_left_injective S hy hsmul

/-- For the identity the challenge drops out. -/
lemma answers_zero_iff : Answers g 0 r z e ↔ z • g = r := by
  rw [Answers, smul_zero, add_zero]

end Schnorr
