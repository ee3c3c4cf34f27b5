import Frostito.Lib.Schnorr
import Frostito.Reshare.Commitment

/-!
# Proof of knowledge of the constant term

The Schnorr proof a dealer publishes beside its commitment, and the round-1 package that
carries both.  The same construction serves key generation and resharing under two domain
tags.
-/

namespace Frostito

/-- Domain tag for the DKG proof of knowledge. -/
def dkgPokDomain : Bytes := "frostito/dkg-pok/v1".toUTF8.toList

/-- Domain tag for a reshare dealer's proof of possession. -/
def resharePokDomain : Bytes := "frostito/reshare-pok/v1".toUTF8.toList

/-- Schnorr proof of knowledge of a dealer's constant term `a_0`. -/
structure ProofOfKnowledge (P S : Type) where
  /-- `R = g^k` -/
  r : P
  /-- `z = k + e·a_0` -/
  z : S

/-- What a dealer broadcasts in round 1: its Feldman commitment and its proof of knowledge
of the constant term. -/
structure Round1Package (P S : Type) where
  commitment : DealerCommitment P
  proofOfKnowledge : ProofOfKnowledge P S

variable {S P : Type} [CurveScalar S] [CurvePoint P S] [Sha2]

namespace ProofOfKnowledge

/-- The Fiat–Shamir challenge of a proof. -/
def challenge (domain : Bytes) (dealerIndex : UInt32) (epoch : UInt64)
    (constantCommitment r : P) : S :=
  CurveScalar.fromBytesWide (sha512 (domain ++ u32ToLeBytes dealerIndex ++ u64ToLeBytes epoch ++
    CurvePoint.compress constantCommitment ++ CurvePoint.compress r))

/-- `prove` under a caller-chosen domain tag. -/
def proveIn (domain : Bytes) (dealerIndex : UInt32) (epoch : UInt64) (a0 : S) (rng : Rng S) :
    ProofOfKnowledge P S × Rng S :=
  let (k, rng) := rng.random
  let r : P := k • generator
  let constantCommitment : P := a0 • generator
  let e := challenge domain dealerIndex epoch constantCommitment r
  (⟨r, k + e * a0⟩, rng)

/-- `verify` under a caller-chosen domain tag. -/
def verifyIn (proof : ProofOfKnowledge P S) (domain : Bytes) (dealerIndex : UInt32)
    (epoch : UInt64) (constantCommitment : P) : Bool :=
  let e := challenge domain dealerIndex epoch constantCommitment proof.r
  decide (proof.z • (generator : P) = proof.r + e • constantCommitment)

/-- Prove knowledge of `a_0`. -/
def prove (dealerIndex : UInt32) (epoch : UInt64) (a0 : S) (rng : Rng S) :
    ProofOfKnowledge P S × Rng S :=
  proveIn dkgPokDomain dealerIndex epoch a0 rng

/-- Verify against a dealer's constant-term commitment. -/
def verify (proof : ProofOfKnowledge P S) (dealerIndex : UInt32) (epoch : UInt64)
    (constantCommitment : P) : Bool :=
  proof.verifyIn dkgPokDomain dealerIndex epoch constantCommitment

/-- An honest proof verifies, under any domain tag. -/
theorem verifyIn_proveIn (domain : Bytes) (dealerIndex : UInt32) (epoch : UInt64) (a0 : S)
    (rng : Rng S) :
    (proveIn domain dealerIndex epoch a0 rng).1.verifyIn domain dealerIndex epoch
      (a0 • (generator : P)) = true :=
  decide_eq_true (Schnorr.answers_of_logarithms _ _ _ a0)

end ProofOfKnowledge

namespace Round1Package

/-- The index of the dealer that published the package. -/
def dealerIndex (package : Round1Package P S) : UInt32 := package.commitment.dealerIndex

/-- Verify the proof of knowledge against the package's own commitment.  A commitment
without coefficients has no constant term, and asking for it panics. -/
def verify (package : Round1Package P S) (epoch : UInt64) : Outcome Error Unit := do
  let idx := package.commitment.dealerIndex
  let constantCommitment ← package.commitment.shareCommitment
  if package.proofOfKnowledge.verify idx epoch constantCommitment then
    .ok ()
  else
    .err (.invalidProofOfKnowledge idx)

/-- A package verifies exactly when its commitment has a constant term and the proof is one
for it. -/
lemma verify_eq_ok_iff {package : Round1Package P S} {epoch : UInt64} :
    package.verify epoch = .ok () ↔ ∃ c0, package.commitment.coefficients.head? = some c0 ∧
      package.proofOfKnowledge.verify package.commitment.dealerIndex epoch c0 = true := by
  rw [verify, Outcome.bind_eq_ok_iff]
  refine exists_congr fun c0 => ?_
  rw [DealerCommitment.shareCommitment_eq_ok_iff]
  refine and_congr_right fun _ => ?_
  split <;> simp_all

/-- Verification panics exactly on an empty commitment. -/
lemma verify_eq_panic_iff {package : Round1Package P S} (epoch : UInt64) :
    package.verify epoch = .panic ↔ package.commitment.coefficients = [] := by
  constructor
  · intro h
    by_contra hne
    rw [verify, DealerCommitment.shareCommitment_eq_ok hne 0, Outcome.ok_bind] at h
    split at h <;> simp at h
  · intro h
    rw [verify, DealerCommitment.shareCommitment_eq_panic h, Outcome.panic_bind]

lemma coefficients_ne_nil {package : Round1Package P S} {epoch : UInt64}
    (h : package.verify epoch = .ok ()) : package.commitment.coefficients ≠ [] := by
  obtain ⟨c0, hc0, -⟩ := verify_eq_ok_iff.mp h
  rintro hnil
  simp [hnil] at hc0

/-- The package of an honest dealer with the polynomial `a0 :: as`. -/
def ofPolynomial (dealerIndex : UInt32) (epoch : UInt64) (a0 : S) (as : List S)
    (hfits : (a0 :: as).length < 2 ^ 58) (rng : Rng S) : Round1Package P S where
  commitment := ⟨dealerIndex, (a0 :: as).map fun a => a • generator, by simpa using hfits⟩
  proofOfKnowledge := (ProofOfKnowledge.prove dealerIndex epoch a0 rng).1

@[simp] lemma verify_ofPolynomial (dealerIndex : UInt32) (epoch : UInt64) (a0 : S)
    (as : List S) (hfits : (a0 :: as).length < 2 ^ 58) (rng : Rng S) :
    (ofPolynomial dealerIndex epoch a0 as hfits rng : Round1Package P S).verify epoch
      = .ok () :=
  verify_eq_ok_iff.mpr
    ⟨_, rfl, ProofOfKnowledge.verifyIn_proveIn dkgPokDomain dealerIndex epoch a0 rng⟩

end Round1Package

end Frostito
