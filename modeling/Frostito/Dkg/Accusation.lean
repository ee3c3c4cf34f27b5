import Frostito.Dkg.Complaint
import Frostito.Reference.Backend

/-!
# Who can be framed with a proof-of-knowledge complaint

The proof a dealer of the agreed set published did verify.  A complaint about a forged
proof, however, is judged by the package it carries, and nothing ties that package to the
one the dealer published: whoever can sign a complaint can also make up a package that
carries the dealer's index and does not verify.  The verdict spares the dealer exactly when
the accuser chose a package that verifies.
-/

namespace Frostito

section Exact

variable {S P : Type} [CurveScalar S] [CurvePoint P S] [Sha2]

/-- Whoever is accused and whatever is agreed on: the verdict looks at the package alone. -/
lemma Complaint.verify_ne_upheld_iff_of_forged {c : Complaint P S} {package : Round1Package P S}
    (hevidence : c.evidence = .forgedProofOfKnowledge package) {epoch : UInt64}
    {sessionId : Vector UInt8 32} {pubkey : P} {agreed : Option (AgreedRound1 P)} :
    c.verify epoch sessionId pubkey agreed ≠ .ok .upheld ↔
      (c.Authentic epoch sessionId pubkey →
        package.commitment.coefficients = [] ∨ package.verify epoch = .ok ()) := by
  rw [Ne, Complaint.verify_eq_ok_iff, not_and, Complaint.adjudicate_forged_eq_upheld_iff hevidence]
  refine forall_congr' fun hauth => ?_
  have hindex : package.dealerIndex = c.accusedIndex := by
    rw [hauth.accusedIndex_eq, hevidence]
    rfl
  rw [hauth.epoch_eq, ← Round1Package.verify_eq_panic_iff epoch]
  cases package.verify epoch with
  | ok u => simp
  | err e => simp [hindex]
  | panic => simp

/-- **The exact verdict on a forged-proof complaint.**  A dealer of the agreed set escapes
the verdict when the package in the complaint verifies (or is one whose verification
panics), and on authentic complaints only then. -/
theorem verify_forged_ne_upheld_iff {epoch : UInt64} {threshold n : UInt32}
    {calls : List (DkgCall P S)} {agreed : AgreedRound1 P}
    (hagreed : (DkgState.reach epoch threshold n calls).agreedRound1 = .ok agreed)
    {c : Complaint P S} (haccused : c.accusedIndex ∈ agreed.dealerSet)
    {package : Round1Package P S} (hevidence : c.evidence = .forgedProofOfKnowledge package)
    (sessionId : Vector UInt8 32) (pubkey : P) :
    c.verify agreed.epoch sessionId pubkey (some agreed) ≠ .ok .upheld ↔
      (c.Authentic agreed.epoch sessionId pubkey →
        package.commitment.coefficients = [] ∨ package.verify epoch = .ok ()) := by
  have hepoch : agreed.epoch = epoch := by
    obtain ⟨-, rfl⟩ :=
      (DkgState.inv_reach epoch threshold n calls).agreedRound1_eq_ok_iff.mp hagreed
    exact congrArg Prod.fst (DkgState.params_reach epoch threshold n calls)
  rw [hepoch]
  exact Complaint.verify_ne_upheld_iff_of_forged hevidence

end Exact

open Reference in
/-- A complaint that carries the very package dealer 1 published does not convict it. -/
theorem published_package_not_upheld :
    ∃ (c : Complaint Residue Residue) (rng' : Rng Residue),
      Complaint.sign 7 (Vector.replicate 32 0) 1 2
        (.forgedProofOfKnowledge (.ofPolynomial 1 7 5 [1] (by simp) (Stream'.const 3)))
        9 (Stream'.const 2) = .ok (c, rng') ∧
      c.verify agreed.epoch (Vector.replicate 32 0) ((9 : Residue) • generator) (some agreed)
        ≠ .ok .upheld := by
  obtain ⟨c, rng', hsign, -, -, -, -, haccused, hevidence⟩ :=
    Complaint.sign_eq_ok (P := Residue) (show (2 : UInt32) ≠ 0 by decide) 7
      (Vector.replicate 32 0) 1
      (.forgedProofOfKnowledge (.ofPolynomial 1 7 5 [1] (by simp) (Stream'.const 3)))
      (9 : Residue) (Stream'.const 2)
  have hdealer : c.accusedIndex ∈ agreed.dealerSet := by
    rw [haccused]
    exact List.mem_cons_self
  refine ⟨c, rng', hsign, ?_⟩
  exact (verify_forged_ne_upheld_iff agreedRound1_packages hdealer hevidence _ _).mpr fun _ =>
    .inr (Round1Package.verify_ofPolynomial _ _ _ _ _ _)

/-! ### Framing a dealer -/

section Framing

variable {S P : Type} [CurveScalar S] [CurvePoint P S] [Sha2]

/-- A package for the dealer `i` with a proof that does not verify, whatever the hash is:
its constant term is the identity, so the proof claims `1 • G = 0`. -/
def forgedPackage (i : UInt32) : Round1Package P S where
  commitment := ⟨i, [0], by simp⟩
  proofOfKnowledge := ⟨0, 1⟩

lemma verify_forgedPackage (hG : (generator : P) ≠ 0) (i : UInt32) (epoch : UInt64) :
    (forgedPackage i : Round1Package P S).verify epoch = .err (.invalidProofOfKnowledge i) := by
  have hproof : (forgedPackage i : Round1Package P S).proofOfKnowledge.verify i epoch 0
      = false := by
    simp [forgedPackage, ProofOfKnowledge.verify, ProofOfKnowledge.verifyIn, hG]
  have hc0 : ((forgedPackage i : Round1Package P S).commitment.shareCommitment : Outcome Error P)
      = .ok 0 := rfl
  have hindex : (forgedPackage i : Round1Package P S).commitment.dealerIndex = i := rfl
  simp only [Round1Package.verify, hc0, Outcome.ok_bind, hindex, hproof]
  rfl

/-- Every holder of an identity key has every dealer convicted. -/
theorem exists_upheld_complaint (hG : (generator : P) ≠ 0) {accuser i : UInt32}
    (haccuser : accuser ≠ 0) (hi : i ≠ 0) (epoch : UInt64) (sessionId : Vector UInt8 32)
    (round : UInt8) (secret : S) (rng : Rng S) (agreed : Option (AgreedRound1 P)) :
    ∃ (c : Complaint P S) (rng' : Rng S),
      Complaint.sign epoch sessionId round accuser (.forgedProofOfKnowledge (forgedPackage i))
        secret rng = .ok (c, rng') ∧
      c.accusedIndex = i ∧
      c.verify epoch sessionId (secret • generator) agreed = .ok .upheld := by
  obtain ⟨c, rng', hsign, -, -, -, -, haccused, hevidence⟩ :=
    Complaint.sign_eq_ok (P := P) haccuser epoch sessionId round
      (.forgedProofOfKnowledge (forgedPackage i)) secret rng
  have hnamed : (ComplaintEvidence.forgedProofOfKnowledge
      (forgedPackage i : Round1Package P S)).accusedIndex ≠ 0 := hi
  refine ⟨c, rng', hsign, haccused, Complaint.verify_eq_ok_iff.mpr
    ⟨Complaint.authentic_of_sign hnamed hsign, ?_⟩⟩
  refine (Complaint.adjudicate_forged_eq_upheld_iff hevidence).mpr
    ⟨haccused.symm, _, verify_forgedPackage hG i c.epoch⟩

end Framing

open Reference in
/-- Dealers 1 and 2 publish packages that verify and agree on both; participant 2 has dealer
1 convicted of a forged proof. -/
theorem honest_dealer_framed :
    (DkgState.reach 7 2 2 (packages.map .submit)).agreedRound1 = .ok agreed ∧
    1 ∈ agreed.dealerSet ∧
    ∃ (c : Complaint Residue Residue) (rng' : Rng Residue),
      Complaint.sign 7 (Vector.replicate 32 0) 1 2 (.forgedProofOfKnowledge (forgedPackage 1))
        9 (Stream'.const 2) = .ok (c, rng') ∧
      c.accusedIndex = 1 ∧
      c.verify agreed.epoch (Vector.replicate 32 0) ((9 : Residue) • generator) (some agreed)
        = .ok .upheld :=
  ⟨agreedRound1_packages, List.mem_cons_self,
    exists_upheld_complaint PrimeOrder.generator_ne_zero (by decide) (by decide) 7 _ 1 9 _ _⟩

end Frostito
