import Frostito.Reference.Snow
import Frostito.Sealed.Open

/-!
# Evidence that transfers

A recipient that opened a package signs a complaint about the scalar inside.  Whoever holds
the agreed set the recipient holds re-runs the check the recipient ran, on the same scalar
and the same commitment, and so reaches the verdict that the recipient's own check implies.
-/

namespace Frostito

section Transfer

variable {S P : Type} [CurveScalar S] [CurvePoint P S] [Sha2]

/-- Signed by `accuser` with whatever identity key, the evidence leads every verifier whose
agreed set has the epoch and the commitments of `agreed` to the verdict, and no verifier
without an agreed set to any. -/
def Transferable (agreed : AgreedRound1 P) (sessionId : Vector UInt8 32) (round : UInt8)
    (accuser : UInt32) (evidence : BadSubShareEvidence) (verdict : ComplaintVerdict) : Prop :=
  ∀ (identitySecret : S) (rng : Rng S), ∃ (c : Complaint P S) (rng' : Rng S),
    Complaint.sign agreed.epoch sessionId round accuser (.badSubShare evidence) identitySecret rng
      = .ok (c, rng') ∧
    (∀ agreed' : AgreedRound1 P, agreed'.epoch = agreed.epoch →
      agreed'.commitments = agreed.commitments →
      c.verify agreed.epoch sessionId (identitySecret • (generator : P)) (some agreed')
        = .ok verdict) ∧
    ∀ (epoch' : UInt64) (sessionId' : Vector UInt8 32) (pubkey' : P) (verdict' : ComplaintVerdict),
      c.verify epoch' sessionId' pubkey' none ≠ .ok verdict'

/-- Evidence about a scalar, with the bindings of the complaint and the digest of the agreed
commitment, leads to the verdict of the Feldman check. -/
lemma transferable_of_commitment [LawfulScalarBytes S] {agreed : AgreedRound1 P}
    {commitment : DealerCommitment P} (evidence : BadSubShareEvidence) (value : S)
    (hdealer : evidence.dealerIndex ≠ 0) (hrecipient : evidence.recipientIndex ≠ 0)
    (hcommit : agreed.commitment evidence.dealerIndex = .ok commitment)
    (hdigest : evidence.agreedDigest = commitmentDigest commitment)
    (hvalue : evidence.subshare = CurveScalar.toBytes value) :
    Transferable agreed evidence.sessionId evidence.round evidence.recipientIndex evidence
      (if commitment.verifySubshare evidence.recipientIndex value then .unfounded
        else .upheld) := by
  intro identitySecret rng
  obtain ⟨c, rng', hsign, hepoch, hsession, hround, haccuser, haccused, hevidence⟩ :=
    Complaint.sign_eq_ok (P := P) hrecipient agreed.epoch evidence.sessionId evidence.round
      (.badSubShare evidence) identitySecret rng
  have haccused0 : (.badSubShare evidence : ComplaintEvidence P S).accusedIndex ≠ 0 := hdealer
  refine ⟨c, rng', hsign, fun agreed' hepoch' hcommitments => ?_, fun _ _ _ verdict' h => ?_⟩
  · have hcommit' : agreed'.commitment evidence.dealerIndex = .ok commitment := by
      rw [← hcommit, AgreedRound1.commitment, AgreedRound1.commitment, hcommitments]
    refine Complaint.verify_eq_ok_iff.mpr ⟨Complaint.authentic_of_sign haccused0 hsign,
      (Complaint.adjudicate_badSubShare_eq_ok_iff hevidence).mpr
        ⟨⟨haccused.symm, haccuser.symm, hsession.symm, hround.symm⟩, agreed', rfl,
          hepoch'.trans hepoch.symm, commitment, hcommit', hdigest.symm, value, ?_, rfl⟩⟩
    rw [hvalue, LawfulScalarBytes.fromCanonicalBytes_toBytes]
  -- without an agreed set there is no commitment to check the scalar against
  · obtain ⟨-, hadjudicate⟩ := Complaint.verify_eq_ok_iff.mp h
    obtain ⟨-, agreed', hnone, -⟩ :=
      (Complaint.adjudicate_badSubShare_eq_ok_iff hevidence).mp hadjudicate
    exact absurd hnone (by simp)

variable [Snow]

/-- **Evidence of a bad sub-share transfers, and only evidence of a bad one.**  The evidence
that a recipient is handed convicts the dealer before every verifier with the same agreed
set; a complaint about a scalar that the recipient accepted, with the same bindings, is
unfounded before every one of them; and neither means anything to a verifier without an
agreed set. -/
theorem evidence_transferable [LawfulScalarBytes S] (secret : X25519Key) (j : UInt32)
    (roster : SealedRoster) (round : UInt8) (sealedShare : SealedSubShare)
    (agreed : AgreedRound1 P) :
    (∀ evidence, openSubshareAgreedWithEvidence (S := S) secret j roster round sealedShare agreed
        = .err (.badSubShare evidence) →
      Transferable agreed roster.sessionId round j evidence .upheld) ∧
    ∀ (subshare : SubShare S) (commitment : DealerCommitment P) (sealedDigest : Vector UInt8 32),
      openSubshareAgreedWithEvidence secret j roster round sealedShare agreed = .ok subshare →
      agreed.commitment sealedShare.dealerIndex = .ok commitment →
      Transferable agreed roster.sessionId round j
        ⟨sealedShare.dealerIndex, j, roster.sessionId, round,
          CurveScalar.toBytes subshare.value, commitmentDigest commitment, sealedDigest⟩
        .unfounded := by
  constructor
  · intro evidence h
    obtain ⟨commitment, subshare, digest, hcommit, hopen, hverify, rfl⟩ :=
      openSubshareAgreedWithEvidence_eq_badSubShare_iff.mp h
    obtain ⟨-, -, hdealer, hj⟩ := indices_of_openEnvelope hopen
    have htransfer := transferable_of_commitment
      (badSubShareEvidence j roster round sealedShare commitment subshare.value) subshare.value
      hdealer hj hcommit rfl rfl
    rw [badSubShareEvidence, hverify] at htransfer
    exact htransfer
  · intro subshare commitment sealedDigest h hcommit
    obtain ⟨commitment', hcommit', hopen, hverify⟩ :=
      openSubshareAgreedWithEvidence_eq_ok_iff.mp h
    obtain rfl : commitment = commitment' := Outcome.ok.inj (hcommit.symm.trans hcommit')
    obtain ⟨-, -, hdealer, hj⟩ := indices_of_openEnvelope hopen
    have htransfer := transferable_of_commitment ⟨sealedShare.dealerIndex, j, roster.sessionId,
      round, CurveScalar.toBytes subshare.value, commitmentDigest commitment, sealedDigest⟩
      subshare.value hdealer hj hcommit rfl rfl
    rw [hverify] at htransfer
    exact htransfer

end Transfer

/-! ### A dealer that cheats -/

section Cheating

open Reference

/-- The roster of the participants 1 and 2. -/
def roster : SealedRoster where
  participants := [(1, publicOf (Vector.replicate 32 1)), (2, publicOf (Vector.replicate 32 2))]
  sessionId := Vector.replicate 32 0
  valid := ⟨by decide, by decide, by decide⟩
  sorted := by decide

/-- What dealer 1 seals for participant 2 under its own commitment. -/
def sealedByDealer (value : Residue) : Outcome Error SealedSubShare :=
  sealSubshare (Vector.replicate 32 1) roster 2 ⟨1, 2, value⟩
    (linePackage 1 5 1).commitment (Vector.replicate 32 7)

/-- Participant 2 opens the package to the scalar inside. -/
lemma exists_openEnvelope (value : Residue) :
    ∃ sealedShare digest, sealedByDealer value = .ok sealedShare ∧
      sealedShare.dealerIndex = 1 ∧
      openEnvelope (Vector.replicate 32 2) 2 roster 2 sealedShare
        = .ok ((⟨1, 2, value⟩ : SubShare Residue), digest) := by
  have hdealer : roster.publicKey 1 = .ok (publicOf (Vector.replicate 32 1)) := by decide
  have hrecipient : roster.publicKey 2 = .ok (publicOf (Vector.replicate 32 2)) := by decide
  obtain ⟨message, hmessage⟩ := exists_noiseSeal (Vector.replicate 32 1)
    (publicOf (Vector.replicate 32 2)) (Vector.replicate 32 7) (roster.prologue 2)
    ((⟨1, 2, value⟩ : SubShare Residue).encodePlaintext ++
      (commitmentDigest (linePackage 1 5 1).commitment).toList)
  have hone : (⟨1, 2, value⟩ : SubShare Residue).dealerIndex ≠ 0 := show (1 : UInt32) ≠ 0 by decide
  have htwo : (⟨1, 2, value⟩ : SubShare Residue).playerIndex ≠ 0 := show (2 : UInt32) ≠ 0 by decide
  exact ⟨⟨1, 2, message⟩, _,
    sealSubshare_eq_ok_iff.mpr ⟨rfl, _, _, message, hrecipient, hdealer, hmessage, rfl⟩, rfl,
    openEnvelope_eq_ok hone htwo hdealer (noiseOpen_of_noiseSeal hmessage)⟩

/-- Dealer 1, whose polynomial is `5 + x`, seals `9` instead of `7` for participant 2, which
is left with evidence. -/
theorem cheating_dealer_evidence_transfers :
    ∃ sealedShare evidence, sealedByDealer 9 = .ok sealedShare ∧
      openSubshareAgreedWithEvidence (S := Residue) (Vector.replicate 32 2) 2 roster 2 sealedShare
        agreed = .err (.badSubShare evidence) ∧
      Transferable agreed roster.sessionId 2 2 evidence .upheld := by
  obtain ⟨sealedShare, digest, hseal, hindex, hopen⟩ := exists_openEnvelope 9
  have hcommit : agreed.commitment sealedShare.dealerIndex
      = .ok (linePackage 1 5 1).commitment := by
    rw [hindex]
    rfl
  have hverify : (linePackage 1 5 1).commitment.verifySubshare 2 9 = false := by
    decide +kernel
  have hevidence := openSubshareAgreedWithEvidence_eq_badSubShare_iff.mpr
    ⟨_, _, _, hcommit, hopen, hverify, rfl⟩
  exact ⟨sealedShare, _, hseal, hevidence, (evidence_transferable _ _ _ _ _ _).1 _ hevidence⟩

end Cheating

end Frostito
