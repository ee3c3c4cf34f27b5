import Frostito.Dkg.Complaint
import Frostito.Reference.Backend

/-!
# What signatures and proofs bind

A complaint signature and a proof of knowledge are both a Schnorr response to a challenge that
is hashed from everything the response is meant for.  Two uses of one response under a public
value other than the identity have the same challenge, so either they are the same use or the
two challenge inputs are a collision of the hash.  A proof of knowledge is verified against a
commitment of the prover's choice; when that is the identity the challenge drops out of the
equation, and with it everything that was hashed.
-/

namespace Frostito

variable {S P : Type} [CurveScalar S] [CurvePoint P S]

variable (S) in
/-- Two challenge inputs are distinct and hash to the same scalar. -/
def Collision [Sha2] (a b : Bytes) : Prop :=
  a ≠ b ∧ (CurveScalar.fromBytesWide (sha512 a) : S) = CurveScalar.fromBytesWide (sha512 b)

/-! ### The signed body of a complaint -/

/-- The record of evidence has fixed places for its fields. -/
lemma BadSubShareEvidence.encode_injective : Function.Injective BadSubShareEvidence.encode := by
  intro e e' h
  obtain ⟨h, hsealed⟩ := List.append_inj' h (by simp)
  obtain ⟨h, hagreed⟩ := List.append_inj' h (by simp)
  obtain ⟨h, hsubshare⟩ := List.append_inj' h (by simp)
  obtain ⟨h, hround⟩ := List.append_inj' h rfl
  obtain ⟨h, hsession⟩ := List.append_inj' h (by simp)
  obtain ⟨hdealer, hrecipient⟩ := List.append_inj' h (by simp)
  cases e
  cases e'
  simp only [BadSubShareEvidence.mk.injEq]
  exact ⟨u32ToLeBytes_inj hdealer, u32ToLeBytes_inj hrecipient, Vector.toList_inj.mp hsession,
    List.singleton_inj.mp hround, Vector.toList_inj.mp hsubshare, Vector.toList_inj.mp hagreed,
    Vector.toList_inj.mp hsealed⟩

lemma BadSubShareEvidence.length_encode (e : BadSubShareEvidence) : e.encode.length = 137 := by
  simp [encode]

namespace ComplaintEvidence

/-- A field is read off the front of what follows. -/
lemma field_append_inj {bs bs' x y : Bytes} (hbs : bs.length < 2 ^ 64)
    (hbs' : bs'.length < 2 ^ 64) (h : field bs ++ x = field bs' ++ y) : bs = bs' ∧ x = y := by
  rw [field, field, lenToLeBytes_append hbs, lenToLeBytes_append hbs'] at h
  exact Framing.selfDelimiting_lengthPrefixed hbs hbs' h

/-- The encoding determines the kind of evidence and all that is in it. -/
theorem encode_injective [LawfulCompress P]
    (hbytes : Function.Injective (CurveScalar.toBytes : S → Vector UInt8 32)) :
    Function.Injective (encode : ComplaintEvidence P S → Bytes) := by
  have hpoint : ∀ p : P, (CurvePoint.compress p).length < 2 ^ 64 := by
    intro p
    rw [LawfulCompress.length_compress]
    rcases CurvePoint.compressedSize_mem (P := P) with h | h <;> rw [h] <;> norm_num
  intro evidence evidence' h
  cases evidence with
  | forgedProofOfKnowledge package =>
    cases evidence' with
    | forgedProofOfKnowledge package' =>
      simp only [encode, List.append_assoc, List.append_cancel_left_eq] at h
      obtain ⟨hcommitment, h⟩ := field_append_inj (DealerCommitment.length_toBytes_lt _)
        (DealerCommitment.length_toBytes_lt _) h
      obtain ⟨hr, hz⟩ := field_append_inj (hpoint _) (hpoint _) h
      obtain ⟨hz, -⟩ := field_append_inj (by simp) (by simp) (congrArg (· ++ []) hz)
      obtain ⟨commitment, ⟨r, z⟩⟩ := package
      obtain ⟨commitment', ⟨r', z'⟩⟩ := package'
      obtain rfl : commitment = commitment' := DealerCommitment.toBytes_injective hcommitment
      obtain rfl : r = r' := LawfulCompress.compress_injective hr
      obtain rfl : z = z' := hbytes (Vector.toList_inj.mp hz)
      rfl
    | badSubShare e' => simp [encode] at h
  | badSubShare e =>
    cases evidence' with
    | forgedProofOfKnowledge package' => simp [encode] at h
    | badSubShare e' =>
      have hlen : ∀ e : BadSubShareEvidence, e.encode.length < 2 ^ 64 := fun e => by
        rw [e.length_encode]
        norm_num
      simp only [encode, List.append_cancel_left_eq] at h
      obtain ⟨he, -⟩ := field_append_inj (hlen e) (hlen e') (congrArg (· ++ []) h)
      rw [BadSubShareEvidence.encode_injective he]

end ComplaintEvidence

namespace Complaint

/-- The six fields of a complaint that its signature is about. -/
@[ext]
structure Content (P S : Type) where
  epoch : UInt64
  sessionId : Vector UInt8 32
  round : UInt8
  accuserIndex : UInt32
  accusedIndex : UInt32
  evidence : ComplaintEvidence P S

/-- The body signed for them. -/
def Content.body (x : Content P S) : Bytes :=
  Complaint.body x.epoch x.sessionId x.round x.accuserIndex x.accusedIndex x.evidence

/-- Everything but the signature. -/
def content (c : Complaint P S) : Content P S where
  epoch := c.epoch
  sessionId := c.sessionId
  round := c.round
  accuserIndex := c.accuserIndex
  accusedIndex := c.accusedIndex
  evidence := c.evidence

/-- The body determines all it is made of. -/
lemma Content.body_injective [LawfulCompress P]
    (hbytes : Function.Injective (CurveScalar.toBytes : S → Vector UInt8 32)) :
    Function.Injective (Content.body : Content P S → Bytes) := by
  intro x x' h
  simp only [Content.body, Complaint.body, List.append_assoc, List.append_cancel_left_eq] at h
  obtain ⟨hepoch, h⟩ := selfDelimiting_u64 trivial trivial h
  obtain ⟨hsession, h⟩ := List.append_inj h (by simp)
  obtain ⟨hround, h⟩ := List.append_inj h rfl
  obtain ⟨haccuser, h⟩ := selfDelimiting_u32 trivial trivial h
  obtain ⟨haccused, hevidence⟩ := selfDelimiting_u32 trivial trivial h
  exact Content.ext hepoch (Vector.toList_inj.mp hsession) (List.singleton_inj.mp hround) haccuser
    haccused (ComplaintEvidence.encode_injective hbytes hevidence)

/-- The input of the challenge of a signature. -/
def challengeInput (c : Complaint P S) (pubkey : P) : Bytes :=
  complaintSigDomain ++ CurvePoint.compress c.r ++ CurvePoint.compress pubkey ++
    lenToLeBytes c.content.body.length ++ c.content.body

variable [Sha2]

/-- The signature check of `verify`. -/
def PassesSignatureCheck (c : Complaint P S) (pubkey : P) : Prop :=
  c.s • (generator : P) = c.r + challenge c.r pubkey
    (body c.epoch c.sessionId c.round c.accuserIndex c.accusedIndex c.evidence) • pubkey

/-- A verdict is reached on complaints that pass the check only. -/
lemma passesSignatureCheck_of_verify {c : Complaint P S} {epoch : UInt64}
    {sessionId : Vector UInt8 32} {pubkey : P} {agreed : Option (AgreedRound1 P)}
    {verdict : ComplaintVerdict} (h : c.verify epoch sessionId pubkey agreed = .ok verdict) :
    c.PassesSignatureCheck pubkey :=
  (verify_eq_ok_iff.mp h).1.signature

/-- The check is the Schnorr equation for the scalar that the input hashes to. -/
lemma PassesSignatureCheck.answers {c : Complaint P S} {pubkey : P}
    (h : c.PassesSignatureCheck pubkey) :
    Schnorr.Answers (generator : P) pubkey c.r c.s
      (CurveScalar.fromBytesWide (sha512 (c.challengeInput pubkey))) := h

/-- **A complaint signature binds every field.**  The signed body determines the six fields,
and two complaints with one signature under a key other than the identity are about the same
six fields, or their challenge inputs collide. -/
theorem signature_binds_every_field [LawfulCompress P]
    (hbytes : Function.Injective (CurveScalar.toBytes : S → Vector UInt8 32)) :
    Function.Injective (Content.body : Content P S → Bytes) ∧
    ∀ pubkey : P, pubkey ≠ 0 → ∀ c c' : Complaint P S, c.r = c'.r → c.s = c'.s →
      c.PassesSignatureCheck pubkey → c'.PassesSignatureCheck pubkey →
      c.content = c'.content ∨
        Collision S (c.challengeInput pubkey) (c'.challengeInput pubkey) := by
  refine ⟨Content.body_injective hbytes, fun pubkey hpubkey c c' hr hs hpass hpass' => ?_⟩
  by_cases hinput : c.challengeInput pubkey = c'.challengeInput pubkey
  -- the same input: the bodies stand behind prefixes of one length
  · left
    simp only [challengeInput, hr, List.append_assoc, List.append_cancel_left_eq] at hinput
    exact Content.body_injective hbytes (selfDelimiting_u64 trivial trivial hinput).2
  · right
    have hanswers := hpass.answers
    rw [hr, hs] at hanswers
    exact ⟨hinput, hanswers.challenge_unique hpubkey hpass'.answers⟩

end Complaint

section Rounds

open Reference

/-- Evidence about the scalar `9`. -/
def someEvidence : BadSubShareEvidence where
  dealerIndex := 1
  recipientIndex := 2
  sessionId := Vector.replicate 32 0
  round := 2
  subshare := CurveScalar.toBytes (9 : Residue)
  agreedDigest := Vector.replicate 32 0
  sealedDigest := Vector.replicate 32 0

/-- What participant 2 signs in one round is not what it signs in another. -/
theorem signature_binds_every_field_round :
    Complaint.body (P := Residue) (S := Residue) 7 (Vector.replicate 32 0) 1 2 1
        (.badSubShare someEvidence) ≠
      Complaint.body (P := Residue) (S := Residue) 7 (Vector.replicate 32 0) 2 2 1
        (.badSubShare someEvidence) := by
  have hbytes : Function.Injective (CurveScalar.toBytes : Residue → Vector UInt8 32) :=
    fun x y hxy => LawfulCompress.compress_injective (congrArg Vector.toList hxy)
  obtain ⟨hinj, -⟩ := Complaint.signature_binds_every_field (P := Residue) hbytes
  intro h
  have hround := congrArg Complaint.Content.round (@hinj
    ⟨7, Vector.replicate 32 0, 1, 2, 1, .badSubShare someEvidence⟩
    ⟨7, Vector.replicate 32 0, 2, 2, 1, .badSubShare someEvidence⟩ h)
  exact absurd hround (show (1 : UInt8) ≠ 2 by decide)

end Rounds

/-! ### What a proof of knowledge is made for -/

namespace ProofOfKnowledge

/-- What a proof is made for: key generation or resharing, a dealer, and an epoch. -/
@[ext]
structure Purpose where
  domain : Bytes
  dealerIndex : UInt32
  epoch : UInt64
  domain_mem : domain = dkgPokDomain ∨ domain = resharePokDomain

/-- The input of the challenge of a proof. -/
def Purpose.challengeInput (purpose : Purpose) (constantCommitment r : P) : Bytes :=
  purpose.domain ++ u32ToLeBytes purpose.dealerIndex ++ u64ToLeBytes purpose.epoch ++
    CurvePoint.compress constantCommitment ++ CurvePoint.compress r

/-- The two domain tags differ in length, so the input determines the purpose. -/
lemma Purpose.challengeInput_injective (constantCommitment r : P) :
    Function.Injective fun purpose : Purpose => purpose.challengeInput constantCommitment r := by
  intro purpose purpose' h
  have hlen : dkgPokDomain.length ≠ resharePokDomain.length := by decide +kernel
  simp only [challengeInput, List.append_cancel_right_eq] at h
  obtain ⟨h, hepoch⟩ := List.append_inj' h (by simp)
  obtain ⟨hdomain, hdealer⟩ := List.append_inj' h (by simp)
  exact Purpose.ext hdomain (u32ToLeBytes_inj hdealer) (u64ToLeBytes_inj hepoch)

variable [Sha2]

/-- The proof verifies for the purpose. -/
def VerifiesFor (proof : ProofOfKnowledge P S) (purpose : Purpose) (constantCommitment : P) :
    Prop :=
  proof.verifyIn purpose.domain purpose.dealerIndex purpose.epoch constantCommitment = true

/-- Verification is the Schnorr equation for the scalar that the input hashes to. -/
lemma verifiesFor_iff {proof : ProofOfKnowledge P S} {purpose : Purpose} {c0 : P} :
    proof.VerifiesFor purpose c0 ↔ Schnorr.Answers (generator : P) c0 proof.r proof.z
      (CurveScalar.fromBytesWide (sha512 (purpose.challengeInput c0 proof.r))) :=
  decide_eq_true_iff

/-- **When a proof of knowledge belongs to one purpose.**  An honest proof verifies for what it
was made for.  Whatever the proof and the constant term are, verification for two purposes
comes with a collision of the two challenge inputs, unless the constant term is the identity
and the proof is for it: then every purpose will do, and there is a collision for every two
only if the hash is constant on them. -/
theorem belongs_to_one_purpose_iff (proof : ProofOfKnowledge P S) (c0 : P) :
    (∀ (purpose : Purpose) (a0 : S) (rng : Rng S),
      (proveIn purpose.domain purpose.dealerIndex purpose.epoch a0 rng).1.VerifiesFor purpose
        (a0 • (generator : P))) ∧
    ((∀ purpose purpose' : Purpose, purpose ≠ purpose' →
        proof.VerifiesFor purpose c0 → proof.VerifiesFor purpose' c0 →
        Collision S (purpose.challengeInput c0 proof.r)
          (purpose'.challengeInput c0 proof.r)) ↔
      c0 ≠ 0 ∨ proof.z • (generator : P) ≠ proof.r ∨
        ∀ purpose purpose' : Purpose,
          (CurveScalar.fromBytesWide (sha512 (purpose.challengeInput c0 proof.r)) : S)
            = CurveScalar.fromBytesWide (sha512 (purpose'.challengeInput c0 proof.r))) := by
  refine ⟨fun purpose a0 rng => verifyIn_proveIn _ _ _ _ _, fun hone => ?_, ?_⟩
  · by_cases hc0 : c0 = 0
    · by_cases hz : proof.z • (generator : P) = proof.r
      -- the challenge drops out, and the proof verifies for everything
      · have hall : ∀ purpose : Purpose, proof.VerifiesFor purpose c0 := fun purpose => by
          rw [verifiesFor_iff, hc0]
          exact Schnorr.answers_zero_iff.mpr hz
        refine .inr (.inr fun purpose purpose' => ?_)
        by_cases hsame : purpose = purpose'
        · rw [hsame]
        · exact (hone _ _ hsame (hall _) (hall _)).2
      · exact .inr (.inl hz)
    · exact .inl hc0
  · intro hcondition purpose purpose' hne hpass hpass'
    refine ⟨fun h => hne (Purpose.challengeInput_injective c0 proof.r h), ?_⟩
    rw [verifiesFor_iff] at hpass hpass'
    by_cases hc0 : c0 = 0
    · rcases hcondition with h | h | h
      · exact absurd hc0 h
      · rw [hc0] at hpass
        exact absurd (Schnorr.answers_zero_iff.mp hpass) h
      · exact h _ _
    · exact hpass.challenge_unique hc0 hpass'

end ProofOfKnowledge

section Replay

open Reference ProofOfKnowledge

/-- Key generation by dealer 1 in epoch 7. -/
def dkgPurpose : Purpose := ⟨dkgPokDomain, 1, 7, .inl rfl⟩

/-- Resharing by dealer 2 into epoch 8. -/
def resharePurpose : Purpose := ⟨resharePokDomain, 2, 8, .inr rfl⟩

/-- The proof `(3, 3)` for the identity verifies for both, and their challenges differ. -/
theorem identity_proof_replays :
    (⟨3, 3⟩ : ProofOfKnowledge Residue Residue).VerifiesFor dkgPurpose 0 ∧
    (⟨3, 3⟩ : ProofOfKnowledge Residue Residue).VerifiesFor resharePurpose 0 ∧
    dkgPurpose ≠ resharePurpose ∧
    ¬Collision Residue (dkgPurpose.challengeInput (0 : Residue) (3 : Residue))
      (resharePurpose.challengeInput (0 : Residue) (3 : Residue)) := by
  refine ⟨?_, ?_, fun h => ?_, fun h => ?_⟩
  · exact verifiesFor_iff.mpr (Schnorr.answers_zero_iff.mpr (mul_one _))
  · exact verifiesFor_iff.mpr (Schnorr.answers_zero_iff.mpr (mul_one _))
  · exact absurd (congrArg Purpose.dealerIndex h) (by decide)
  · have hdiffer : (CurveScalar.fromBytesWide (sha512 (dkgPurpose.challengeInput (0 : Residue)
        (3 : Residue))) : Residue) ≠ CurveScalar.fromBytesWide (sha512
        (resharePurpose.challengeInput (0 : Residue) (3 : Residue))) := by
      decide +kernel
    exact hdiffer h.2

end Replay

end Frostito
