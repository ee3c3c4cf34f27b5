import Frostito.Dkg.Echo

/-!
# Justified complaints

A complaint accuses a dealer, carries the evidence, and is signed by the accuser's identity
key.  A verifier first authenticates it, that is, checks that it belongs to the ceremony and
that the signature is the accuser's, and then re-runs the evidence.  Evidence of a bad
sub-share is re-run against the commitment the verifier itself has in its agreed set;
evidence of a forged proof of knowledge is re-run on the package the complaint carries.
-/

namespace Frostito

/-- Domain tag for the complaint signature message. -/
def complaintSigDomain : Bytes := "frostito/dkg-complaint/v1".toUTF8.toList

/-- Domain tag for the commitment digest carried in a sealed package and named by
`BadSubShareEvidence`. -/
def commitmentDigestDomain : Bytes := "frostito/sealed/commitment/v1".toUTF8.toList

/-- A sub-share a recipient decrypted and which fails the Feldman check against the dealer's
agreed commitment. -/
structure BadSubShareEvidence where
  /-- The accused dealer's index. -/
  dealerIndex : UInt32
  /-- The complaining recipient's index. -/
  recipientIndex : UInt32
  /-- The ceremony's session id. -/
  sessionId : Vector UInt8 32
  /-- The round the package was delivered in. -/
  round : UInt8
  /-- The decrypted sub-share scalar, canonical bytes. -/
  subshare : Vector UInt8 32
  /-- Digest of the dealer's commitment in the agreed round-1 set. -/
  agreedDigest : Vector UInt8 32
  /-- Digest of the package's ciphertext as delivered. -/
  sealedDigest : Vector UInt8 32

/-- The bytes the complaint signature covers. -/
def BadSubShareEvidence.encode (e : BadSubShareEvidence) : Bytes :=
  u32ToLeBytes e.dealerIndex ++ u32ToLeBytes e.recipientIndex ++ e.sessionId.toList ++
    [e.round] ++ e.subshare.toList ++ e.agreedDigest.toList ++ e.sealedDigest.toList

/-- What a complaint accuses a dealer of, and the evidence for it. -/
inductive ComplaintEvidence (P S : Type) where
  /-- The dealer's round-1 package, whose proof of knowledge does not verify. -/
  | forgedProofOfKnowledge (package : Round1Package P S)
  /-- A scalar the accuser says it decrypted from the dealer's sealed round-2 package. -/
  | badSubShare (evidence : BadSubShareEvidence)

/-- What a verifier concluded about a complaint whose signature checked out. -/
inductive ComplaintVerdict where
  /-- The evidence holds. -/
  | upheld
  /-- The complaint is authentic but the evidence does not show what it claims. -/
  | unfounded
deriving DecidableEq

/-- A signed, ceremony-bound, justified complaint against a dealer. -/
structure Complaint (P S : Type) where
  epoch : UInt64
  sessionId : Vector UInt8 32
  /-- Which round the offence was observed in (1 or 2). -/
  round : UInt8
  accuserIndex : UInt32
  accusedIndex : UInt32
  evidence : ComplaintEvidence P S
  /-- `R = k·G` -/
  r : P
  /-- `s = k + e·x` -/
  s : S

variable {S P : Type} [CurveScalar S] [CurvePoint P S]

/-- Digest of a dealer's Feldman commitment. -/
def commitmentDigest [Sha2] (commitment : DealerCommitment P) : Vector UInt8 32 :=
  sha512Trunc (commitmentDigestDomain ++ commitment.toBytes)

namespace ComplaintEvidence

/-- The dealer this evidence is about. -/
def accusedIndex : ComplaintEvidence P S → UInt32
  | forgedProofOfKnowledge package => package.dealerIndex
  | badSubShare evidence => evidence.dealerIndex

/-- A field behind its length. -/
def field (bytes : Bytes) : Bytes := lenToLeBytes bytes.length ++ bytes

/-- The encoding of the evidence in the signed body. -/
def encode : ComplaintEvidence P S → Bytes
  | forgedProofOfKnowledge package =>
    [1] ++ field package.commitment.toBytes ++
      field (CurvePoint.compress package.proofOfKnowledge.r) ++
      field (CurveScalar.toBytes package.proofOfKnowledge.z).toList
  | badSubShare evidence => [2] ++ field evidence.encode

end ComplaintEvidence

namespace Complaint

/-- The signed body: everything but the signature. -/
def body (epoch : UInt64) (sessionId : Vector UInt8 32) (round : UInt8)
    (accuserIndex accusedIndex : UInt32) (evidence : ComplaintEvidence P S) : Bytes :=
  lenToLeBytes complaintSigDomain.length ++ complaintSigDomain ++ u64ToLeBytes epoch ++
    sessionId.toList ++ [round] ++ u32ToLeBytes accuserIndex ++ u32ToLeBytes accusedIndex ++
    evidence.encode

variable [Sha2]

/-- The challenge of a complaint signature. -/
def challenge (r accuserPubkey : P) (body : Bytes) : S :=
  CurveScalar.fromBytesWide (sha512 (complaintSigDomain ++ CurvePoint.compress r ++
    CurvePoint.compress accuserPubkey ++ lenToLeBytes body.length ++ body))

/-- Raise a complaint, signed by the accuser's long-term identity key. -/
def sign (epoch : UInt64) (sessionId : Vector UInt8 32) (round : UInt8)
    (accuserIndex : UInt32) (evidence : ComplaintEvidence P S) (accuserIdentitySecret : S)
    (rng : Rng S) : Outcome Error (Complaint P S × Rng S) := do
  .refuse (accuserIndex = 0) .invalidIndex
  let accusedIndex := evidence.accusedIndex
  let body := body epoch sessionId round accuserIndex accusedIndex evidence
  let accuserPubkey : P := accuserIdentitySecret • generator
  let (k, rng) := rng.random
  let r : P := k • generator
  let e := challenge r accuserPubkey body
  let s := k + e * accuserIdentitySecret
  .ok (⟨epoch, sessionId, round, accuserIndex, accusedIndex, evidence, r, s⟩, rng)

/-- Re-run the evidence, without checking the signature. -/
def adjudicate (c : Complaint P S) (agreed : Option (AgreedRound1 P)) :
    Outcome Error ComplaintVerdict :=
  match c.evidence with
  | .forgedProofOfKnowledge package =>
    if package.dealerIndex ≠ c.accusedIndex then .ok .unfounded else
    -- upheld exactly when the proof does not verify
    match package.verify c.epoch with
    | .ok () => .ok .unfounded
    | .err _ => .ok .upheld
    | .panic => .panic
  | .badSubShare evidence => do
    .refuse (evidence.dealerIndex ≠ c.accusedIndex ∨ evidence.recipientIndex ≠ c.accuserIndex ∨
      evidence.sessionId ≠ c.sessionId ∨ evidence.round ≠ c.round) .invalidComplaint
    let agreed ← .okOr agreed .invalidComplaint
    .refuse (agreed.epoch ≠ c.epoch) .invalidComplaint
    let commitment ← agreed.commitment evidence.dealerIndex
    .refuse (commitmentDigest commitment ≠ evidence.agreedDigest) .invalidComplaint
    let scalar ← .okOr (CurveScalar.fromCanonicalBytes evidence.subshare) .invalidComplaint
    if commitment.verifySubshare evidence.recipientIndex scalar then
      .ok .unfounded
    else
      .ok .upheld

/-- Verify a complaint that any third party received. -/
def verify (c : Complaint P S) (epoch : UInt64) (sessionId : Vector UInt8 32)
    (accuserIdentityPubkey : P) (agreed : Option (AgreedRound1 P)) :
    Outcome Error ComplaintVerdict := do
  .refuse (c.epoch ≠ epoch ∨ c.sessionId ≠ sessionId) .invalidComplaint
  .refuse (c.accuserIndex = 0 ∨ c.accusedIndex = 0 ∨ c.accusedIndex ≠ c.evidence.accusedIndex)
    .invalidComplaint
  let body := body c.epoch c.sessionId c.round c.accuserIndex c.accusedIndex c.evidence
  let e := challenge c.r accuserIdentityPubkey body
  .refuse (c.s • (generator : P) ≠ c.r + e • accuserIdentityPubkey) .invalidComplaint
  c.adjudicate agreed

/-! ### Authentication -/

/-- The complaint belongs to the ceremony, names its evidence's dealer and was signed by the
holder of the key. -/
structure Authentic (c : Complaint P S) (epoch : UInt64) (sessionId : Vector UInt8 32)
    (accuserIdentityPubkey : P) : Prop where
  epoch_eq : c.epoch = epoch
  sessionId_eq : c.sessionId = sessionId
  accuserIndex_ne_zero : c.accuserIndex ≠ 0
  accusedIndex_ne_zero : c.accusedIndex ≠ 0
  accusedIndex_eq : c.accusedIndex = c.evidence.accusedIndex
  signature : c.s • (generator : P) = c.r + challenge c.r accuserIdentityPubkey
    (body c.epoch c.sessionId c.round c.accuserIndex c.accusedIndex c.evidence) •
      accuserIdentityPubkey

variable {c : Complaint P S} {epoch : UInt64} {sessionId : Vector UInt8 32} {pubkey : P}
  {agreed : Option (AgreedRound1 P)}

/-- A verdict is reached on authentic complaints only, and is the adjudication's. -/
theorem verify_eq_ok_iff {verdict : ComplaintVerdict} :
    c.verify epoch sessionId pubkey agreed = .ok verdict ↔
      c.Authentic epoch sessionId pubkey ∧ c.adjudicate agreed = .ok verdict := by
  simp only [verify, Outcome.bind_eq_ok_iff, Outcome.refuse_eq_ok_iff, not_or, not_not]
  constructor
  · rintro ⟨_, ⟨hepoch, hsession⟩, _, ⟨haccuser, haccused, hindex⟩, _, hsig, hadj⟩
    exact ⟨⟨hepoch, hsession, haccuser, haccused, hindex, hsig⟩, hadj⟩
  · rintro ⟨⟨hepoch, hsession, haccuser, haccused, hindex, hsig⟩, hadj⟩
    exact ⟨(), ⟨hepoch, hsession⟩, (), ⟨haccuser, haccused, hindex⟩, (), hsig, hadj⟩

/-- A signed complaint is authentic in the ceremony it was signed for. -/
theorem authentic_of_sign {round : UInt8} {accuser : UInt32} {evidence : ComplaintEvidence P S}
    {secret : S} {rng rng' : Rng S} (haccused : evidence.accusedIndex ≠ 0)
    (h : sign epoch sessionId round accuser evidence secret rng = .ok (c, rng')) :
    c.Authentic epoch sessionId (secret • generator) := by
  simp only [sign, Outcome.bind_eq_ok_iff, Outcome.refuse_eq_ok_iff] at h
  obtain ⟨_, haccuser, hc⟩ := h
  obtain ⟨rfl, -⟩ := Prod.mk.inj (Outcome.ok.inj hc)
  exact ⟨rfl, rfl, haccuser, haccused, rfl, Schnorr.answers_of_logarithms _ _ _ _⟩

lemma sign_eq_ok {accuser : UInt32} (haccuser : accuser ≠ 0) (epoch : UInt64)
    (sessionId : Vector UInt8 32) (round : UInt8) (evidence : ComplaintEvidence P S) (secret : S)
    (rng : Rng S) :
    ∃ c rng', sign epoch sessionId round accuser evidence secret rng = .ok (c, rng') ∧
      c.epoch = epoch ∧ c.sessionId = sessionId ∧ c.round = round ∧ c.accuserIndex = accuser ∧
      c.accusedIndex = evidence.accusedIndex ∧ c.evidence = evidence := by
  rw [sign, Outcome.refuse_of_neg haccuser]
  exact ⟨_, _, rfl, rfl, rfl, rfl, rfl, rfl, rfl⟩

/-! ### Verdicts -/

/-- A forged-proof complaint is upheld when the package it carries names the accused and
does not verify: the verifier's own agreed set plays no part. -/
theorem adjudicate_forged_eq_upheld_iff {package : Round1Package P S}
    (h : c.evidence = .forgedProofOfKnowledge package) :
    c.adjudicate agreed = .ok .upheld ↔
      package.dealerIndex = c.accusedIndex ∧ ∃ e, package.verify c.epoch = .err e := by
  rw [adjudicate, h]
  dsimp only
  split
  · next hne => simp [hne]
  · next heq =>
    rw [not_not] at heq
    cases hv : package.verify c.epoch with
    | ok u => simp
    | err e => simp [heq]
    | panic => simp

/-- What a verifier needs to reach a verdict on a bad sub-share, and which one it is. -/
theorem adjudicate_badSubShare_eq_ok_iff {evidence : BadSubShareEvidence}
    (h : c.evidence = .badSubShare evidence) {verdict : ComplaintVerdict} :
    c.adjudicate agreed = .ok verdict ↔
      (evidence.dealerIndex = c.accusedIndex ∧ evidence.recipientIndex = c.accuserIndex ∧
        evidence.sessionId = c.sessionId ∧ evidence.round = c.round) ∧
      ∃ a, agreed = some a ∧ a.epoch = c.epoch ∧
        ∃ commitment, a.commitment evidence.dealerIndex = .ok commitment ∧
          commitmentDigest commitment = evidence.agreedDigest ∧
          ∃ scalar : S, CurveScalar.fromCanonicalBytes evidence.subshare = some scalar ∧
            verdict = if commitment.verifySubshare evidence.recipientIndex scalar then
              .unfounded else .upheld := by
  rw [adjudicate, h]
  simp only [Outcome.bind_eq_ok_iff, Outcome.refuse_eq_ok_iff, Outcome.okOr_eq_ok_iff, not_or,
    not_not]
  constructor
  · rintro ⟨_, hbind, a, ha, _, hepoch, commitment, hcommit, _, hdigest, scalar, hscalar, hv⟩
    refine ⟨hbind, a, ha, hepoch, commitment, hcommit, hdigest, scalar, hscalar, ?_⟩
    split at hv <;> simp_all
  · rintro ⟨hbind, a, ha, hepoch, commitment, hcommit, hdigest, scalar, hscalar, rfl⟩
    refine ⟨(), hbind, a, ha, (), hepoch, commitment, hcommit, (), hdigest, scalar, hscalar, ?_⟩
    split <;> rfl

end Complaint

end Frostito
