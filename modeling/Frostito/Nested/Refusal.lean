import Frostito.Nested.Flat

/-!
# What the nested position refuses

A flat signer refuses a package with fewer commitments than its group's threshold, without an
entry of its own, or with an entry that its nonces do not open.  A holder of the nested
position compares the entry with what was revealed and recomputes the outer context, but
neither its share nor the request carries the outer threshold.  So it refuses whatever a flat
signer refuses, save a package that is too small.
-/

namespace Frostito

/-- The errors of `frost_core::round2::sign`. -/
inductive FlatError where
  | incorrectNumberOfCommitments
  | missingCommitment
  | incorrectCommitment
  /-- An error in computing the share of a package that passed the three checks. -/
  | other
  deriving DecidableEq

/-- A flat signer's nonce pair. -/
structure SigningNonces (S : Type) where
  hidingNonce : S
  bindingNonce : S

/-- What a flat signer keeps of its group. -/
structure KeyPackage (P S : Type) [CurveScalar S] where
  identifier : Identifier S
  signingShare : S
  verifyingKey : P
  minSigners : UInt16

section Refusal

variable {S P : Type} [CurveScalar S] [CurvePoint P S]

/-- The commitments to a nonce pair. -/
def SigningNonces.commitments (nonces : SigningNonces S) : SigningCommitments P :=
  ⟨nonces.hidingNonce • generator, nonces.bindingNonce • generator⟩

/-- The pair that the revealed commitments of a request add up to. -/
def NestedSigningRequest.aggregated (request : NestedSigningRequest P S) :
    SigningCommitments P :=
  ⟨(request.innerCommitments.map InnerCommitments.hidingCommitment).sum,
    (request.innerCommitments.map InnerCommitments.bindingCommitment).sum⟩

/-- What is documented of `frost_core::round2::sign`: its three checks, in their order, and that
it computes the share of a package that passes them. -/
structure SignsFlat (suite : Ciphersuite P S)
    (sign : SigningPackage P S → SigningNonces S → KeyPackage P S → Outcome FlatError S) :
    Prop where
  few : ∀ {package nonces key}, package.signingCommitments.length < key.minSigners.toNat →
    sign package nonces key = .err .incorrectNumberOfCommitments
  missing : ∀ {package nonces key}, key.minSigners.toNat ≤ package.signingCommitments.length →
    package.signingCommitment key.identifier = none →
    sign package nonces key = .err .missingCommitment
  incorrect : ∀ {package nonces key entry},
    key.minSigners.toNat ≤ package.signingCommitments.length →
    package.signingCommitment key.identifier = some entry → entry ≠ nonces.commitments →
    sign package nonces key = .err .incorrectCommitment
  signs : ∀ {package nonces key z}, key.minSigners.toNat ≤ package.signingCommitments.length →
    package.signingCommitment key.identifier = some nonces.commitments →
    flatSignatureShare suite package key.verifyingKey key.identifier nonces.hidingNonce
      nonces.bindingNonce key.signingShare = some z →
    sign package nonces key = .ok z

variable {suite : Ciphersuite P S} {request : NestedSigningRequest P S} {groupPubkey : P}

omit [CurvePoint P S] in
/-- Where the outer context is computed, so is the share of a flat signer. -/
lemma exists_flatSignatureShare {package : SigningPackage P S} {nestedIndex : UInt32}
    {id : Identifier S} (hid : Identifier.ofIndex nestedIndex = some id) {rho c : S}
    (hcontext : outerContext suite package groupPubkey nestedIndex = some (rho, c))
    (d e sigma : S) :
    ∃ z, flatSignatureShare suite package groupPubkey id d e sigma = some z := by
  simp only [outerContext, Option.bind_eq_bind, Option.bind_eq_some_iff] at hcontext
  obtain ⟨id', hid', factors, hfactors, factor, hfactor, -, -, r, hr, c', hc, -⟩ := hcontext
  obtain rfl : id = id' := Option.some.inj (hid.symm.trans hid')
  exact ⟨_, flatSignatureShare_eq hfactors hr hc hfactor d e sigma⟩

variable [Sha2]

/-- The entry of a request that somebody answers is the aggregated pair. -/
lemma Answerable.exists_entry (h : Answerable request) :
    ∃ id, Identifier.ofIndex request.nestedIndex = some id ∧
      request.package.signingCommitment id = some request.aggregated := by
  obtain ⟨entry, hentry, hpair⟩ := verifyNestedCommitment_eq_ok_iff.mp h.nested
  obtain ⟨-, -, -, hsum⟩ := aggregateInnerCommitmentPair_eq_ok_iff.mp hpair
  simp only [nestedEntry, Option.bind_eq_bind, Option.bind_eq_some_iff] at hentry
  obtain ⟨id, hid, hentry⟩ := hentry
  obtain ⟨hhiding, hbinding⟩ := Prod.mk.inj hsum
  refine ⟨id, hid, ?_⟩
  rw [hentry, NestedSigningRequest.aggregated, ← hhiding, ← hbinding]

/-- **The nested position refuses whatever a flat signer refuses, save a package that is too
small.**  Where a holder signs, a flat signer at the same position answers the package exactly
when it carries as many commitments as the outer threshold and the signer's nonces are the
aggregated ones; a smaller package it refuses for its size. -/
theorem flatSigner_answers_iff [PrimeOrder P]
    {sign : SigningPackage P S → SigningNonces S → KeyPackage P S → Outcome FlatError S}
    (hsign : SignsFlat suite sign) {nonces : InnerNonces S} {share : SecretShare S}
    {approvedMessage : Bytes} {sig : InnerSignatureShare S}
    (hok : innerSign suite nonces share groupPubkey approvedMessage request = .ok sig) :
    ∃ id, Identifier.ofIndex request.nestedIndex = some id ∧
      ∀ (key : KeyPackage P S) (flat : SigningNonces S),
        key.identifier = id → key.verifyingKey = groupPubkey →
        ((∃ z, sign request.package flat key = .ok z) ↔
          key.minSigners.toNat ≤ request.package.signingCommitments.length ∧
            flat.commitments = request.aggregated) ∧
        (request.package.signingCommitments.length < key.minSigners.toNat →
          sign request.package flat key = .err .incorrectNumberOfCommitments) := by
  have hinj := fromU32_injective P
  obtain ⟨-, hrequest, -, -, -, params, hparams, -⟩ := (innerSign_eq_ok_iff hinj).mp hok
  obtain ⟨-, -, -, -, hcontext, -⟩ := (innerParamsFromZf_eq_ok_iff hinj).mp hparams
  obtain ⟨id, hid, hentry⟩ := hrequest.exists_entry
  refine ⟨id, hid, ?_⟩
  rintro key flat rfl rfl
  refine ⟨⟨?_, ?_⟩, hsign.few⟩
  · -- a package that is too small, or an entry of other nonces, is an error
    rintro ⟨z, hz⟩
    have henough : key.minSigners.toNat ≤ request.package.signingCommitments.length := by
      by_contra hfew
      rw [hsign.few (not_le.mp hfew)] at hz
      cases hz
    refine ⟨henough, ?_⟩
    by_contra hne
    rw [hsign.incorrect henough hentry (Ne.symm hne)] at hz
    cases hz
  · rintro ⟨henough, hflat⟩
    obtain ⟨z, hz⟩ := exists_flatSignatureShare hid hcontext flat.hidingNonce flat.bindingNonce
      key.signingShare
    exact ⟨z, hsign.signs henough (hflat ▸ hentry) hz⟩

end Refusal

/-! ### A package of two commitments -/

section Quorum

open Reference

/-- A flat signer that makes the documented checks and then computes its share. -/
def flatSign (package : SigningPackage Residue Residue) (nonces : SigningNonces Residue)
    (key : KeyPackage Residue Residue) : Outcome FlatError Residue := do
  .refuse (package.signingCommitments.length < key.minSigners.toNat)
    .incorrectNumberOfCommitments
  let entry ← .okOr (package.signingCommitment key.identifier) .missingCommitment
  .refuse (entry ≠ nonces.commitments) .incorrectCommitment
  .okOr (flatSignatureShare suite package key.verifyingKey key.identifier nonces.hidingNonce
    nonces.bindingNonce key.signingShare) .other

lemma signsFlat_flatSign : SignsFlat suite flatSign where
  few hfew := by
    rw [flatSign, Outcome.refuse_of_pos hfew, Outcome.err_bind]
  missing henough hnone := by
    rw [flatSign, Outcome.refuse_of_neg (not_lt.mpr henough), Outcome.ok_bind, hnone]
    rfl
  incorrect henough hentry hne := by
    rw [flatSign, Outcome.refuse_of_neg (not_lt.mpr henough), Outcome.ok_bind, hentry,
      Outcome.okOr_some, Outcome.ok_bind, Outcome.refuse_of_pos hne, Outcome.err_bind]
  signs henough hentry hz := by
    rw [flatSign, Outcome.refuse_of_neg (not_lt.mpr henough), Outcome.ok_bind, hentry,
      Outcome.okOr_some, Outcome.ok_bind, Outcome.refuse_of_neg (not_not.mpr rfl),
      Outcome.ok_bind, hz, Outcome.okOr_some]

/-- The holder 1 signs the package. -/
lemma exists_innerSign_quorumRequest :
    ∃ sig, innerSign suite (quorumNonces 1) ⟨1, innerShareOf 1⟩ 5 outerPackage.message
      (quorumRequest [1, 2] 2) = .ok sig := by
  obtain ⟨rho, c, hcontext, -⟩ := exists_outerContext_outerPackage
  obtain ⟨params, hparams, -⟩ := exists_innerParams_outerPackage hcontext
  have hrequest : Answerable (quorumRequest [1, 2] 2) :=
    honestRound_quorumRequest.answerable ⟨by decide, by decide, by decide⟩ (by decide)
  have hhonest : HonestHolder (quorumRequest [1, 2] 2) (quorumNonces 1) 1 :=
    honestRound_quorumRequest.honestHolder (by decide) (by decide)
  exact ⟨_, innerSign_of_honest (fromU32_injective Residue) hrequest hparams (by decide) hhonest⟩

/-- The flat signer with the key `7` and the nonces of both holders, in a group of the threshold
`minSigners`. -/
def flatKey (minSigners : UInt16) : KeyPackage Residue Residue where
  identifier := firstIdentifier
  signingShare := ((7 : ℕ) : Residue)
  verifyingKey := ((5 : ℕ) : Residue)
  minSigners := minSigners

/-- In a group of threshold 2 the flat signer answers what the holder 1 answers. -/
theorem flatSigner_answers_outerPackage :
    ∃ z, flatSign outerPackage ⟨13, 24⟩ (flatKey 2) = .ok z := by
  obtain ⟨sig, hsig⟩ := exists_innerSign_quorumRequest
  obtain ⟨id, hid, hflat⟩ := flatSigner_answers_iff signsFlat_flatSign hsig
  have hfirst : firstIdentifier = id :=
    Option.some.inj ((Identifier.ofIndex_eq_some_iff.mpr ⟨by decide, rfl⟩).symm.trans hid)
  exact (hflat (flatKey 2) ⟨13, 24⟩ hfirst rfl).1.mpr ⟨by decide, by decide⟩

/-- The polynomial `5 + x + x²` of a group of threshold 3. -/
def outerPolynomial : List Residue := [((5 : ℕ) : Residue), 1, 1]

/-- The group has the key `5`, and its signer 1 the key `7` that the inner holders share.  The
holder 1 signs a package of two commitments, which the signer 1 refuses. -/
theorem small_package_answered :
    (outerPolynomial.length = (flatKey 3).minSigners.toNat ∧
      Horner.horner (0 : Residue) outerPolynomial • (generator : Residue) = 5 ∧
      Horner.horner (1 : Residue) outerPolynomial = 7 ∧
      Horner.horner (0 : Residue) ([7, 1] : List Residue) = 7) ∧
    (∃ sig, innerSign suite (quorumNonces 1) ⟨1, innerShareOf 1⟩ 5 outerPackage.message
      (quorumRequest [1, 2] 2) = .ok sig) ∧
    ¬(flatKey 3).minSigners.toNat ≤ (quorumRequest [1, 2] 2).package.signingCommitments.length ∧
    ∀ sign, SignsFlat suite sign →
      sign outerPackage ⟨13, 24⟩ (flatKey 3) = .err .incorrectNumberOfCommitments :=
  ⟨by decide, exists_innerSign_quorumRequest, by decide, fun _ hsign => hsign.few (by decide)⟩

end Quorum

end Frostito
