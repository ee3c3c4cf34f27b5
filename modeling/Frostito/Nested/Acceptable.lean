import Frostito.Lib.Keyed
import Frostito.Nested.Flat
import Frostito.Reference.Lines

/-!
# Shares the aggregator accepts

A holder enters `inner_sign` twice, with its nonces and with its share of the key.  The
signature share names the holder of the nonces; the Lagrange coefficient and the secret are
those of the holder of the key share, and nothing compares the two.  The aggregator looks up
the public share of the holder that is named, so it accepts the signature share exactly when
the two are the same holder, or when the challenge is zero and the key share drops out.
-/

namespace Frostito

section Acceptable

variable {S P : Type} [CurveScalar S] [CurvePoint P S]

/-- The aggregator accepts the signature share: the holder it names is in the quorum and
revealed exactly one commitment, and the share verifies against it, whatever the public
shares of the holders other than `share.index` are. -/
structure Acceptable (request : NestedSigningRequest P S) (share : SecretShare S)
    (params : InnerSigningParams S) (sig : InnerSignatureShare S) : Prop where
  mem : sig.holderIndex ∈ request.activeIndices
  verified : ∃ c,
    request.innerCommitments.filter (fun c => c.holderIndex = sig.holderIndex) = [c] ∧
    ∀ publicShare : UInt32 → P, publicShare share.index = share.scalar • generator →
      ∃ lagrange pos mu, computeLagrangeCoefficients request.activeIndices = .ok lagrange ∧
        position request.activeIndices sig.holderIndex = some pos ∧ lagrange[pos]? = some mu ∧
        verifyInnerShare sig c (publicShare sig.holderIndex) params mu = true

variable {request : NestedSigningRequest P S} {params : InnerSigningParams S}

omit [CurvePoint P S] in
/-- The outer coefficient is never zero. -/
lemma outerLambda_ne_zero (hinj : Function.Injective (fromU32 : UInt32 → S))
    {suite : Ciphersuite P S} {package : SigningPackage P S} {verifyingKey : P}
    {nestedIndex : UInt32}
    (h : innerParamsFromZf suite package verifyingKey nestedIndex = .ok params) :
    params.outerLambda ≠ 0 := by
  obtain ⟨indices, hread, -, -, -, hlambda⟩ := (innerParamsFromZf_eq_ok_iff hinj).mp h
  rw [hlambda]
  refine lagrangeCoeff_ne_zero hinj (fun h0 => ?_) _
  obtain ⟨id, -, hid⟩ := Outcome.exists_of_mem_of_mapM_eq_ok hread h0
  exact ne_zero_of_indexOfBytes hid rfl

variable [Sha2]

lemma Answerable.nodup_holders (h : Answerable request) :
    (request.innerCommitments.map InnerCommitments.holderIndex).Nodup := by
  obtain ⟨entry, -, hpair⟩ := verifyNestedCommitment_eq_ok_iff.mp h.nested
  exact (aggregateInnerCommitmentPair_eq_ok_iff.mp hpair).2.2.1

omit [Sha2] in
/-- What a holder that answers with its nonces and with somebody's key share computes verifies
exactly when the two key terms agree. -/
lemma verifyInnerShare_response_iff (nonces : InnerNonces S) (sigma mu mu' : S)
    (publicShare : P) :
    verifyInnerShare ⟨nonces.holderIndex,
        nonces.hidingNonce + params.outerBinding * nonces.bindingNonce
          + params.outerLambda * params.outerChallenge * mu * sigma⟩
      nonces.commitments publicShare params mu' = true ↔
      (params.outerLambda * params.outerChallenge * mu * sigma) • (generator : P)
        = (params.outerLambda * params.outerChallenge * mu') • publicShare := by
  rw [verifyInnerShare, decide_eq_true_iff, add_smul, add_smul, mul_smul params.outerBinding]
  exact add_right_inj _

omit [Sha2] in
/-- A multiple that does not depend on the point is the one by zero. -/
lemma eq_zero_of_forall_smul [PrimeOrder P] {q : P} {a : S} (h : ∀ p : P, q = a • p) :
    a = 0 := by
  have hzero : a • (0 : P) = a • generator := (h 0).symm.trans (h generator)
  rw [smul_zero] at hzero
  exact (smul_eq_zero.mp hzero.symm).resolve_right PrimeOrder.generator_ne_zero

/-- The signature share of a holder with the nonces of `nonces.holderIndex` and the key share
of `share.index`. -/
lemma acceptable_iff [PrimeOrder P] (hrequest : Answerable request)
    {nonces : InnerNonces S} {share : SecretShare S}
    (hcommitment : commitmentOf request.innerCommitments nonces.holderIndex
      = some nonces.commitments)
    (hmem : share.index ∈ request.activeIndices) (hlambda : params.outerLambda ≠ 0) :
    Acceptable request share params ⟨nonces.holderIndex,
        nonces.hidingNonce + params.outerBinding * nonces.bindingNonce
          + params.outerLambda * params.outerChallenge
            * lagrangeCoeff request.activeIndices share.index * share.scalar⟩ ↔
      nonces.holderIndex = share.index ∨
        (nonces.holderIndex ∈ request.activeIndices ∧ params.outerChallenge = 0) := by
  have hinj := fromU32_injective P
  have hfilter : request.innerCommitments.filter (fun c => c.holderIndex = nonces.holderIndex)
      = [nonces.commitments] :=
    Keyed.filter_eq_singleton hrequest.nodup_holders (List.mem_of_find?_eq_some hcommitment)
  constructor
  · rintro ⟨hnamed, c, hc, hverified⟩
    obtain rfl : nonces.commitments = c := List.singleton_inj.mp (hfilter.symm.trans hc)
    by_cases hsame : nonces.holderIndex = share.index
    · exact .inl hsame
    refine .inr ⟨hnamed, ?_⟩
    -- the public share of the named holder may be any point, and the key term is one
    have hterm : ∀ p : P, (params.outerLambda * params.outerChallenge
        * lagrangeCoeff request.activeIndices share.index * share.scalar) • (generator : P)
        = (params.outerLambda * params.outerChallenge
          * lagrangeCoeff request.activeIndices nonces.holderIndex) • p := by
      intro p
      obtain ⟨-, hverify⟩ := (exists_coefficient_at_iff hinj hrequest.valid).mp (hverified
        (fun k => if k = share.index then share.scalar • generator else p) (if_pos rfl))
      rw [if_neg hsame] at hverify
      exact (verifyInnerShare_response_iff nonces share.scalar _ _ p).mp hverify
    have hmu := lagrangeCoeff_ne_zero hinj hrequest.valid.zero_notMem nonces.holderIndex
    have hweight := (mul_eq_zero.mp (eq_zero_of_forall_smul hterm)).resolve_right hmu
    exact (mul_eq_zero.mp hweight).resolve_left hlambda
  · intro h
    have hnamed : nonces.holderIndex ∈ request.activeIndices := by
      rcases h with hsame | ⟨hnamed, -⟩
      · rwa [hsame]
      · exact hnamed
    refine ⟨hnamed, _, hfilter, fun publicShare hpublic => ?_⟩
    refine (exists_coefficient_at_iff hinj hrequest.valid).mpr ⟨hnamed, ?_⟩
    refine (verifyInnerShare_response_iff nonces share.scalar _ _ _).mpr ?_
    rcases h with hsame | ⟨-, hchallenge⟩
    · rw [hsame, hpublic, mul_smul]
    · simp [hchallenge]

/-- **When a share that `inner_sign` emits is one the aggregator accepts.** -/
theorem innerSign_acceptable_iff [PrimeOrder P] {suite : Ciphersuite P S}
    {nonces : InnerNonces S} {share : SecretShare S} {localGroupPubkey : P}
    {approvedMessage : Bytes} {request : NestedSigningRequest P S} {sig : InnerSignatureShare S}
    (h : innerSign suite nonces share localGroupPubkey approvedMessage request = .ok sig) :
    ∃ params, innerParamsFromZf suite request.package localGroupPubkey request.nestedIndex
        = .ok params ∧
      (Acceptable request share params sig ↔ nonces.holderIndex = share.index ∨
        (nonces.holderIndex ∈ request.activeIndices ∧ params.outerChallenge = 0)) := by
  have hinj := fromU32_injective P
  obtain ⟨-, hrequest, -, hcommitment, hmem, params, hparams, rfl⟩ :=
    (innerSign_eq_ok_iff hinj).mp h
  exact ⟨params, hparams,
    acceptable_iff hrequest hcommitment hmem (outerLambda_ne_zero hinj hparams)⟩

end Acceptable

/-! ### Two holders in one call -/

section Quorum

open Reference

/-- A call with the nonces of one of the holders 1 and 2 and the key share of one of them. -/
lemma exists_innerSign_quorum {i j : UInt32} (hi : i ∈ [1, 2]) (hj : j ∈ [1, 2]) :
    ∃ params, innerParamsFromZf suite outerPackage 5 1 = .ok params ∧ params.outerChallenge ≠ 0 ∧
      innerSign suite (quorumNonces j) ⟨i, innerShareOf i⟩ 5 outerPackage.message
          (quorumRequest [1, 2] 2)
        = .ok ⟨j, innerHiding j + params.outerBinding * innerBinding j
          + params.outerLambda * params.outerChallenge * lagrangeCoeff [1, 2] i
            * innerShareOf i⟩ := by
  obtain ⟨rho, c, hcontext, -, hc⟩ := exists_outerContext_outerPackage
  obtain ⟨params, hparams, -, rfl⟩ := exists_innerParams_outerPackage hcontext
  have hrequest := honestRound_quorumRequest.answerable ⟨by decide, by decide, by decide⟩
    (by decide)
  have hhonest := honestRound_quorumRequest.honestHolder (by decide) hj
  exact ⟨params, hparams, hc, (innerSign_eq_ok_iff (fromU32_injective Residue)).mpr ⟨rfl, hrequest,
    rfl, hhonest.commitmentOf_eq, hi, params, hparams, rfl⟩⟩

/-- The holder 1, with its own share, signs what the aggregator accepts. -/
theorem innerSign_acceptable_own : ∃ params sig,
    innerSign suite (quorumNonces 1) ⟨1, innerShareOf 1⟩ 5 outerPackage.message
      (quorumRequest [1, 2] 2) = .ok sig ∧
    Acceptable (quorumRequest [1, 2] 2) ⟨1, innerShareOf 1⟩ params sig := by
  obtain ⟨_, -, -, hsign⟩ := exists_innerSign_quorum (i := 1) (j := 1) (by decide) (by decide)
  obtain ⟨params, -, hiff⟩ := innerSign_acceptable_iff hsign
  exact ⟨params, _, hsign, hiff.mpr (.inl rfl)⟩

/-- The coefficient of the holder 2 times its share, and the same for the holder 1. -/
lemma lagrangeCoeff_mul_innerShareOf :
    (lagrangeCoeff [1, 2] 2 * innerShareOf 2 : Residue)
      ≠ lagrangeCoeff [1, 2] 1 * innerShareOf 1 := by
  rw [lagrangeCoeff_pair.1, lagrangeCoeff_pair.2]
  decide

/-- With the nonces of the holder 1 and the key share of the holder 2 the call succeeds, and
the signature share fails against the public share of the holder it names. -/
theorem mixed_share_rejected : ∃ params sig,
    innerParamsFromZf suite outerPackage 5 1 = .ok params ∧
    innerSign suite (quorumNonces 1) ⟨2, innerShareOf 2⟩ 5 outerPackage.message
      (quorumRequest [1, 2] 2) = .ok sig ∧
    sig.holderIndex = 1 ∧
    verifyInnerShare sig (quorumNonces 1).commitments (innerShareOf 1 • (generator : Residue))
      params (lagrangeCoeff [1, 2] 1) = false ∧
    ¬Acceptable (quorumRequest [1, 2] 2) ⟨2, innerShareOf 2⟩ params sig := by
  obtain ⟨params, hparams, hc, hsign⟩ := exists_innerSign_quorum (i := 2) (j := 1)
    (by decide) (by decide)
  have hinj := fromU32_injective Residue
  have hlambda := outerLambda_ne_zero hinj hparams
  have hrequest := honestRound_quorumRequest.answerable ⟨by decide, by decide, by decide⟩
    (by decide)
  have hhonest := honestRound_quorumRequest.honestHolder (by decide) (k := 1) (by decide)
  refine ⟨params, _, hparams, hsign, rfl, ?_, fun hacceptable => ?_⟩
  · rw [Bool.eq_false_iff]
    intro hverify
    have hterm := (verifyInnerShare_response_iff (quorumNonces 1) _ _ _ _).mp hverify
    rw [smul_smul] at hterm
    have hmul := smul_generator_injective hterm
    rw [mul_assoc, mul_assoc (params.outerLambda * params.outerChallenge)] at hmul
    exact lagrangeCoeff_mul_innerShareOf (mul_left_cancel₀ (mul_ne_zero hlambda hc) hmul)
  · have hmem : (2 : UInt32) ∈ [1, 2] := by decide
    have hiff := @acceptable_iff _ _ _ _ _ params _ _ hrequest (quorumNonces 1)
      ⟨2, innerShareOf 2⟩ hhonest.commitmentOf_eq hmem hlambda
    rcases hiff.mp hacceptable with h | h
    · exact absurd h (by decide)
    · exact hc h.2

end Quorum

end Frostito
