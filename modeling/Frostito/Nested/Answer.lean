import Frostito.Nested.Flat

/-!
# Which commitment an accepted aggregate answers

The package carries the sum of all commitments that were revealed, and the shares answer the
commitments of the quorum.  Signing and aggregating both require the quorum to be among the
holders that revealed; neither requires the converse.  So an accepted aggregate answers the
package's entry exactly when what was revealed outside the quorum contributes nothing.
-/

namespace Frostito

section Answer

variable {S P : Type} [CurveScalar S] [CurvePoint P S]

/-- The revealed commitments of holders outside the quorum. -/
def NestedSigningRequest.outsideQuorum (request : NestedSigningRequest P S) :
    List (InnerCommitments P) :=
  request.innerCommitments.filter fun c => c.holderIndex ∉ request.activeIndices

variable {request : NestedSigningRequest P S} {params : InnerSigningParams S}

/-- What the quorum contributes and what was revealed outside of it make up what was
revealed. -/
lemma sum_nonceTerm (hnd : (request.innerCommitments.map InnerCommitments.holderIndex).Nodup)
    (hactive : request.activeIndices.Nodup)
    (hrevealed : ∀ k ∈ request.activeIndices,
      k ∈ request.innerCommitments.map InnerCommitments.holderIndex) :
    (request.activeIndices.map fun k =>
        ((commitmentOf request.innerCommitments k).map (nonceTerm params)).getD 0).sum
      + (request.outsideQuorum.map (nonceTerm params)).sum
      = (request.innerCommitments.map (nonceTerm params)).sum := by
  have hsplit := List.sum_map_filter_add_sum_map_filter_not
    (fun c => c.holderIndex ∈ request.activeIndices) (nonceTerm params) request.innerCommitments
  -- the revealed commitments of the quorum are found by their holders
  have hperm : ((request.innerCommitments.filter fun c =>
      c.holderIndex ∈ request.activeIndices).map InnerCommitments.holderIndex).Perm
      request.activeIndices := by
    refine (List.perm_ext_iff_of_nodup ?_ hactive).mpr fun k => ⟨fun hk => ?_, fun hk => ?_⟩
    · exact hnd.sublist ((List.filter_sublist).map _)
    · obtain ⟨c, hc, rfl⟩ := List.mem_map.mp hk
      simpa using (List.mem_filter.mp hc).2
    · obtain ⟨c, hc, rfl⟩ := List.mem_map.mp (hrevealed k hk)
      exact List.mem_map_of_mem (List.mem_filter.mpr ⟨hc, by simpa using hk⟩)
  rw [← hsplit, ← (hperm.map _).sum_eq, List.map_map]
  congr 1
  refine congrArg List.sum (List.map_congr_left fun c hc => ?_)
  rw [Function.comp_apply, commitmentOf_eq_some_of_mem hnd (List.mem_filter.mp hc).1]
  rfl

/-- The aggregate answers the commitments that the package carries for the nested position:
`z·G = D + ρ·E + (λ·c)·Σ μ_k·P_k`. -/
def AnswersEntry (request : NestedSigningRequest P S) (publicShares : List (UInt32 × P))
    (params : InnerSigningParams S) (z : S) : Prop :=
  ∃ entry, nestedEntry request.package request.nestedIndex = some entry ∧
    z • generator = entry.hidingCommitment + params.outerBinding • entry.bindingCommitment
      + (params.outerLambda * params.outerChallenge) • (request.activeIndices.map fun k =>
        (lagrangeCoeff request.activeIndices k : S) • publicShareOf publicShares k).sum

variable [Sha2]

/-- The package's entry is what was revealed, in a request that somebody answers. -/
lemma Answerable.entry_eq (h : Answerable request) (params : InnerSigningParams S) :
    ∃ entry, nestedEntry request.package request.nestedIndex = some entry ∧
      (request.innerCommitments.map InnerCommitments.holderIndex).Nodup ∧
      entry.hidingCommitment + params.outerBinding • entry.bindingCommitment
        = (request.innerCommitments.map (nonceTerm params)).sum := by
  obtain ⟨entry, hentry, hpair⟩ := verifyNestedCommitment_eq_ok_iff.mp h.nested
  obtain ⟨-, -, hnd, hsum⟩ := aggregateInnerCommitmentPair_eq_ok_iff.mp hpair
  obtain ⟨hhiding, hbinding⟩ := Prod.mk.inj hsum
  refine ⟨entry, hentry, hnd, ?_⟩
  rw [hhiding, hbinding, List.smul_sum, List.map_map, ← List.sum_map_add]
  rfl

/-- An aggregate over an answerable request differs from an answer to the entry by what was
revealed outside the quorum. -/
lemma Answerable.answersEntry_iff (h : Answerable request)
    (hinj : Function.Injective (fromU32 : UInt32 → S)) {sigs : List (InnerSignatureShare S)}
    {publicShares : List (UInt32 × P)} {z : S}
    (haggregate : aggregateInnerSharesVerified sigs request.innerCommitments publicShares params
      request.activeIndices = .ok z) :
    AnswersEntry request publicShares params z ↔
      (request.outsideQuorum.map (nonceTerm params)).sum = 0 := by
  obtain ⟨entry, hentry, hnd, hsum⟩ := h.entry_eq params
  have hanswer := smul_aggregate hinj haggregate
  rw [← sum_nonceTerm hnd h.valid.nodup h.revealed] at hsum
  constructor
  · rintro ⟨entry', hentry', heq⟩
    obtain rfl : entry = entry' := Option.some.inj (hentry.symm.trans hentry')
    rwa [hanswer, hsum, add_left_inj, left_eq_add] at heq
  · intro hzero
    exact ⟨entry, hentry, by rw [hanswer, hsum, hzero, add_zero]⟩

/-- A run on a request: every holder of the quorum signs, with nonces and a share of its own
index, and the aggregator accepts the shares under the parameters of the package. -/
structure AcceptedRun (suite : Ciphersuite P S) (request : NestedSigningRequest P S)
    (publicShares : List (UInt32 × P)) (params : InnerSigningParams S)
    (sig : UInt32 → InnerSignatureShare S) (z : S) : Prop where
  signed : ∀ k ∈ request.activeIndices, ∃ nonces share groupPubkey approvedMessage,
    nonces.holderIndex = k ∧ share.index = k ∧
      innerSign suite nonces share groupPubkey approvedMessage request = .ok (sig k)
  context : ∃ verifyingKey, innerParamsFromZf suite request.package verifyingKey
    request.nestedIndex = .ok params
  aggregated : ∃ sigs : List (InnerSignatureShare S),
    sigs.Perm (request.activeIndices.map sig) ∧
      aggregateInnerSharesVerified sigs request.innerCommitments publicShares params
        request.activeIndices = .ok z

/-- The quorum of an accepted run is not empty, and whoever is in it checked the request. -/
lemma AcceptedRun.answerable (hinj : Function.Injective (fromU32 : UInt32 → S))
    {suite : Ciphersuite P S} {publicShares : List (UInt32 × P)}
    {sig : UInt32 → InnerSignatureShare S} {z : S}
    (h : AcceptedRun suite request publicShares params sig z) : Answerable request := by
  obtain ⟨sigs, -, haggregate⟩ := h.aggregated
  obtain ⟨hvalid, -⟩ := (aggregateInnerSharesVerified_eq_ok_iff hinj).mp haggregate
  obtain ⟨k, hk⟩ := List.exists_mem_of_ne_nil _ hvalid.ne_nil
  obtain ⟨nonces, share, groupPubkey, message, -, -, hsign⟩ := h.signed k hk
  exact ((innerSign_eq_ok_iff hinj).mp hsign).2.1

/-- **An accepted aggregate answers the package's entry exactly when the commitments revealed
outside the quorum cancel.** -/
theorem answersEntry_iff_of_acceptedRun [PrimeOrder P] {suite : Ciphersuite P S}
    {publicShares : List (UInt32 × P)} {sig : UInt32 → InnerSignatureShare S} {z : S}
    (h : AcceptedRun suite request publicShares params sig z) :
    AnswersEntry request publicShares params z ↔
      (request.outsideQuorum.map (nonceTerm params)).sum = 0 := by
  have hinj := fromU32_injective P
  obtain ⟨sigs, -, haggregate⟩ := h.aggregated
  exact (h.answerable hinj).answersEntry_iff hinj haggregate

end Answer

/-! ### A holder that reveals and does not sign -/

section Quorum

open Reference

/-- A quorum among the holders 1 and 2, who both revealed, has an accepted run. -/
lemma exists_acceptedRun (active : List UInt32) (innerThreshold : UInt32)
    (hvalid : ValidIndices active) (hsub : ∀ k ∈ active, k ∈ [1, 2])
    (henough : innerThreshold.toNat ≤ active.length) {rho c : Residue}
    (hcontext : outerContext suite outerPackage 5 1 = some (rho, c)) :
    ∃ params sig z, params.outerBinding = rho ∧
      AcceptedRun suite (quorumRequest active innerThreshold)
        (active.map fun k => (k, innerShareOf k • (generator : Residue))) params sig z := by
  have hinj := fromU32_injective Residue
  obtain ⟨params, hparams, hrho, -⟩ := exists_innerParams_outerPackage hcontext
  have hhonest : ∀ k ∈ active,
      HonestHolder (quorumRequest active innerThreshold) (quorumNonces k) k := fun k hk =>
    let h := honestRound_quorumRequest.honestHolder (by decide) (hsub k hk)
    ⟨h.holderIndex_eq, h.sessionId_eq, h.commitmentOf_eq⟩
  have hrequest : Answerable (quorumRequest active innerThreshold) :=
    ⟨henough, hvalid, fun k hk => hsub k hk,
      (honestRound_quorumRequest.answerable ⟨by decide, by decide, by decide⟩ (by decide)).nested⟩
  have haggregate := @aggregate_of_honest _ _ _ _ (quorumRequest active innerThreshold) params
    quorumNonces innerShareOf hinj hvalid hhonest _
    (fun _ hk => lookup_map_self hvalid.nodup _ hk) _ (.refl _)
  refine ⟨params, fun k => ⟨k, innerResponse params active (innerHiding k) (innerBinding k)
    (innerShareOf k) k⟩, (active.map fun k => innerResponse params active (innerHiding k)
      (innerBinding k) (innerShareOf k) k).sum,
    hrho, fun k hk => ?_, ⟨5, hparams⟩, ⟨_, .refl _, ?_⟩⟩
  · exact ⟨quorumNonces k, ⟨k, innerShareOf k⟩, 5, outerPackage.message, rfl, rfl,
      innerSign_of_honest hinj hrequest hparams hk (hhonest k hk)⟩
  · exact haggregate

/-- When the holders that revealed sign, the aggregate answers the entry. -/
theorem answersEntry_full_quorum :
    ∃ params sig z, AcceptedRun suite (quorumRequest [1, 2] 2)
        ([1, 2].map fun k => (k, innerShareOf k • (generator : Residue))) params sig z ∧
      AnswersEntry (quorumRequest [1, 2] 2)
        ([1, 2].map fun k => (k, innerShareOf k • (generator : Residue))) params z := by
  obtain ⟨rho, c, hcontext, -⟩ := exists_outerContext_outerPackage
  obtain ⟨params, sig, z, -, hrun⟩ := exists_acceptedRun [1, 2] 2
    ⟨by decide, by decide, by decide⟩ (fun _ hk => hk) (by decide) hcontext
  exact ⟨params, sig, z, hrun, (answersEntry_iff_of_acceptedRun hrun).mpr rfl⟩

/-- The holders 1 and 2 reveal, and the holder 1 signs alone, under the threshold 1: the
aggregate is accepted and does not answer the entry. -/
theorem partial_quorum_accepted :
    ∃ params sig z, AcceptedRun suite (quorumRequest [1] 1)
        ([1].map fun k => (k, innerShareOf k • (generator : Residue))) params sig z ∧
      ¬AnswersEntry (quorumRequest [1] 1)
        ([1].map fun k => (k, innerShareOf k • (generator : Residue))) params z := by
  obtain ⟨rho, c, hcontext, hne, -⟩ := exists_outerContext_outerPackage
  obtain ⟨params, sig, z, hrho, hrun⟩ := exists_acceptedRun [1] 1
    ⟨by decide, by decide, by decide⟩ (by simp) (by decide) hcontext
  refine ⟨params, sig, z, hrun, fun hanswers => ?_⟩
  have hinj := fromU32_injective Residue
  obtain ⟨sigs, -, haggregate⟩ := hrun.aggregated
  have hzero := ((hrun.answerable hinj).answersEntry_iff hinj haggregate).mp hanswers
  have hterm : (((quorumRequest [1] 1).outsideQuorum.map (nonceTerm params)).sum : Residue)
      = 10 + params.outerBinding * 20 := by
    have hout : (quorumRequest [1] 1).outsideQuorum = [(quorumNonces 2).commitments] := rfl
    rw [hout, List.map_singleton, List.sum_singleton]
    rfl
  exact hne (hrho ▸ hterm.symm.trans hzero)

end Quorum

end Frostito
