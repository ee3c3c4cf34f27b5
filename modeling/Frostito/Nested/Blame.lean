import Frostito.Nested.Aggregate

/-!
# Who is blamed for a failed aggregate

The aggregate of the inner shares succeeds exactly when every member of the quorum has one
share and every share passes its check.  Otherwise the error names the holders at fault, all
of them and nobody else: members without exactly one share, outsiders with one, and holders
of a share that cannot be checked or does not pass.
-/

namespace Frostito

section Blame

variable {S P : Type} [CurveScalar S] [CurvePoint P S]

/-- A share passes `verify_inner_share` against the first commitment and the first public
share of its holder, and the Lagrange coefficient at the holder's position. -/
def SharePasses (commitments : List (InnerCommitments P)) (publicShares : List (UInt32 × P))
    (params : InnerSigningParams S) (activeIndices : List UInt32)
    (sig : InnerSignatureShare S) : Prop :=
  ∃ lagrange pos commitment publicShare mu,
    computeLagrangeCoefficients activeIndices = .ok lagrange ∧
    position activeIndices sig.holderIndex = some pos ∧ lagrange[pos]? = some mu ∧
    commitmentOf commitments sig.holderIndex = some commitment ∧
    lookup publicShares sig.holderIndex = some publicShare ∧
    verifyInnerShare sig commitment publicShare params mu = true

/-- The holders an aggregate has to blame. -/
def AtFault (commitments : List (InnerCommitments P)) (publicShares : List (UInt32 × P))
    (params : InnerSigningParams S) (activeIndices : List UInt32)
    (sigs : List (InnerSignatureShare S)) (k : UInt32) : Prop :=
  (k ∈ activeIndices ∧ (holders sigs).count k ≠ 1) ∨
  (k ∉ activeIndices ∧ k ∈ holders sigs) ∨
  ∃ sig ∈ sigs, sig.holderIndex = k ∧
    ¬SharePasses commitments publicShares params activeIndices sig

variable {commitments : List (InnerCommitments P)} {publicShares : List (UInt32 × P)}
  {params : InnerSigningParams S} {activeIndices : List UInt32}

/-- Over a valid quorum a share passes exactly when it is accepted. -/
lemma sharePasses_iff (hinj : Function.Injective (fromU32 : UInt32 → S))
    (hvalid : ValidIndices activeIndices) {sig : InnerSignatureShare S} :
    SharePasses commitments publicShares params activeIndices sig ↔
      Accepted commitments publicShares params activeIndices sig := by
  have hcoefficient := fun (commitment : InnerCommitments P) (publicShare : P) =>
    exists_coefficient_at_iff hinj hvalid (k := sig.holderIndex)
      (Q := fun mu => verifyInnerShare sig commitment publicShare params mu = true)
  constructor
  · rintro ⟨lagrange, pos, commitment, publicShare, mu, hrun, hpos, hmu, hcommitment, hpublic,
      hverify⟩
    obtain ⟨hmem, hverify⟩ := (hcoefficient commitment publicShare).mp
      ⟨lagrange, pos, mu, hrun, hpos, hmu, hverify⟩
    exact ⟨hmem, commitment, publicShare, hcommitment, hpublic, of_decide_eq_true hverify⟩
  · rintro ⟨hmem, commitment, publicShare, hcommitment, hpublic, heq⟩
    obtain ⟨lagrange, pos, mu, hrun, hpos, hmu, hverify⟩ :=
      (hcoefficient commitment publicShare).mpr ⟨hmem, decide_eq_true heq⟩
    exact ⟨lagrange, pos, commitment, publicShare, mu, hrun, hpos, hmu, hcommitment, hpublic,
      hverify⟩

/-- The equation that an accepted aggregate satisfies, hiding and binding terms apart. -/
lemma smul_aggregate_split (hinj : Function.Injective (fromU32 : UInt32 → S))
    {sigs : List (InnerSignatureShare S)} {z : S}
    (h : aggregateInnerSharesVerified sigs commitments publicShares params activeIndices = .ok z) :
    ∃ d e publicShare : UInt32 → P,
      (∀ k ∈ activeIndices, ∃ c, commitmentOf commitments k = some c ∧
        d k = c.hidingCommitment ∧ e k = c.bindingCommitment ∧
        lookup publicShares k = some (publicShare k)) ∧
      z • (generator : P)
        = (activeIndices.map d).sum + params.outerBinding • (activeIndices.map e).sum
          + (params.outerLambda * params.outerChallenge) •
            (activeIndices.map fun k =>
              (lagrangeCoeff activeIndices k : S) • publicShare k).sum := by
  let d k := ((commitmentOf commitments k).map InnerCommitments.hidingCommitment).getD 0
  let e k := ((commitmentOf commitments k).map InnerCommitments.bindingCommitment).getD 0
  refine ⟨d, e, publicShareOf publicShares, fun k hk => ?_, ?_⟩
  · obtain ⟨c, p, hc, hp⟩ := exists_commitment_of_aggregate hinj h hk
    exact ⟨c, hc, by simp [d, hc], by simp [e, hc], by simp [publicShareOf, hp]⟩
  · have hterms : ∀ k ∈ activeIndices,
        ((commitmentOf commitments k).map (nonceTerm params)).getD 0
          = d k + params.outerBinding • e k := by
      intro k hk
      obtain ⟨c, -, hc, -⟩ := exists_commitment_of_aggregate hinj h hk
      simp [d, e, hc, nonceTerm]
    have hbinding : params.outerBinding • (activeIndices.map e).sum
        = (activeIndices.map fun k => params.outerBinding • e k).sum := by
      rw [List.smul_sum, List.map_map]
      rfl
    rw [smul_aggregate hinj h, List.map_congr_left hterms, List.sum_map_add, hbinding]

/-- **Exact blame in the inner aggregate.** -/
theorem aggregate_blames_exactly [PrimeOrder P] (hvalid : ValidIndices activeIndices)
    (sigs : List (InnerSignatureShare S)) (commitments : List (InnerCommitments P))
    (publicShares : List (UInt32 × P)) (params : InnerSigningParams S) :
    (∀ z, aggregateInnerSharesVerified sigs commitments publicShares params activeIndices = .ok z ↔
      (holders sigs).Perm activeIndices ∧
      (∀ sig ∈ sigs, SharePasses commitments publicShares params activeIndices sig) ∧
      z = (sigs.map InnerSignatureShare.response).sum) ∧
    (∀ z, aggregateInnerSharesVerified sigs commitments publicShares params activeIndices = .ok z →
      ∃ (mus : List S) (d e publicShare : UInt32 → P),
        computeLagrangeCoefficients activeIndices = .ok mus ∧
        (∀ k ∈ activeIndices, ∃ c, commitmentOf commitments k = some c ∧
          d k = c.hidingCommitment ∧ e k = c.bindingCommitment ∧
          lookup publicShares k = some (publicShare k)) ∧
        z • (generator : P) = (activeIndices.map d).sum
          + params.outerBinding • (activeIndices.map e).sum
          + (params.outerLambda * params.outerChallenge) •
            ((activeIndices.zip mus).map fun q => q.2 • publicShare q.1).sum) ∧
    ((∃ z, aggregateInnerSharesVerified sigs commitments publicShares params activeIndices
        = .ok z) ∨
      ∃ named, aggregateInnerSharesVerified sigs commitments publicShares params activeIndices
          = .err named ∧
        named.Pairwise (· < ·) ∧
        ∀ k, k ∈ named ↔ AtFault commitments publicShares params activeIndices sigs k) := by
  have hinj := fromU32_injective P
  have hpasses : ∀ sig, SharePasses commitments publicShares params activeIndices sig ↔
      Accepted commitments publicShares params activeIndices sig :=
    fun sig => sharePasses_iff hinj hvalid
  refine ⟨fun z => ?_, fun z hz => ?_, ?_⟩
  · rw [aggregateInnerSharesVerified_eq_ok_iff hinj, and_iff_right hvalid]
    simp only [hpasses]
    rfl
  · obtain ⟨d, e, publicShare, hlookup, hsum⟩ := smul_aggregate_split hinj hz
    refine ⟨_, d, e, publicShare, computeLagrangeCoefficients_eq hinj hvalid, hlookup, ?_⟩
    rw [hsum, zip_map_self, List.map_map]
    rfl
  · obtain ⟨bad, z, hrun, hnodup, hmem, -⟩ :=
      aggregateInnerSharesVerified_eq commitments publicShares params hinj hvalid sigs
    by_cases hbad : bad = []
    · exact .inl ⟨z, by rw [hrun, if_pos hbad]⟩
    · refine .inr ⟨_, by rw [hrun, if_neg hbad], ?_, fun k => ?_⟩
      · have hsorted := List.pairwise_insertionSort (· ≤ ·) bad
        have hnd := (List.perm_insertionSort (· ≤ ·) bad).nodup_iff.mpr hnodup
        exact (hsorted.and hnd).imp fun hab => UInt32.lt_of_le_of_ne hab.1 hab.2
      · rw [(List.perm_insertionSort (· ≤ ·) bad).mem_iff, hmem, mem_coverage, AtFault, or_assoc]
        simp only [hpasses]

end Blame

section Outsider

open Reference

/-- The parameters of some round. -/
def someParams : InnerSigningParams Residue :=
  ⟨((2 : ℕ) : Residue), ((3 : ℕ) : Residue), ((5 : ℕ) : Residue)⟩

lemma validIndices_pair : ValidIndices [1, 2] :=
  ⟨List.cons_ne_nil _ _, by decide, by decide⟩

/-- A share of an outsider alone: the outsider and both members are named. -/
theorem aggregate_blames_outsider : ∃ named,
    aggregateInnerSharesVerified (P := Residue) [⟨7, ((4 : ℕ) : Residue)⟩] [] [] someParams [1, 2]
      = .err named ∧ 1 ∈ named ∧ 2 ∈ named ∧ 7 ∈ named := by
  obtain ⟨hok, -, ⟨z, hz⟩ | ⟨named, hrun, -, hnamed⟩⟩ := aggregate_blames_exactly (P := Residue)
    validIndices_pair [⟨7, ((4 : ℕ) : Residue)⟩] [] [] someParams
  · have hlen := ((hok z).mp hz).1.length_eq
    exact absurd hlen (by decide)
  · exact ⟨named, hrun, (hnamed 1).mpr (.inl ⟨by decide, by decide⟩),
      (hnamed 2).mpr (.inl ⟨by decide, by decide⟩),
      (hnamed 7).mpr (.inr (.inl ⟨by decide, by decide⟩))⟩

end Outsider

end Frostito
