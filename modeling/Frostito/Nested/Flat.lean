import Frostito.Lib.Threshold
import Frostito.Nested.Aggregate
import Frostito.Reference.Suite

/-!
# Nested signing equals flat signing

Holders that follow the protocol answer a consistent request, and their answers aggregate.
Their nonces and the interpolation of their shares add up to the nonces and the key of a
single signer at the nested position, so that the aggregate is the share that signer would
have computed.
-/

namespace Frostito

section Flat

variable {S P : Type} [CurveScalar S] [CurvePoint P S] [Sha2]

/-! ### Holders that follow the protocol -/

/-- The response of a holder: `d_k + ρ·e_k + (λ·c·μ_k)·σ_k`. -/
def innerResponse (params : InnerSigningParams S) (activeIndices : List UInt32) (d e sigma : S)
    (k : UInt32) : S :=
  d + params.outerBinding * e
    + params.outerLambda * params.outerChallenge * lagrangeCoeff activeIndices k * sigma

variable {suite : Ciphersuite P S} {request : NestedSigningRequest P S} {groupPubkey : P}
  {params : InnerSigningParams S} {nonces : UInt32 → InnerNonces S} {sigma : UInt32 → S}

/-- The holder's nonces are of this round, and it revealed its commitments to them. -/
structure HonestHolder (request : NestedSigningRequest P S) (nonces : InnerNonces S)
    (k : UInt32) : Prop where
  holderIndex_eq : nonces.holderIndex = k
  sessionId_eq : nonces.sessionId = request.sessionId
  commitmentOf_eq : commitmentOf request.innerCommitments k = some nonces.commitments

/-- An honest holder of the quorum signs. -/
lemma innerSign_of_honest (hinj : Function.Injective (fromU32 : UInt32 → S))
    (hrequest : Answerable request)
    (hparams : innerParamsFromZf suite request.package groupPubkey request.nestedIndex
      = .ok params) {k : UInt32} (hk : k ∈ request.activeIndices)
    (hhonest : HonestHolder request (nonces k) k) :
    innerSign suite (nonces k) ⟨k, sigma k⟩ groupPubkey request.package.message request
      = .ok ⟨k, innerResponse params request.activeIndices (nonces k).hidingNonce
        (nonces k).bindingNonce (sigma k) k⟩ := by
  refine (innerSign_eq_ok_iff hinj).mpr ⟨rfl, hrequest, hhonest.sessionId_eq, ?_, hk, params,
    hparams, ?_⟩
  · rw [hhonest.holderIndex_eq, hhonest.commitmentOf_eq]
  · rw [hhonest.holderIndex_eq, innerResponse]

omit [Sha2] in
/-- The responses of an honest quorum aggregate, in whatever order they arrive. -/
lemma aggregate_of_honest (hinj : Function.Injective (fromU32 : UInt32 → S))
    (hvalid : ValidIndices request.activeIndices)
    (hhonest : ∀ k ∈ request.activeIndices, HonestHolder request (nonces k) k)
    {publicShares : List (UInt32 × P)}
    (hpublic : ∀ k ∈ request.activeIndices,
      lookup publicShares k = some (sigma k • (generator : P)))
    {sigs : List (InnerSignatureShare S)}
    (hsigs : sigs.Perm (request.activeIndices.map fun k =>
      ⟨k, innerResponse params request.activeIndices (nonces k).hidingNonce
        (nonces k).bindingNonce (sigma k) k⟩)) :
    aggregateInnerSharesVerified sigs request.innerCommitments publicShares params
        request.activeIndices
      = .ok (request.activeIndices.map fun k => innerResponse params request.activeIndices
          (nonces k).hidingNonce (nonces k).bindingNonce (sigma k) k).sum := by
  refine (aggregateInnerSharesVerified_eq_ok_iff hinj).mpr ⟨hvalid, ?_, fun sig hsig => ?_, ?_⟩
  · have hholders := hsigs.map InnerSignatureShare.holderIndex
    rw [List.map_map] at hholders
    exact hholders.trans (List.Perm.of_eq (List.map_id' _))
  · obtain ⟨k, hk, rfl⟩ := List.mem_map.mp (hsigs.mem_iff.mp hsig)
    refine ⟨hk, _, _, (hhonest k hk).commitmentOf_eq, hpublic k hk, ?_⟩
    simp only [innerResponse, InnerNonces.commitments, add_smul, mul_smul]
  · rw [(hsigs.map InnerSignatureShare.response).sum_eq, List.map_map]
    rfl

/-- The nonces that holder `k` draws for a round. -/
def roundNonces (sessionId : Vector UInt8 32) (d e : UInt32 → S) (k : UInt32) : InnerNonces S :=
  ⟨k, sessionId, d k, e k⟩

/-- An honest round: exactly the holders of the quorum precommit, reveal and sign, each list in
an order of its own, and the package carries the sum of what they revealed. -/
structure HonestRound (quorum : List UInt32) (d e : UInt32 → S)
    (request : NestedSigningRequest P S) : Prop where
  precommitted : ∃ order : List UInt32, order.Perm quorum ∧
    request.innerPrecommits = order.map fun k =>
      (k, innerPrecommit ((roundNonces request.sessionId d e k).commitments :
        InnerCommitments P))
  revealed : ∃ order : List UInt32, order.Perm quorum ∧
    request.innerCommitments = order.map fun k => (roundNonces request.sessionId d e k).commitments
  active : request.activeIndices.Perm quorum
  entry : nestedEntry request.package request.nestedIndex
    = some ⟨(quorum.map fun k => d k • (generator : P)).sum,
        (quorum.map fun k => e k • (generator : P)).sum⟩

namespace HonestRound

variable {quorum : List UInt32} {d e : UInt32 → S}

/-- Exactly the holders of the quorum revealed. -/
lemma perm_holders (h : HonestRound quorum d e request) :
    (request.innerCommitments.map InnerCommitments.holderIndex).Perm quorum := by
  obtain ⟨order, hperm, hrevealed⟩ := h.revealed
  rw [hrevealed, List.map_map]
  exact (List.Perm.of_eq (List.map_id' order)).trans hperm

/-- Exactly the holders of the quorum precommitted. -/
lemma perm_precommitted (h : HonestRound quorum d e request) :
    (request.innerPrecommits.map Prod.fst).Perm quorum := by
  obtain ⟨order, hperm, hprecommits⟩ := h.precommitted
  rw [hprecommits, List.map_map]
  exact (List.Perm.of_eq (List.map_id' order)).trans hperm

/-- What was revealed is what the holders of the quorum drew. -/
lemma mem_innerCommitments (h : HonestRound quorum d e request) {c : InnerCommitments P} :
    c ∈ request.innerCommitments ↔
      ∃ k ∈ quorum, (roundNonces request.sessionId d e k).commitments = c := by
  obtain ⟨order, hperm, hrevealed⟩ := h.revealed
  rw [hrevealed, List.mem_map]
  simp only [hperm.mem_iff]

/-- Every holder of the quorum precommitted to what it revealed. -/
lemma lookup_innerPrecommits (h : HonestRound quorum d e request) (hnd : quorum.Nodup)
    {k : UInt32} (hk : k ∈ quorum) :
    lookup request.innerPrecommits k
      = some (innerPrecommit ((roundNonces request.sessionId d e k).commitments :
          InnerCommitments P)) := by
  have hkeys := h.perm_precommitted.nodup_iff.mpr hnd
  obtain ⟨order, hperm, hprecommits⟩ := h.precommitted
  refine lookup_eq_some_of_mem (p := (k, _)) hkeys ?_
  rw [hprecommits]
  exact List.mem_map_of_mem (hperm.mem_iff.mpr hk)

/-- The commitments that were revealed add up to the entry of the package. -/
lemma sum_innerCommitments (h : HonestRound quorum d e request) :
    (request.innerCommitments.map InnerCommitments.hidingCommitment).sum
        = (quorum.map fun k => d k • (generator : P)).sum ∧
      (request.innerCommitments.map InnerCommitments.bindingCommitment).sum
        = (quorum.map fun k => e k • (generator : P)).sum := by
  obtain ⟨order, hperm, hrevealed⟩ := h.revealed
  rw [hrevealed, List.map_map, List.map_map, ← (hperm.map _).sum_eq, ← (hperm.map _).sum_eq]
  exact ⟨rfl, rfl⟩

/-- Every holder of the quorum revealed. -/
lemma honestHolder (h : HonestRound quorum d e request) (hnd : quorum.Nodup) {k : UInt32}
    (hk : k ∈ quorum) : HonestHolder request (roundNonces request.sessionId d e k) k where
  holderIndex_eq := rfl
  sessionId_eq := rfl
  commitmentOf_eq := commitmentOf_eq_some_of_mem (h.perm_holders.nodup_iff.mpr hnd)
    (h.mem_innerCommitments.mpr ⟨k, hk, rfl⟩)

/-- The revealed commitments of an honest round are the ones its package carries. -/
lemma verifyNestedCommitment_eq (h : HonestRound quorum d e request)
    (hvalid : ValidIndices quorum) :
    verifyNestedCommitment request.package request.nestedIndex request.sessionId
      request.innerPrecommits request.innerCommitments = .ok () := by
  refine verifyNestedCommitment_eq_ok_iff.mpr ⟨_, h.entry,
    aggregateInnerCommitmentPair_eq_ok_iff.mpr ⟨?_, ?_, ?_, ?_⟩⟩
  · rw [Ne, ← List.map_eq_nil_iff (f := InnerCommitments.holderIndex)]
    intro hnil
    exact hvalid.ne_nil (hnil ▸ h.perm_holders).nil_eq.symm
  · intro c hc
    obtain ⟨k, hk, rfl⟩ := h.mem_innerCommitments.mp hc
    exact ⟨fun h0 => hvalid.zero_notMem (h0 ▸ hk), rfl, h.lookup_innerPrecommits hvalid.nodup hk⟩
  · exact h.perm_holders.nodup_iff.mpr hvalid.nodup
  · rw [h.sum_innerCommitments.1, h.sum_innerCommitments.2]

/-- The request of an honest round is answered. -/
lemma answerable (h : HonestRound quorum d e request) (hvalid : ValidIndices quorum)
    (henough : request.innerThreshold.toNat ≤ quorum.length) : Answerable request where
  enough := h.active.length_eq ▸ henough
  valid := hvalid.perm h.active.symm
  revealed _ hk := h.perm_holders.mem_iff.mpr (h.active.mem_iff.mp hk)
  nested := h.verifyNestedCommitment_eq hvalid

end HonestRound

/-! ### The flat signer -/

/-- The share that the outer protocol's `round2::sign` computes for a single signer with the
key `sigma` and the nonces `(d, e)`: `d + ρ·e + λ·c·σ`, with the Lagrange coefficient over
the identifiers of the package. -/
def flatSignatureShare (suite : Ciphersuite P S) (package : SigningPackage P S)
    (verifyingKey : P) (id : Identifier S) (d e sigma : S) : Option S := do
  let factors ← suite.bindingFactorList package verifyingKey []
  let rho ← lookup factors id
  let r ← suite.groupCommitment package factors
  let c ← suite.challenge r verifyingKey package.message
  some (d + rho * e + package.lagrangeCoefficient id.val * c * sigma)

omit [CurvePoint P S] [Sha2] in
/-- It is what a party of the threshold signature responds. -/
lemma flatSignatureShare_eq {package : SigningPackage P S} {id : Identifier S}
    {factors : List (Identifier S × S)} {r : P} {c rho : S}
    (hfactors : suite.bindingFactorList package groupPubkey [] = some factors)
    (hr : suite.groupCommitment package factors = some r)
    (hc : suite.challenge r groupPubkey package.message = some c)
    (hrho : lookup factors id = some rho) (d e sigma : S) :
    flatSignatureShare suite package groupPubkey id d e sigma
      = some (Threshold.response d e sigma rho (package.lagrangeCoefficient id.val) c) := by
  simp only [flatSignatureShare, hfactors, hrho, hr, hc, Option.bind_eq_bind, Option.bind_some,
    Threshold.response]

omit [CurvePoint P S] [Sha2] in
/-- The responses of a quorum add up to the response of a single signer with the sums of the
nonces and the key that the shares interpolate to. -/
lemma sum_innerResponse (quorum : List UInt32) (d e : UInt32 → S) :
    (quorum.map fun k => innerResponse params quorum (d k) (e k) (sigma k) k).sum
      = Threshold.response (quorum.map d).sum (quorum.map e).sum
        (quorum.map fun k => lagrangeCoeff quorum k * sigma k).sum params.outerBinding
        params.outerLambda params.outerChallenge := by
  have hterm : ∀ k, params.outerLambda * params.outerChallenge * lagrangeCoeff quorum k * sigma k
      = params.outerLambda * params.outerChallenge * (lagrangeCoeff quorum k * sigma k) :=
    fun k => mul_assoc _ _ _
  simp only [innerResponse, List.sum_map_add, List.sum_map_mul_left, hterm, Threshold.response]

omit [Sha2] in
/-- An identifier that stands for a small index is the one that the index names. -/
lemma ofIndex_of_isIndex [PrimeOrder P] {package : SigningPackage P S}
    (hids : ∀ id ∈ package.identifiers, ∃ v : UInt32, v.toNat < 2 ^ 16 ∧ id.IsIndex v)
    {id : Identifier S} (hid : id ∈ package.identifiers) {index : UInt32}
    (hindex : id.IsIndex index) : Identifier.ofIndex index = some id := by
  obtain ⟨v, hv, hval⟩ := hids id hid
  obtain rfl : v = index := fromU32_injective P (hval.symm.trans hindex)
  exact Identifier.ofIndex_eq_some_iff.mpr ⟨hv, hval⟩

/-- Whatever the holders of an honest round share, their answers add up to the answer for it. -/
lemma HonestRound.exists_aggregate [PrimeOrder P] {quorum : List UInt32} {d e : UInt32 → S}
    (hround : HonestRound quorum d e request)
    (hsuite : suite.Lawful)
    (hids : ∀ id ∈ request.package.identifiers, ∃ v : UInt32, v.toNat < 2 ^ 16 ∧ id.IsIndex v)
    {id : Identifier S} (hid : id ∈ request.package.identifiers)
    (hposition : id.IsIndex request.nestedIndex) {factors : List (Identifier S × S)}
    (hfactors : suite.bindingFactorList request.package groupPubkey [] = some factors)
    {r : P} (hr : suite.groupCommitment request.package factors = some r)
    {c : S} (hc : suite.challenge r groupPubkey request.package.message = some c) {rho : S}
    (hrho : lookup factors id = some rho) (hvalid : ValidIndices quorum)
    (henough : request.innerThreshold.toNat ≤ quorum.length) (sigma : UInt32 → S) :
    ∃ (params : InnerSigningParams S) (sig : UInt32 → InnerSignatureShare S),
      innerParamsFromZf suite request.package groupPubkey request.nestedIndex = .ok params ∧
      (∀ k ∈ quorum, innerSign suite (roundNonces request.sessionId d e k) ⟨k, sigma k⟩
        groupPubkey request.package.message request = .ok (sig k)) ∧
      ∀ (sigs : List (InnerSignatureShare S)) (publicShares : List (UInt32 × P)),
        sigs.Perm (quorum.map sig) →
        (∀ k ∈ quorum, lookup publicShares k = some (sigma k • (generator : P))) →
        aggregateInnerSharesVerified sigs request.innerCommitments publicShares params
          request.activeIndices
            = .ok (Threshold.response (quorum.map d).sum (quorum.map e).sum
              (quorum.map fun k => lagrangeCoeff quorum k * sigma k).sum rho
              (request.package.lagrangeCoefficient id.val) c) := by
  have hinj := fromU32_injective P
  have hrequest := hround.answerable hvalid henough
  have hindex := ofIndex_of_isIndex hids hid hposition
  have hcontext : outerContext suite request.package groupPubkey request.nestedIndex
      = some (rho, c) := by
    simp only [outerContext, hindex, hfactors, hrho, hsuite.deserialize_serialize, hr, hc,
      Option.bind_eq_bind, Option.bind_some]
  have hparams := innerParamsFromZf_eq_ok_of_isIndex hsuite.toEncodesScalars
    (fun id hid => (hids id hid).imp fun v hv => hv.2) ⟨id, hid, hposition⟩ hcontext
  have hhonest : ∀ k ∈ request.activeIndices,
      HonestHolder request (roundNonces request.sessionId d e k) k := fun k hk =>
    hround.honestHolder hvalid.nodup (hround.active.mem_iff.mp hk)
  refine ⟨_, _, hparams, fun k hk => innerSign_of_honest hinj hrequest hparams
    (hround.active.mem_iff.mpr hk) (hround.honestHolder hvalid.nodup hk), ?_⟩
  intro sigs publicShares hsigs hpublic
  rw [aggregate_of_honest hinj hrequest.valid hhonest
    (fun k hk => hpublic k (hround.active.mem_iff.mp hk))
    (hsigs.trans (hround.active.symm.map _))]
  have hcoeff : (lagrangeCoeff request.activeIndices : UInt32 → S) = lagrangeCoeff quorum :=
    lagrangeCoeff_congr fun k => hround.active.mem_iff
  have hsum : ∀ params : InnerSigningParams S, (request.activeIndices.map fun k =>
      innerResponse params request.activeIndices (d k) (e k) (sigma k) k).sum
      = (quorum.map fun k => innerResponse params quorum (d k) (e k) (sigma k) k).sum := by
    intro params
    simp only [innerResponse, hcoeff]
    exact (hround.active.map _).sum_eq
  have hval : id.val = fromU32 request.nestedIndex := hposition
  rw [hval]
  exact congrArg Outcome.ok ((hsum _).trans (sum_innerResponse quorum d e))

/-- **Nested signing equals flat signing on every honest round.**  The package has share
indices for identifiers and is accepted by `frost-core`; a quorum of at least `t_in` holders
with the shares of a polynomial `g` shorter than `t_in` runs an honest round at the nested
position.  Then every holder signs, the aggregator adds the shares up in whatever order they
come, and what it returns is the share that a single signer with the key `g(0)` and the
nonces `(Σ d_k, Σ e_k)` would compute. -/
theorem nested_eq_flat [PrimeOrder P] (hsuite : suite.Lawful)
    (hids : ∀ id ∈ request.package.identifiers, ∃ v : UInt32, v.toNat < 2 ^ 16 ∧ id.IsIndex v)
    {id : Identifier S} (hid : id ∈ request.package.identifiers)
    (hposition : id.IsIndex request.nestedIndex)
    {factors : List (Identifier S × S)}
    (hfactors : suite.bindingFactorList request.package groupPubkey [] = some factors)
    {r : P} (hr : suite.groupCommitment request.package factors = some r)
    {c : S} (hc : suite.challenge r groupPubkey request.package.message = some c)
    (ht : request.innerThreshold ≠ 0) {quorum : List UInt32} (h0 : 0 ∉ quorum)
    (hnd : quorum.Nodup) (henough : request.innerThreshold.toNat ≤ quorum.length)
    {g : List S} (hdeg : g.length ≤ request.innerThreshold.toNat)
    (hsigma : ∀ k ∈ quorum, sigma k = Horner.horner (fromU32 k : S) g)
    {d e : UInt32 → S} (hround : HonestRound quorum d e request) :
    ∃ (params : InnerSigningParams S) (sig : UInt32 → InnerSignatureShare S) (z : S),
      innerParamsFromZf suite request.package groupPubkey request.nestedIndex = .ok params ∧
      (∀ k ∈ quorum, innerSign suite (roundNonces request.sessionId d e k) ⟨k, sigma k⟩
        groupPubkey request.package.message request = .ok (sig k)) ∧
      (∀ (sigs : List (InnerSignatureShare S)) (publicShares : List (UInt32 × P)),
        sigs.Perm (quorum.map sig) →
        (∀ k ∈ quorum, lookup publicShares k = some (sigma k • (generator : P))) →
        aggregateInnerSharesVerified sigs request.innerCommitments publicShares params
          request.activeIndices = .ok z) ∧
      flatSignatureShare suite request.package groupPubkey id (quorum.map d).sum
        (quorum.map e).sum (Horner.horner (0 : S) g) = some z := by
  have hinj := fromU32_injective P
  have hpos := toNat_ne_zero_iff.mpr ht
  have hvalid : ValidIndices quorum := ⟨List.length_pos_iff.mp (by omega), h0, hnd⟩
  obtain ⟨rho, hrho⟩ := hsuite.exists_bindingFactor hfactors id hid
  obtain ⟨params, sig, hparams, hsign, haggregate⟩ := hround.exists_aggregate hsuite hids hid
    hposition hfactors hr hc hrho hvalid henough sigma
  refine ⟨params, sig, _, hparams, hsign, haggregate, ?_⟩
  -- the shares interpolate to the key of the single signer
  rw [sum_lagrangeCoeff_mul hinj hnd (hdeg.trans henough) hsigma]
  exact flatSignatureShare_eq hfactors hr hc hrho _ _ _

end Flat

/-! ### A round of two holders -/

section Quorum

open Reference

/-- The hiding nonces of the holders 1 and 2. -/
def innerHiding (k : UInt32) : Residue := if k = 1 then (3 : ℕ) else (10 : ℕ)

/-- The binding nonces of the holders 1 and 2. -/
def innerBinding (k : UInt32) : Residue := if k = 1 then (4 : ℕ) else (20 : ℕ)

/-- The nonces of a holder in its round. -/
def quorumNonces : UInt32 → InnerNonces Residue :=
  roundNonces (Vector.replicate 32 0) innerHiding innerBinding

/-- A request at the position 1, in a round in which the holders 1 and 2 revealed. -/
def quorumRequest (activeIndices : List UInt32) (innerThreshold : UInt32) :
    NestedSigningRequest Residue Residue where
  package := outerPackage
  nestedIndex := 1
  sessionId := Vector.replicate 32 0
  innerPrecommits := [1, 2].map fun k =>
    (k, innerPrecommit ((quorumNonces k).commitments : InnerCommitments Residue))
  innerCommitments := [1, 2].map fun k => (quorumNonces k).commitments
  activeIndices := activeIndices
  innerThreshold := innerThreshold

lemma nestedEntry_outerPackage : nestedEntry outerPackage 1 = some ⟨13, 24⟩ := by
  decide

lemma honestRound_quorumRequest :
    HonestRound [1, 2] innerHiding innerBinding (quorumRequest [1, 2] 2) where
  precommitted := ⟨[1, 2], .refl _, rfl⟩
  revealed := ⟨[1, 2], .refl _, rfl⟩
  active := .refl _
  entry := by
    have hhiding : ([1, 2].map fun k => innerHiding k • (generator : Residue)).sum = 13 := by
      decide
    have hbinding : ([1, 2].map fun k => innerBinding k • (generator : Residue)).sum = 24 := by
      decide
    rw [hhiding, hbinding]
    exact nestedEntry_outerPackage

/-- The share of `7 + x` of a holder. -/
def innerShareOf (k : UInt32) : Residue := Horner.horner (fromU32 k : Residue) [7, 1]

/-- `frost-core` accepts the package, the commitments of the holder 2 do not cancel, and the
challenge is not zero. -/
lemma exists_outerContext_outerPackage :
    ∃ rho c, outerContext suite outerPackage 5 1 = some (rho, c) ∧ 10 + rho * 20 ≠ 0 ∧ c ≠ 0 := by
  have hcheck : (outerContext suite outerPackage 5 1).any
      fun context => decide (10 + context.1 * 20 ≠ 0 ∧ context.2 ≠ 0) := by
    decide +kernel
  obtain ⟨⟨rho, c⟩, hcontext, hne⟩ := (Option.any_eq_true _ _).mp hcheck
  exact ⟨rho, c, hcontext, of_decide_eq_true hne⟩

lemma exists_isIndex_outerPackage {id : Identifier Residue}
    (hid : id ∈ outerPackage.identifiers) : ∃ v : UInt32, v.toNat < 2 ^ 16 ∧ id.IsIndex v := by
  have hcases : id = firstIdentifier ∨ id = secondIdentifier := by
    simpa [SigningPackage.identifiers, outerPackage, outerCommitments] using hid
  rcases hcases with rfl | rfl
  · exact ⟨1, by decide, rfl⟩
  · exact ⟨2, by decide, rfl⟩

/-- The outer context of the nested position 1. -/
lemma exists_innerParams_outerPackage {rho c : Residue}
    (hcontext : outerContext suite outerPackage 5 1 = some (rho, c)) :
    ∃ params : InnerSigningParams Residue,
      innerParamsFromZf suite outerPackage 5 1 = .ok params ∧ params.outerBinding = rho ∧
        params.outerChallenge = c := by
  have hnested : ∃ id ∈ outerPackage.identifiers, id.IsIndex 1 :=
    ⟨firstIdentifier, List.mem_cons_self, rfl⟩
  exact ⟨_, innerParamsFromZf_eq_ok_of_isIndex suite_encodesScalars
    (fun id hid => (exists_isIndex_outerPackage hid).imp fun v hv => hv.2) hnested hcontext, rfl,
    rfl⟩

/-- The holders 1 and 2, with shares of `7 + x`, sign for the key `7`. -/
theorem nested_eq_flat_outerPackage :
    ∃ (params : InnerSigningParams Residue) (sig : UInt32 → InnerSignatureShare Residue)
      (z : Residue), innerParamsFromZf suite outerPackage 5 1 = .ok params ∧
      (∀ k ∈ [1, 2], innerSign suite (quorumNonces k) ⟨k, innerShareOf k⟩ 5 outerPackage.message
        (quorumRequest [1, 2] 2) = .ok (sig k)) ∧
      aggregateInnerSharesVerified [sig 1, sig 2] (quorumRequest [1, 2] 2).innerCommitments
        ([1, 2].map fun k => (k, innerShareOf k • (generator : Residue))) params [1, 2] = .ok z ∧
      flatSignatureShare suite outerPackage 5 firstIdentifier 13 24 7 = some z := by
  obtain ⟨rho, c, hcontext, -⟩ := exists_outerContext_outerPackage
  simp only [outerContext, Option.bind_eq_bind, Option.bind_eq_some_iff] at hcontext
  obtain ⟨-, -, factors, hfactors, -, -, -, -, r, hr, c', hc, -⟩ := hcontext
  obtain ⟨params, sig, z, hparams, hsign, haggregate, hflat⟩ :=
    @nested_eq_flat _ _ _ _ _ _ (quorumRequest [1, 2] 2) _ innerShareOf _ suite_lawful
      (fun _ => exists_isIndex_outerPackage) firstIdentifier List.mem_cons_self rfl _ hfactors _ hr
      _ hc (by decide) _ (by decide) (by decide) (by decide) [7, 1] (by decide) (fun k _ => rfl)
      _ _ honestRound_quorumRequest
  have hsums : (([1, 2] : List UInt32).map innerHiding).sum = 13 ∧
      (([1, 2] : List UInt32).map innerBinding).sum = 24 ∧
      Horner.horner (0 : Residue) ([7, 1] : List Residue) = 7 := by
    decide
  rw [hsums.1, hsums.2.1, hsums.2.2] at hflat
  exact ⟨params, sig, z, hparams, hsign,
    haggregate _ _ (.refl _) fun _ hk => lookup_map_self (by decide) _ hk, hflat⟩

end Quorum

end Frostito
