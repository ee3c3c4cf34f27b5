import Frostito.Nested.Commit
import Frostito.Zf

/-!
# Signing at the nested position

A holder of the inner quorum answers a request with its part of the outer response, once the
message is the one it approved, the quorum is large enough and made of holders that revealed,
its own commitment is among the revealed ones, and the package carries their sum.  The parts
are verified one by one and added up.
-/

namespace Frostito

/-- One share of a secret. -/
structure SecretShare (S : Type) where
  index : UInt32
  scalar : S

/-- Everything an inner holder needs about the outer round. -/
structure NestedSigningRequest (P S : Type) [CurveScalar S] where
  package : SigningPackage P S
  /-- The nested position's index in the outer signing set. -/
  nestedIndex : UInt32
  /-- The inner round's id. -/
  sessionId : Vector UInt8 32
  /-- The round-0 precommitments. -/
  innerPrecommits : List (UInt32 × Vector UInt8 32)
  /-- The revealed inner commitment set from round 1. -/
  innerCommitments : List (InnerCommitments P)
  /-- The inner quorum actually signing. -/
  activeIndices : List UInt32
  /-- The inner group's own threshold. -/
  innerThreshold : UInt32

/-- An inner holder's partial signature. -/
structure InnerSignatureShare (S : Type) where
  holderIndex : UInt32
  response : S

/-- The commitment of a holder. -/
def commitmentOf {P : Type} (commitments : List (InnerCommitments P)) (k : UInt32) :
    Option (InnerCommitments P) :=
  commitments.find? fun c => c.holderIndex = k

section Sign

variable {S P : Type} [CurveScalar S] [CurvePoint P S]

/-- The loop over the quorum: no zero, no repetition, nobody without a commitment. -/
def checkQuorum (commitments : List (InnerCommitments P)) (seen : List UInt32) :
    List UInt32 → Outcome Error Unit
  | [] => .ok ()
  | k :: ks => do
    .refuse (k = 0) .invalidIndex
    .refuse (k ∈ seen) (.duplicateIndex k)
    .refuse (k ∉ commitments.map InnerCommitments.holderIndex) (.unknownQuorumMember k)
    checkQuorum commitments (seen ++ [k]) ks

variable [Sha2]

/-- Inner holder's partial signature. -/
def innerSign (suite : Ciphersuite P S) (nonces : InnerNonces S) (share : SecretShare S)
    (localGroupPubkey : P) (approvedMessage : Bytes) (request : NestedSigningRequest P S) :
    Outcome Error (InnerSignatureShare S) := do
  .refuse (request.package.message ≠ approvedMessage) .messageMismatch
  .refuse (request.activeIndices.length < request.innerThreshold.toNat)
    (.insufficientContributions request.activeIndices.length request.innerThreshold.toNat)
  checkQuorum request.innerCommitments [] request.activeIndices
  .refuse (nonces.sessionId ≠ request.sessionId) .sessionMismatch
  let mine ← .okOr (commitmentOf request.innerCommitments nonces.holderIndex)
    .unexpectedCommitment
  .refuse (mine.sessionId ≠ request.sessionId ∨
    mine.hidingCommitment ≠ nonces.hidingNonce • generator ∨
    mine.bindingCommitment ≠ nonces.bindingNonce • generator) .unexpectedCommitment
  verifyNestedCommitment request.package request.nestedIndex request.sessionId
    request.innerPrecommits request.innerCommitments
  let params ← innerParamsFromZf suite request.package localGroupPubkey request.nestedIndex
  let lagrange ← computeLagrangeCoefficients request.activeIndices
  let myPos ← .okOr (position request.activeIndices share.index) .invalidIndex
  let mu ← .expectSome lagrange[myPos]?
  let rhoE := params.outerBinding * nonces.bindingNonce
  let weight := params.outerLambda * params.outerChallenge * mu
  .ok ⟨nonces.holderIndex, nonces.hidingNonce + rhoE + weight * share.scalar⟩

omit [Sha2] in
/-- Verify one inner holder's share: `z_k · G = (D_k + ρ·E_k) + (λ·c·μ_k)·P_k`. -/
def verifyInnerShare (sig : InnerSignatureShare S) (commitment : InnerCommitments P)
    (publicShare : P) (params : InnerSigningParams S) (mu : S) : Bool :=
  let weight := params.outerLambda * params.outerChallenge * mu
  decide (sig.response • (generator : P) =
    commitment.hidingCommitment + params.outerBinding • commitment.bindingCommitment +
      weight • publicShare)

/-! ### What a holder checks -/

omit [CurveScalar S] [CurvePoint P S] [Sha2] in
lemma checkQuorum_eq_ok_iff {commitments : List (InnerCommitments P)}
    {seen active : List UInt32} {u : Unit} :
    checkQuorum commitments seen active = .ok u ↔ 0 ∉ active ∧ active.Nodup ∧
      (∀ k ∈ active, k ∉ seen) ∧
      ∀ k ∈ active, k ∈ commitments.map InnerCommitments.holderIndex := by
  induction active generalizing seen with
  | nil => simp [checkQuorum]
  | cons k ks ih =>
    simp only [checkQuorum, Outcome.bind_eq_ok_iff, Outcome.refuse_eq_ok_iff, ih, not_not,
      List.mem_cons, List.nodup_cons, not_or, forall_eq_or_imp]
    constructor
    · rintro ⟨_, h0, _, hseen, _, hmem, h0s, hnd, hnew, hmems⟩
      refine ⟨⟨Ne.symm h0, h0s⟩, ⟨fun hk => ?_, hnd⟩, ⟨hseen, fun i hi his => ?_⟩, hmem, hmems⟩
      · exact hnew k hk (List.mem_append_right _ (List.mem_singleton_self k))
      · exact hnew i hi (List.mem_append_left _ his)
    · rintro ⟨⟨h0, h0s⟩, ⟨hk, hnd⟩, ⟨hseen, hseens⟩, hmem, hmems⟩
      refine ⟨(), Ne.symm h0, (), hseen, (), hmem, h0s, hnd, fun i hi his => ?_, hmems⟩
      rcases List.mem_append.mp his with his | his
      · exact hseens i hi his
      · exact hk (List.mem_singleton.mp his ▸ hi)

omit [CurveScalar S] [CurvePoint P S] [Sha2] in
lemma commitmentOf_eq_some_of_mem {commitments : List (InnerCommitments P)}
    (hnd : (commitments.map InnerCommitments.holderIndex).Nodup) {c : InnerCommitments P}
    (hc : c ∈ commitments) : commitmentOf commitments c.holderIndex = some c := by
  obtain ⟨c', hc'⟩ := Option.isSome_iff_exists.mp
    (List.find?_isSome.mpr ⟨c, hc, by simp⟩ :
      (commitments.find? fun c' => c'.holderIndex = c.holderIndex).isSome)
  have hkey : c'.holderIndex = c.holderIndex := by simpa using List.find?_some hc'
  rw [commitmentOf, hc', List.inj_on_of_nodup_map hnd (List.mem_of_find?_eq_some hc') hc hkey]

/-- The request a holder answers: it is consistent, and carries the sum of its commitments. -/
structure Answerable (request : NestedSigningRequest P S) : Prop where
  enough : request.innerThreshold.toNat ≤ request.activeIndices.length
  valid : ValidIndices request.activeIndices
  revealed : ∀ k ∈ request.activeIndices,
    k ∈ request.innerCommitments.map InnerCommitments.holderIndex
  nested : verifyNestedCommitment request.package request.nestedIndex request.sessionId
    request.innerPrecommits request.innerCommitments = .ok ()

/-- **When a holder signs, and what.** -/
theorem innerSign_eq_ok_iff (hinj : Function.Injective (fromU32 : UInt32 → S))
    {suite : Ciphersuite P S} {nonces : InnerNonces S} {share : SecretShare S}
    {localGroupPubkey : P} {approvedMessage : Bytes} {request : NestedSigningRequest P S}
    {sig : InnerSignatureShare S} :
    innerSign suite nonces share localGroupPubkey approvedMessage request = .ok sig ↔
      request.package.message = approvedMessage ∧ Answerable request ∧
      nonces.sessionId = request.sessionId ∧
      commitmentOf request.innerCommitments nonces.holderIndex = some nonces.commitments ∧
      share.index ∈ request.activeIndices ∧
      ∃ params, innerParamsFromZf suite request.package localGroupPubkey request.nestedIndex
          = .ok params ∧
        sig = ⟨nonces.holderIndex, nonces.hidingNonce + params.outerBinding * nonces.bindingNonce
          + params.outerLambda * params.outerChallenge
            * lagrangeCoeff request.activeIndices share.index * share.scalar⟩ := by
  simp only [innerSign, Outcome.bind_eq_ok_iff, Outcome.refuse_eq_ok_iff, Outcome.okOr_eq_ok_iff,
    Outcome.expectSome_eq_ok_iff, checkQuorum_eq_ok_iff,
    computeLagrangeCoefficients_eq_ok_iff hinj, not_not, not_lt, not_or, Outcome.ok.injEq]
  constructor
  · rintro ⟨_, hmessage, _, henough, _, ⟨-, -, -, hrevealed⟩, _, hsession, mine, hmine, _,
      ⟨hmsession, hhiding, hbinding⟩, _, hnested, params, hparams, _, ⟨hvalid, rfl⟩, pos, hpos,
      mu, hmu, hsig⟩
    -- the four fields are compared one by one, and together they are the whole commitment
    have hindex : mine.holderIndex = nonces.holderIndex := by simpa using List.find?_some hmine
    have hcommit : mine = nonces.commitments := by
      cases mine
      simp only at hindex hmsession hhiding hbinding
      rw [InnerNonces.commitments, hindex, hmsession, hhiding, hbinding, hsession]
    rw [getElem?_map_position hpos, Option.some.injEq] at hmu
    exact ⟨hmessage, ⟨henough, hvalid, hrevealed, hnested⟩, hsession, hcommit ▸ hmine,
      exists_position_eq_some_iff.mp ⟨pos, hpos⟩, params, hparams, by rw [← hsig, hmu]⟩
  · rintro ⟨hmessage, hrequest, hsession, hmine, hmem, params, hparams, rfl⟩
    obtain ⟨pos, hpos⟩ := exists_position_eq_some_iff.mpr hmem
    refine ⟨(), hmessage, (), hrequest.enough, (), ⟨hrequest.valid.zero_notMem,
      hrequest.valid.nodup, by simp, hrequest.revealed⟩, (), hsession, _, hmine, (),
      ⟨hsession, rfl, rfl⟩, (), hrequest.nested, params, hparams, _, ⟨hrequest.valid, rfl⟩, pos,
      hpos, _, getElem?_map_position hpos _, rfl⟩

end Sign

end Frostito
