import Frostito.Nested.Flat
import Frostito.Nested.Interleaved

/-!
# A group with a nested participant signs

The inner holders share a polynomial that nobody knows; every other participant deals one of its
own, and splits its value at the nested position among the holders.  Whoever signs, flat or
nested, answers with its value of the sum of all polynomials.  So the shares of as many signers
as the outer threshold, the nested one among them, add up to a signature under the sum of the
constant terms.
-/

namespace Frostito

/-- What the holders of the nested position and the other participants are left with by the key
generation. -/
structure NestedGroup (P S : Type) where
  /-- The holders' shares of the coefficients at the nested position. -/
  shares : List (InnerShare S)
  commitments : List P
  dealers : List (Dkg.Dealer P S)
  /-- What dealer `i` hands to the holders, and its commitment. -/
  split : UInt32 → List (UInt32 × S) × DealerCommitment P

section Signature

variable {S P : Type} [CurveScalar S] [CurvePoint P S]

namespace NestedGroup

/-- The sum of the constant commitments. -/
def groupKey (group : NestedGroup P S) : P :=
  group.commitments.headD 0 + (group.dealers.map fun d => d.commitment.coefficients.headD 0).sum

/-- What holder `k` has of the coefficients. -/
def innerShare (group : NestedGroup P S) (k : UInt32) : Option (InnerShare S) :=
  group.shares.find? fun share => share.holderIndex = k

/-- The share of holder `k` for the nested position `p`. -/
def holderShare (group : NestedGroup P S) (p k : UInt32) : Option S := do
  let share ← group.innerShare k
  let pieces ← group.dealers.mapM fun d =>
    (lookup (group.split d.index).1 k).map fun piece => (d.index, piece)
  some (combineShares share p pieces)

/-- The public share at the point `x`. -/
def verifyingShare (group : NestedGroup P S) (x : S) : P :=
  Horner.horner x group.commitments
    + (group.dealers.map fun d => Horner.horner x d.commitment.coefficients).sum

/-- It came out of the key generation. -/
structure Generated (group : NestedGroup P S) (outerT innerN innerT p : UInt32) : Prop where
  interleaved : ∃ rng rng' : Rng S, interleavedDkg innerN innerT outerT rng
    = .ok ((group.shares, group.commitments), rng')
  dealt : ∀ d ∈ group.dealers, ∃ rng rng' : Rng S, Dkg.Dealer.new d.index outerT rng = .ok (d, rng')
  split_eq : ∀ d ∈ group.dealers, ∃ (subshare : SubShare S) (rng rng' : Rng S),
    d.generateSubshare p = .ok subshare ∧
      splitEvaluationForInner subshare.value innerN innerT rng = .ok (group.split d.index, rng')

variable {group : NestedGroup P S} {outerT innerN innerT p : UInt32}

/-- The commitments to the sum of all polynomials. -/
def coefficients (group : NestedGroup P S) (outerT : UInt32) : List P :=
  Horner.combine outerT.toNat
    (group.commitments :: group.dealers.map fun d => d.commitment.coefficients)
    (fun _ => (1 : S)) id

/-- The dealers drew polynomials of the outer threshold. -/
lemma Generated.dealer (h : group.Generated outerT innerN innerT p) {d : Dkg.Dealer P S}
    (hd : d ∈ group.dealers) : d.Honest ∧ d.polynomial.length = outerT.toNat := by
  obtain ⟨rng, rng', hnew⟩ := h.dealt d hd
  have hrefused := hnew
  simp only [Dkg.Dealer.new, Outcome.bind_eq_ok_iff, Outcome.refuse_eq_ok_iff] at hrefused
  obtain ⟨-, hindex, -, ht, -⟩ := hrefused
  obtain ⟨d', hnew', hhonest, -, hpolynomial⟩ := Dkg.Dealer.new_eq_ok (P := P) hindex ht rng
  obtain ⟨rfl, -⟩ := Prod.mk.inj (Outcome.ok.inj (hnew'.symm.trans hnew))
  exact ⟨hhonest, by rw [hpolynomial, Stream'.length_take]⟩

/-- What the key generation leaves behind are values of polynomials. -/
structure Values (group : NestedGroup P S) (outerT innerN innerT p : UInt32)
    (polynomials : List (List S)) (splits : Dkg.Dealer P S → List S) : Prop where
  shares_eq : group.shares = (participants innerN).map fun k =>
    ⟨k, polynomials.map (Horner.horner (fromU32 k : S))⟩
  commitments_eq : group.commitments
    = polynomials.map fun g => Horner.horner (0 : S) g • (generator : P)
  length_polynomials : polynomials.length = outerT.toNat
  length_eq : ∀ g ∈ polynomials, g.length = innerT.toNat
  split_eq : ∀ d ∈ group.dealers, (group.split d.index).1
    = (participants innerN).map fun k => (k, Horner.horner (fromU32 k : S) (splits d))
  length_splits : ∀ d ∈ group.dealers, (splits d).length = innerT.toNat
  splits_zero : ∀ d ∈ group.dealers, Horner.horner (0 : S) (splits d)
    = Horner.horner (fromU32 p : S) d.polynomial

lemma Generated.exists_values (h : group.Generated outerT innerN innerT p) (hn : innerN ≠ 0)
    (ht : innerT ≠ 0) (hp : p ≠ 0) :
    ∃ polynomials splits, group.Values outerT innerN innerT p polynomials splits := by
  obtain ⟨rng, rng', hdkg⟩ := h.interleaved
  obtain ⟨polynomials, rng₁, hdkg', hlength, hpolynomials⟩ :=
    interleavedDkg_eq_ok (P := P) hn ht outerT rng
  obtain ⟨hgroup, -⟩ := Prod.mk.inj (Outcome.ok.inj (hdkg'.symm.trans hdkg))
  obtain ⟨hshares, hcommitments⟩ := Prod.mk.inj hgroup
  have hsplit : ∀ d ∈ group.dealers, ∃ coefficients : List S, (group.split d.index).1
      = (participants innerN).map (fun k => (k, Horner.horner (fromU32 k : S) coefficients)) ∧
        coefficients.length = innerT.toNat ∧
        Horner.horner (0 : S) coefficients = Horner.horner (fromU32 p : S) d.polynomial := by
    intro d hd
    obtain ⟨subshare, rng, rng', hsubshare, hsplit⟩ := h.split_eq d hd
    obtain ⟨coefficients, commitment, rng₁, hsplit', hlen, hzero, -⟩ :=
      splitEvaluationForInner_eq_ok (P := P) subshare.value innerN ht rng
    obtain ⟨hpair, -⟩ := Prod.mk.inj (Outcome.ok.inj (hsplit'.symm.trans hsplit))
    rw [Dkg.Dealer.generateSubshare_eq_ok (h.dealer hd).1.index_ne_zero hp] at hsubshare
    refine ⟨coefficients, by rw [← hpair], hlen, ?_⟩
    rw [hzero, ← Outcome.ok.inj hsubshare]
  choose! splits hsplits hlen hzero using hsplit
  exact ⟨polynomials, splits, hshares.symm, hcommitments.symm, hlength, hpolynomials, hsplits,
    hlen, hzero⟩

variable {polynomials : List (List S)} {splits : Dkg.Dealer P S → List S}

omit [CurveScalar S] [CurvePoint P S] in
lemma mapM_eq_some_map {α β : Type} {f : α → Option β} {g : α → β} {as : List α}
    (h : ∀ a ∈ as, f a = some (g a)) : as.mapM f = some (as.map g) := by
  induction as with
  | nil => rfl
  | cons a as ih =>
    obtain ⟨ha, has⟩ := List.forall_mem_cons.mp h
    rw [List.mapM_cons, ha, ih has]
    rfl

/-- The share of a holder is its value of the sum of the polynomials that are shared. -/
lemma Values.holderShare_eq (h : group.Values outerT innerN innerT p polynomials splits)
    {k : UInt32} (hk : k ∈ participants innerN) :
    group.holderShare p k = some (Horner.horner (fromU32 p : S)
      (polynomials.map (Horner.horner (fromU32 k : S)))
        + ((group.dealers.map splits).map (Horner.horner (fromU32 k : S))).sum) := by
  have hshare : group.innerShare k
      = some ⟨k, polynomials.map (Horner.horner (fromU32 k : S))⟩ := by
    obtain ⟨j, hj⟩ := Option.isSome_iff_exists.mp
      (List.find?_isSome.mpr ⟨k, hk, decide_eq_true rfl⟩ :
        ((participants innerN).find? fun j => decide (j = k)).isSome)
    have hfound := List.find?_some hj
    obtain rfl : j = k := of_decide_eq_true hfound
    rw [innerShare, h.shares_eq, List.find?_map]
    exact congrArg (Option.map _) hj
  have hpieces : (group.dealers.mapM fun d =>
      (lookup (group.split d.index).1 k).map fun piece => (d.index, piece))
      = some (group.dealers.map fun d => (d.index, Horner.horner (fromU32 k : S) (splits d))) := by
    refine mapM_eq_some_map fun d hd => ?_
    rw [h.split_eq d hd, lookup_map_self (nodup_participants innerN) _ hk]
    rfl
  rw [holderShare, hshare, hpieces]
  simp only [Option.bind_eq_bind, Option.bind_some, combineShares_eq, List.map_map]
  rfl

/-- The shares of a quorum interpolate to a share of the nested position. -/
lemma Values.sum_holderShare [PrimeOrder P]
    (h : group.Values outerT innerN innerT p polynomials splits)
    {quorum : List UInt32} (hnd : quorum.Nodup) (hholders : quorum ⊆ participants innerN)
    (henough : innerT.toNat ≤ quorum.length) {sigma : UInt32 → S}
    (hsigma : ∀ k ∈ quorum, group.holderShare p k = some (sigma k))
    (hdealers : ∀ d ∈ group.dealers, d.Honest) :
    (quorum.map fun k => lagrangeCoeff quorum k * sigma k).sum • (generator : P)
      = group.verifyingShare (fromU32 p) := by
  have hvalue : ∀ k ∈ quorum, lagrangeCoeff quorum k * sigma k
      = lagrangeCoeff quorum k * (Horner.horner (fromU32 p : S)
        (polynomials.map (Horner.horner (fromU32 k : S)))
          + ((group.dealers.map splits).map (Horner.horner (fromU32 k : S))).sum) := by
    intro k hk
    rw [Option.some.inj ((hsigma k hk).symm.trans (h.holderShare_eq (hholders hk)))]
  have hsplits : ∀ g ∈ group.dealers.map splits, g.length ≤ quorum.length := by
    intro g hg
    obtain ⟨d, hd, rfl⟩ := List.mem_map.mp hg
    exact (h.length_splits d hd).le.trans henough
  rw [List.map_congr_left hvalue, sum_lagrangeCoeff_mul_combine (fromU32_injective P) hnd
    (fun g hg => (h.length_eq g hg).le.trans henough) hsplits, add_smul, verifyingShare,
    h.commitments_eq]
  congr 1
  · rw [← Horner.horner_map_smul, List.map_map]
    rfl
  · rw [List.sum_smul, List.map_map, List.map_map]
    refine congrArg List.sum (List.map_congr_left fun d hd => ?_)
    simp only [Function.comp_apply]
    rw [h.splits_zero d hd, (hdealers d hd).coefficients_eq, Horner.horner_map_smul]

/-- The public shares are the values of the sharing. -/
lemma Generated.verifyingShare_eq (h : group.Generated outerT innerN innerT p)
    (hlen : group.commitments.length = outerT.toNat) (x : S) :
    group.verifyingShare x = Horner.horner x (group.coefficients outerT) := by
  have hlength : ∀ cs ∈ group.commitments :: group.dealers.map fun d => d.commitment.coefficients,
      cs.length ≤ outerT.toNat := by
    refine List.forall_mem_cons.mpr ⟨hlen.le, fun cs hcs => ?_⟩
    obtain ⟨d, hd, rfl⟩ := List.mem_map.mp hcs
    obtain ⟨hhonest, hpolynomial⟩ := h.dealer hd
    rw [hhonest.coefficients_eq, List.length_map, hpolynomial]
  rw [coefficients, Horner.horner_combine outerT.toNat _ (fun _ => (1 : S)) id x hlength]
  simp only [one_smul, id_eq, List.map_cons, List.sum_cons, List.map_map]
  rfl

lemma Generated.headD_coefficients (h : group.Generated outerT innerN innerT p)
    (hlen : group.commitments.length = outerT.toNat) :
    (group.coefficients outerT).headD 0 = group.groupKey := by
  rw [← Horner.horner_zero (R := S), ← h.verifyingShare_eq hlen, verifyingShare, groupKey]
  simp only [Horner.horner_zero]

end NestedGroup

/-! ### The round -/

/-- The documented group commitment: the sum of what the signers committed to, the second
halves times the binding factors. -/
def Ciphersuite.SumsCommitments (suite : Ciphersuite P S) : Prop :=
  ∀ package factors r, suite.groupCommitment package factors = some r →
    ∃ rho : Identifier S → S,
      (∀ q ∈ package.signingCommitments, lookup factors q.1 = some (rho q.1)) ∧
      r = (package.signingCommitments.map fun q =>
        q.2.hidingCommitment + rho q.1 • q.2.bindingCommitment).sum

/-- The signers of a package, each with a share and the nonces that it committed to, together
answer for the key of the sharing. -/
lemma SigningPackage.answers_sum_response {package : SigningPackage P S} {cs : List P}
    (hlen : cs.length ≤ package.identifiers.length) {key d e : Identifier S → S}
    (hshare : ∀ i ∈ package.identifiers, Sharing.IsShare (generator : P) cs i.val (key i))
    (hnonces : ∀ q ∈ package.signingCommitments,
      q.2 = ⟨d q.1 • generator, e q.1 • generator⟩) (rho : Identifier S → S) (c : S) :
    Schnorr.Answers generator (cs.headD 0)
      (package.signingCommitments.map fun q =>
        q.2.hidingCommitment + rho q.1 • q.2.bindingCommitment).sum
      (package.identifiers.map fun i => Threshold.response (d i) (e i) (key i) (rho i)
        (package.lagrangeCoefficient i.val) c).sum c := by
  have hcommitments : package.signingCommitments.map (fun q =>
      q.2.hidingCommitment + rho q.1 • q.2.bindingCommitment)
      = package.identifiers.map fun i => d i • generator + rho i • e i • generator := by
    rw [identifiers, List.map_map]
    refine List.map_congr_left fun q hq => ?_
    rw [hnonces q hq]
    rfl
  simp only [hcommitments, lagrangeCoefficient_eq]
  exact Threshold.answers_sum_response package.nodup_map_val hlen hshare d e rho c

variable [Sha2] {suite : Ciphersuite P S} {request : NestedSigningRequest P S}
  {quorum : List UInt32} {d e : UInt32 → S}

/-- The entry of the nested position is for the sums of the holders' nonces. -/
lemma HonestRound.entry_eq (hround : HonestRound quorum d e request)
    {q : Identifier S × SigningCommitments P} (hq : q ∈ request.package.signingCommitments)
    (hindex : Identifier.ofIndex request.nestedIndex = some q.1) :
    q.2 = ⟨(quorum.map d).sum • generator, (quorum.map e).sum • generator⟩ := by
  have hentry := hround.entry
  rw [nestedEntry, hindex, Option.bind_eq_bind, Option.bind_some, SigningPackage.signingCommitment,
    lookup_eq_some_of_mem request.package.nodup hq] at hentry
  rw [Option.some.inj hentry, List.sum_smul, List.sum_smul, List.map_map, List.map_map]
  rfl

/-- **A group with a nested participant signs.**  Whatever was drawn: a quorum of the holders
signs for the nested position, every other signer answers with its own share, of which the
public knows the verifying share, and as many signers as the outer threshold together answer the
challenge for the group key. -/
theorem NestedGroup.Generated.signs [PrimeOrder P] {group : NestedGroup P S}
    {outerT innerN innerT : UInt32} (hgroup : group.Generated outerT innerN innerT
      request.nestedIndex) (ht : innerT ≠ 0) (hsuite : suite.Lawful)
    (hsums : suite.SumsCommitments)
    (hids : ∀ id ∈ request.package.identifiers, ∃ v : UInt32, v.toNat < 2 ^ 16 ∧ id.IsIndex v)
    {id : Identifier S} (hid : id ∈ request.package.identifiers)
    (hposition : id.IsIndex request.nestedIndex)
    (hsigners : outerT.toNat ≤ request.package.identifiers.length)
    {factors : List (Identifier S × S)}
    (hfactors : suite.bindingFactorList request.package group.groupKey [] = some factors)
    {r : P} (hr : suite.groupCommitment request.package factors = some r)
    {c : S} (hc : suite.challenge r group.groupKey request.package.message = some c)
    (hnd : quorum.Nodup) (hholders : quorum ⊆ participants innerN)
    (henough : innerT.toNat ≤ quorum.length)
    (hthreshold : request.innerThreshold.toNat ≤ quorum.length)
    (hround : HonestRound quorum d e request) {hidingNonce bindingNonce share : Identifier S → S}
    (hflat : ∀ q ∈ request.package.signingCommitments, q.1 ≠ id →
      q.2 = ⟨hidingNonce q.1 • generator, bindingNonce q.1 • generator⟩ ∧
        share q.1 • (generator : P) = group.verifyingShare q.1.val) :
    ∃ (params : InnerSigningParams S) (sig : UInt32 → InnerSignatureShare S)
      (z : Identifier S → S),
      innerParamsFromZf suite request.package group.groupKey request.nestedIndex = .ok params ∧
      (∀ k ∈ quorum, ∃ sigma, group.holderShare request.nestedIndex k = some sigma ∧
        innerSign suite (roundNonces request.sessionId d e k) ⟨k, sigma⟩ group.groupKey
          request.package.message request = .ok (sig k)) ∧
      (∀ (sigs : List (InnerSignatureShare S)) (publicShares : List (UInt32 × P)),
        sigs.Perm (quorum.map sig) →
        (∀ k ∈ quorum, lookup publicShares k
          = (group.holderShare request.nestedIndex k).map (· • (generator : P))) →
        aggregateInnerSharesVerified sigs request.innerCommitments publicShares params
          request.activeIndices = .ok (z id)) ∧
      (∀ id' ∈ request.package.identifiers, id' ≠ id →
        flatSignatureShare suite request.package group.groupKey id' (hidingNonce id')
          (bindingNonce id') (share id') = some (z id')) ∧
      Schnorr.Answers generator group.groupKey r (request.package.identifiers.map z).sum c := by
  have hp : request.nestedIndex ≠ 0 := by
    intro h0
    rw [Identifier.IsIndex, h0] at hposition
    exact id.ne_zero (hposition.trans (by simp))
  have hne : quorum ≠ [] := by
    rintro rfl
    exact toNat_ne_zero_iff.mpr ht (Nat.le_zero.mp henough)
  have hn : innerN ≠ 0 := by
    rintro rfl
    obtain ⟨k, ks, rfl⟩ := List.exists_cons_of_ne_nil hne
    simpa [participants] using hholders List.mem_cons_self
  have hvalid : ValidIndices quorum :=
    ⟨hne, fun h0 => (mem_participants.mp (hholders h0)).1 rfl, hnd⟩
  obtain ⟨polynomials, splits, hvalues⟩ := hgroup.exists_values hn ht hp
  obtain ⟨rho, hrho, rfl⟩ := hsums _ _ _ hr
  obtain ⟨q, hq, rfl⟩ := List.mem_map.mp hid
  -- the shares of the quorum, and the share of the position that they make up
  let sigma : UInt32 → S := fun k => (group.holderShare request.nestedIndex k).getD 0
  have hsigma : ∀ k ∈ quorum, group.holderShare request.nestedIndex k = some (sigma k) := by
    intro k hk
    simp only [sigma, hvalues.holderShare_eq (hholders hk), Option.getD_some]
  have hsecret := hvalues.sum_holderShare hnd hholders henough hsigma
    fun d hd => (hgroup.dealer hd).1
  obtain ⟨params, sig, hparams, hsign, haggregate⟩ := hround.exists_aggregate hsuite hids hid
    hposition hfactors hr hc (hrho q hq) hvalid hthreshold sigma
  -- the nested position answers as any other signer
  let key : Identifier S → S := fun i =>
    if i = q.1 then (quorum.map fun k => lagrangeCoeff quorum k * sigma k).sum else share i
  let ds : Identifier S → S := fun i => if i = q.1 then (quorum.map d).sum else hidingNonce i
  let es : Identifier S → S := fun i => if i = q.1 then (quorum.map e).sum else bindingNonce i
  let z : Identifier S → S := fun i => Threshold.response (ds i) (es i) (key i) (rho i)
    (request.package.lagrangeCoefficient i.val) c
  have hlen : group.commitments.length = outerT.toNat := by
    rw [hvalues.commitments_eq, List.length_map, hvalues.length_polynomials]
  have hshare : ∀ i ∈ request.package.identifiers,
      Sharing.IsShare (generator : P) (group.coefficients outerT) i.val (key i) := by
    intro i hi
    obtain ⟨q', hq', rfl⟩ := List.mem_map.mp hi
    rw [Sharing.IsShare, ← hgroup.verifyingShare_eq hlen]
    by_cases heq : q'.1 = q.1
    · have hval : q'.1.val = fromU32 request.nestedIndex := heq ▸ hposition
      simp only [key, if_pos heq, hval]
      exact hsecret
    · simp only [key, if_neg heq]
      exact (hflat q' hq' heq).2
  have hnonces : ∀ q' ∈ request.package.signingCommitments,
      q'.2 = ⟨ds q'.1 • generator, es q'.1 • generator⟩ := by
    intro q' hq'
    simp only [ds, es]
    by_cases heq : q'.1 = q.1
    · rw [if_pos heq, if_pos heq]
      exact hround.entry_eq hq' (heq ▸ ofIndex_of_isIndex hids hid hposition)
    · rw [if_neg heq, if_neg heq]
      exact (hflat q' hq' heq).1
  refine ⟨params, sig, z, hparams, fun k hk => ⟨sigma k, hsigma k hk, hsign k hk⟩,
    fun sigs publicShares hsigs hpublic => ?_, fun i hi hne => ?_, ?_⟩
  · rw [haggregate sigs publicShares hsigs fun k hk => by rw [hpublic k hk, hsigma k hk]; rfl]
    simp only [z, ds, es, key, if_true]
  · obtain ⟨q', hq', rfl⟩ := List.mem_map.mp hi
    rw [flatSignatureShare_eq hfactors hr hc (hrho q' hq')]
    simp only [z, ds, es, key, if_neg hne]
  · rw [← hgroup.headD_coefficients hlen]
    exact SigningPackage.answers_sum_response (hsigners.trans' (Horner.length_combine _ _ _ _).le)
      hshare hnonces rho c

end Signature

/-! ### The group of the signers 1 and 2 -/

section Group

open Reference

lemma suite_sumsCommitments : suite.SumsCommitments := by
  intro package factors r hr
  let rho : Identifier Residue → Residue := fun id => (lookup factors id).getD 0
  have hfold : ∀ (entries : List (Identifier Residue × SigningCommitments Residue)) (acc : Residue),
      entries.foldlM (addCommitment factors) acc = some r →
        (∀ q ∈ entries, lookup factors q.1 = some (rho q.1)) ∧
          r = acc + (entries.map fun q =>
            q.2.hidingCommitment + rho q.1 • q.2.bindingCommitment).sum := by
    intro entries
    induction entries with
    | nil =>
      intro acc hacc
      exact ⟨by simp, by simpa using (Option.some.inj hacc).symm⟩
    | cons entry entries ih =>
      intro acc hacc
      rw [List.foldlM_cons, Option.bind_eq_bind, Option.bind_eq_some_iff] at hacc
      obtain ⟨acc', hadd, hrest⟩ := hacc
      rw [addCommitment] at hadd
      split at hadd
      · exact absurd hadd (by simp)
      · obtain ⟨rho', hrho, hacc'⟩ := Option.bind_eq_some_iff.mp hadd
        obtain ⟨hall, hr⟩ := ih acc' hrest
        have hrho' : rho entry.1 = rho' := by simp [rho, hrho]
        refine ⟨List.forall_mem_cons.mpr ⟨hrho'.symm ▸ hrho, hall⟩, ?_⟩
        rw [hr, ← Option.some.inj hacc', List.map_cons, List.sum_cons, hrho']
        abel
  obtain ⟨hall, hr⟩ := hfold _ 0 hr
  exact ⟨rho, hall, by rw [hr, zero_add]⟩

/-- The holders 1 and 2 of the signer 1 run the key generation with the signer 2, whose secret
makes the group key `5`. -/
lemma exists_generated : ∃ group : NestedGroup Residue Residue,
    group.Generated 2 2 2 1 ∧ group.groupKey = 5 := by
  have hone : (1 : UInt32) ≠ 0 := by decide
  have htwo : (2 : UInt32) ≠ 0 := by decide
  let rng : Rng Residue := .const ((3 : ℕ) : Residue)
  obtain ⟨⟨shares, commitments⟩, rng', hdkg⟩ :=
    exists_interleavedDkg_eq_ok (P := Residue) (.inr (.inl htwo) : (2 : UInt32) = 0 ∨ _) rng
  let rng₂ : Rng Residue := .cons (5 - commitments.headD 0) rng
  obtain ⟨dealer, hnew, hhonest, hindex, hpolynomial⟩ :=
    Dkg.Dealer.new_eq_ok (P := Residue) htwo htwo rng₂
  obtain ⟨split, rng'', hsplit⟩ : ∃ (split : List (UInt32 × Residue) × DealerCommitment Residue)
      (rng'' : Rng Residue), splitEvaluationForInner
        (Horner.horner (fromU32 1 : Residue) dealer.polynomial) 2 2 rng = .ok (split, rng'') := by
    obtain ⟨_, commitment, rng'', hsplit, -⟩ := splitEvaluationForInner_eq_ok (P := Residue)
      (Horner.horner (fromU32 1 : Residue) dealer.polynomial) 2 htwo rng
    exact ⟨_, rng'', hsplit⟩
  refine ⟨⟨shares, commitments, [dealer], fun _ => split⟩, ⟨⟨rng, rng', hdkg⟩, ?_, ?_⟩, ?_⟩
  · rintro d hd
    obtain rfl := List.mem_singleton.mp hd
    exact ⟨rng₂, _, by rw [hindex]; exact hnew⟩
  · rintro d hd
    obtain rfl := List.mem_singleton.mp hd
    exact ⟨_, rng, rng'', Dkg.Dealer.generateSubshare_eq_ok (hindex ▸ htwo) hone, hsplit⟩
  · have hhead : dealer.commitment.coefficients.headD 0 = 5 - commitments.headD 0 := by
      rw [hhonest.coefficients_eq, hpolynomial]
      exact mul_one _
    rw [NestedGroup.groupKey, List.map_singleton, List.sum_singleton, hhead]
    exact add_sub_cancel _ _

/-- The two of them sign. -/
theorem signs_outerPackage : ∃ (group : NestedGroup Residue Residue)
    (sig : UInt32 → InnerSignatureShare Residue) (r c z : Residue), group.groupKey = 5 ∧
      suite.challenge r 5 outerPackage.message = some c ∧
      (∀ k ∈ [1, 2], ∃ sigma, group.holderShare 1 k = some sigma ∧
        innerSign suite (quorumNonces k) ⟨k, sigma⟩ 5 outerPackage.message
          (quorumRequest [1, 2] 2) = .ok (sig k)) ∧
      Schnorr.Answers (1 : Residue) 5 r z c := by
  obtain ⟨group, hgroup, hkey⟩ := exists_generated
  obtain ⟨rho, c, hcontext, -⟩ := exists_outerContext_outerPackage
  simp only [outerContext, Option.bind_eq_bind, Option.bind_eq_some_iff] at hcontext
  obtain ⟨-, -, factors, hfactors, -, -, -, -, r, hr, c', hc, -⟩ := hcontext
  have hflat : ∀ q ∈ outerPackage.signingCommitments, q.1 ≠ firstIdentifier →
      q.2 = ⟨((2 : ℕ) : Residue) • generator, ((3 : ℕ) : Residue) • generator⟩ ∧
        group.verifyingShare q.1.val • (generator : Residue) = group.verifyingShare q.1.val := by
    intro q hq hne
    rcases List.mem_pair.mp hq with rfl | rfl
    · exact absurd rfl hne
    · exact ⟨by decide, mul_one _⟩
  obtain ⟨params, sig, z, -, hsign, -, -, hanswers⟩ := @NestedGroup.Generated.signs _ _ _ _ _ _
    (quorumRequest [1, 2] 2) [1, 2] _ _ _ group 2 2 2 hgroup (by decide) suite_lawful
    suite_sumsCommitments (fun _ => exists_isIndex_outerPackage) firstIdentifier
    List.mem_cons_self rfl (by decide) factors (hkey.symm ▸ hfactors) r hr c' (hkey.symm ▸ hc)
    (by decide) (by decide) (by decide) (by decide) honestRound_quorumRequest
    (fun _ => ((2 : ℕ) : Residue)) (fun _ => ((3 : ℕ) : Residue))
    (fun id => group.verifyingShare id.val) hflat
  rw [hkey] at hanswers hsign
  exact ⟨group, sig, r, c', _, hkey, hc, hsign, hanswers⟩

end Group

end Frostito
