import Frostito.Dkg.Aggregator
import Frostito.Dkg.Dealer
import Frostito.Reference.Backend

/-!
# The interleaved key generation

The nested position holds a polynomial that nobody knows: the inner holders run one key
generation for each of its coefficients, and every holder keeps a share of each.  A holder's
share of the value at a point is the same combination of its shares.  The other participants
split their values among the holders as well, and what a holder adds up is a share of the sum
of all values.
-/

namespace Frostito

/-- Evaluation with running powers, the lowest coefficient first. -/
def evalPowers {S : Type} [CurveScalar S] (x : S) (coefficients : List S) : S :=
  (coefficients.foldl (fun acc c => (acc.1 + c * acc.2, acc.2 * x)) ((0 : S), (1 : S))).1

/-- State for one coefficient's inner DKG. -/
structure CoefficientDkg (P S : Type) where
  /-- Which outer polynomial coefficient this DKG is for. -/
  coeffIndex : UInt32
  /-- Inner DKG dealers, one per inner holder. -/
  dealers : List (Dkg.Dealer P S)

/-- Result of the interleaved DKG for one inner holder. -/
structure InnerShare (S : Type) where
  holderIndex : UInt32
  /-- Shares of each outer polynomial coefficient. -/
  coefficientShares : List S

section Interleaved

variable {S P : Type} [CurveScalar S]

/-- This holder's share of the outer polynomial evaluated at the point `x`. -/
def InnerShare.evalAt (share : InnerShare S) (x : UInt32) : S :=
  evalPowers (fromU32 x) share.coefficientShares

/-- Combine inner DKG shares with outer participants' split evaluations. -/
def combineShares (innerShare : InnerShare S) (nestedPosition : UInt32)
    (outerEvalPieces : List (UInt32 × S)) : S :=
  outerEvalPieces.foldl (fun result p => result + p.2) (innerShare.evalAt nestedPosition)

variable [CurvePoint P S]

/-- The dealers of one coefficient, each drawing its own polynomial. -/
def newDealers (innerN innerT : UInt32) (rng : Rng S) :
    Outcome Error (List (Dkg.Dealer P S) × Rng S) :=
  Outcome.mapState (fun k rng => .expect (Dkg.Dealer.new k innerT rng)) (participants innerN) rng

/-- `g^{a_j} = Σ_k g^{p_k(0)}`. -/
def coefficientCommitment (dkg : CoefficientDkg P S) : Outcome Error P :=
  dkg.dealers.foldlM (fun commitment dealer => do
    let c0 ← dealer.commitment.shareCommitment
    .ok (commitment + c0)) 0

/-- One dealer's sub-share, added with `?`. -/
def addDealer (k : UInt32) (commitments : List (DealerCommitment P)) (agg : Dkg.Aggregator P S)
    (dealer : Dkg.Dealer P S) : Outcome Error (Dkg.Aggregator P S) := do
  let subshare ← .expect (dealer.generateSubshare k)
  let pos ← .checkedSub dealer.index.toNat 1
  let commitment ← .expectSome commitments[pos]?
  let (agg, result) := agg.addSubshare subshare commitment
  let _ ← result
  .ok agg

/-- Holder `k`'s share of one coefficient. -/
def coefficientShare (k : UInt32) (dkg : CoefficientDkg P S) : Outcome Error S := do
  let commitments := dkg.dealers.map Dkg.Dealer.commitment
  let dealerSet := dkg.dealers.map Dkg.Dealer.index
  let agg ← Dkg.Aggregator.new k dealerSet
  let agg ← dkg.dealers.foldlM (addDealer k commitments) agg
  agg.finalize

/-- Run the interleaved DKG for a nested position: one share per inner holder, and `g^{a_j}`
for each coefficient of the outer polynomial. -/
def interleavedDkg (innerN innerT outerT : UInt32) (rng : Rng S) :
    Outcome Error ((List (InnerShare S) × List P) × Rng S) := do
  let (coeffDkgs, rng) ← Outcome.mapState (fun j rng => do
    let (dealers, rng) ← newDealers innerN innerT rng
    .ok ((⟨UInt32.ofNat j, dealers⟩ : CoefficientDkg P S), rng)) (List.range outerT.toNat) rng
  let coeffCommitments ← coeffDkgs.mapM coefficientCommitment
  let innerShares ← (participants innerN).mapM fun k => do
    let coefficientShares ← coeffDkgs.mapM (coefficientShare k)
    .ok (⟨k, coefficientShares⟩ : InnerShare S)
  .ok ((innerShares, coeffCommitments), rng)

/-- Split an outer participant's evaluation among inner holders. -/
def splitEvaluationForInner (evaluation : S) (innerN innerT : UInt32) (rng : Rng S) :
    Outcome Error ((List (UInt32 × S) × DealerCommitment P) × Rng S) := do
  let (drawn, rng) := rng.randoms (innerT.toNat - 1)
  let coeffs := evaluation :: drawn
  -- the index of the dealer means nothing here, and must not be zero
  let commitment ← .expect (DealerCommitment.fromPolynomial 1 coeffs)
  let shares := (participants innerN).map fun k => (k, evalPowers (fromU32 k) coeffs)
  .ok ((shares, commitment), rng)

/-- Verify a split evaluation piece against its Feldman commitment. -/
def verifySplitPiece (commitment : DealerCommitment P) (holderIndex : UInt32) (piece : S) : Bool :=
  commitment.verifySubshare holderIndex piece

/-! ### What the honest run computes -/

omit [CurvePoint P S] in
/-- Running powers and Horner's rule evaluate alike. -/
theorem evalPowers_eq_horner (x : S) (cs : List S) : evalPowers x cs = Horner.horner x cs := by
  have hfold : ∀ (acc pow : S), (cs.foldl (fun acc c => (acc.1 + c * acc.2, acc.2 * x))
      (acc, pow)).1 = acc + pow * Horner.horner x cs := by
    induction cs with
    | nil => simp
    | cons c cs ih =>
      intro acc pow
      rw [List.foldl_cons, ih, Horner.horner_cons, smul_eq_mul]
      ring
  rw [evalPowers, hfold, zero_add, one_mul]

/-- The dealers of one coefficient are the inner holders, each with a polynomial of its own. -/
structure CoefficientDkg.Honest (innerN innerT : UInt32) (dkg : CoefficientDkg P S) : Prop where
  index_eq : dkg.dealers.map Dkg.Dealer.index = participants innerN
  honest : ∀ d ∈ dkg.dealers, d.Honest
  length_eq : ∀ d ∈ dkg.dealers, d.polynomial.length = innerT.toNat

/-- The polynomial that the dealers of one coefficient share out together. -/
def CoefficientDkg.polynomial (innerT : UInt32) (dkg : CoefficientDkg P S) : List S :=
  Horner.combine innerT.toNat dkg.dealers (fun _ => (1 : S)) Dkg.Dealer.polynomial

lemma newDealers_eq_ok {innerN innerT : UInt32} (ht : innerT ≠ 0) (j : UInt32) (rng : Rng S) :
    ∃ (dealers : List (Dkg.Dealer P S)) (rng' : Rng S),
      newDealers innerN innerT rng = .ok (dealers, rng') ∧
      CoefficientDkg.Honest innerN innerT ⟨j, dealers⟩ := by
  have hnew : ∀ k ∈ participants innerN, ∀ rng : Rng S, ∃ (d : Dkg.Dealer P S) (rng' : Rng S),
      (.expect (Dkg.Dealer.new k innerT rng) : Outcome Error _) = .ok (d, rng') ∧
        (d.index = k ∧ d.Honest ∧ d.polynomial.length = innerT.toNat) := by
    intro k hk rng
    obtain ⟨d, hd, hhonest, hindex, hpoly⟩ :=
      Dkg.Dealer.new_eq_ok (P := P) (mem_participants.mp hk).1 ht rng
    exact ⟨d, _, by rw [hd]; rfl, hindex, hhonest, by rw [hpoly, Stream'.length_take]⟩
  obtain ⟨dealers, rng', hrun, hall⟩ := Outcome.exists_mapState_eq_ok hnew rng
  refine ⟨dealers, rng', hrun, ?_, ?_, ?_⟩
  · rw [← List.forall₂_eq_eq_eq, List.forall₂_map_left_iff]
    exact hall.flip.imp fun d k h => h.1
  all_goals
    intro d hd
    obtain ⟨k, -, -, hhonest, hlen⟩ := Outcome.exists_of_forall₂ hall.flip hd
    first | exact hhonest | exact hlen

section Honest

variable {innerN innerT : UInt32} {dkg : CoefficientDkg P S} (h : dkg.Honest innerN innerT)
include h

lemma CoefficientDkg.Honest.horner_polynomial (x : S) :
    Horner.horner x (dkg.polynomial innerT)
      = (dkg.dealers.map fun d => Horner.horner x d.polynomial).sum := by
  rw [CoefficientDkg.polynomial, Horner.horner_combine _ _ _ _ _ fun d hd => (h.length_eq d hd).le]
  simp only [one_smul]

/-- The commitment of a coefficient is to the constant term of its polynomial. -/
lemma CoefficientDkg.Honest.coefficientCommitment_eq :
    coefficientCommitment dkg
      = .ok (Horner.horner (0 : S) (dkg.polynomial innerT) • (generator : P)) := by
  have hadd : ∀ d ∈ dkg.dealers, ∀ commitment : P,
      (do let c0 ← d.commitment.shareCommitment
          .ok (commitment + c0) : Outcome Error P)
        = .ok (commitment + Horner.horner (0 : S) d.polynomial • generator) := by
    intro d hd commitment
    have hhonest := h.honest d hd
    obtain ⟨a0, as, hpoly⟩ := List.exists_cons_of_ne_nil hhonest.polynomial_ne_nil
    have hne : d.commitment.coefficients ≠ [] := by simp [hhonest.coefficients_eq, hpoly]
    rw [DealerCommitment.shareCommitment_eq_ok hne 0, Outcome.ok_bind, hhonest.coefficients_eq,
      Horner.horner_zero, hpoly]
    rfl
  rw [coefficientCommitment, Outcome.foldlM_eq_ok_foldl hadd, h.horner_polynomial, List.sum_smul,
    List.map_map, List.sum_eq_foldl, List.foldl_map]
  rfl

/-- A dealer's commitment stands where its index says. -/
lemma CoefficientDkg.Honest.getElem?_commitments {d : Dkg.Dealer P S} (hd : d ∈ dkg.dealers) :
    (dkg.dealers.map Dkg.Dealer.commitment)[d.index.toNat - 1]? = some d.commitment := by
  obtain ⟨pos, hpos⟩ := List.mem_iff_getElem?.mp hd
  have hindex : (participants innerN)[pos]? = some d.index := by
    rw [← h.index_eq, List.getElem?_map, hpos, Option.map_some]
  have hlt : pos < innerN.toNat := by
    rw [← length_participants]
    exact (List.getElem?_eq_some_iff.mp hindex).1
  rw [participants, List.getElem?_map, List.getElem?_range hlt, Option.map_some,
    Option.some.injEq] at hindex
  have htoNat : d.index.toNat = pos + 1 := by rw [← hindex, toNat_ofNat_succ hlt]
  rw [htoNat, Nat.add_sub_cancel, List.getElem?_map, hpos, Option.map_some]

end Honest

/-- An honest dealer that has not been heard yet is added. -/
lemma addDealer_eq_ok {k : UInt32} (hk : k ≠ 0) {commitments : List (DealerCommitment P)}
    {a : Dkg.Aggregator P S} (hplayer : a.playerIndex = k) {d : Dkg.Dealer P S} (hd : d.Honest)
    (hset : d.index ∈ a.dealerSet) (hnew : d.index ∉ a.subshares.map Prod.fst)
    (hcommit : commitments[d.index.toNat - 1]? = some d.commitment) :
    ∃ a', addDealer k commitments a d = .ok a' ∧ a'.playerIndex = k ∧
      a'.dealerSet = a.dealerSet ∧
      a'.subshares = a.subshares ++ [(d.index, Horner.horner (fromU32 k : S) d.polynomial)] := by
  have hne : d.commitment.coefficients ≠ [] := by
    simp [hd.coefficients_eq, hd.polynomial_ne_nil]
  have hpos : 1 ≤ d.index.toNat := Nat.pos_of_ne_zero (toNat_ne_zero_iff.mpr hd.index_ne_zero)
  have hcheck : a.checkSubshare ⟨d.index, k, Horner.horner (fromU32 k : S) d.polynomial⟩
      d.commitment = .ok true := by
    refine Dkg.Aggregator.checkSubshare_eq_ok_true_iff.mpr
      ⟨hplayer.symm, hd.dealerIndex_eq.symm, hd.index_ne_zero, hset, hnew, ?_⟩
    rw [hplayer]
    exact hd.verifySubshare_eq hk
  refine ⟨{ a with
    subshares := a.subshares ++ [(d.index, Horner.horner (fromU32 k : S) d.polynomial)]
    constantCommitments := a.constantCommitments ++ [d.commitment.coefficients.headD 0] },
    ?_, hplayer, rfl, rfl⟩
  rw [addDealer, Dkg.Dealer.generateSubshare_eq_ok hd.index_ne_zero hk]
  simp only [Outcome.expect, Outcome.ok_bind, Outcome.checkedSub, if_pos hpos, hcommit,
    Outcome.expectSome_some, Dkg.Aggregator.addSubshare_eq_ok_true hne hcheck]

/-- Honest dealers that have not been heard yet are added one after the other. -/
lemma foldlM_addDealer_eq_ok {k : UInt32} (hk : k ≠ 0) {commitments : List (DealerCommitment P)}
    {dealers : List (Dkg.Dealer P S)} {a : Dkg.Aggregator P S} (hplayer : a.playerIndex = k)
    (hhonest : ∀ d ∈ dealers, d.Honest) (hset : ∀ d ∈ dealers, d.index ∈ a.dealerSet)
    (hcommit : ∀ d ∈ dealers, commitments[d.index.toNat - 1]? = some d.commitment)
    (hnd : (a.subshares.map Prod.fst ++ dealers.map Dkg.Dealer.index).Nodup) :
    ∃ a', dealers.foldlM (addDealer k commitments) a = .ok a' ∧ a'.dealerSet = a.dealerSet ∧
      a'.subshares = a.subshares ++
        dealers.map fun d => (d.index, Horner.horner (fromU32 k : S) d.polynomial) := by
  induction dealers generalizing a with
  | nil => exact ⟨a, rfl, rfl, by simp⟩
  | cons d dealers ih =>
    simp only [List.forall_mem_cons] at hhonest hset hcommit
    have hnew : d.index ∉ a.subshares.map Prod.fst := fun hmem =>
      (List.nodup_append.mp hnd).2.2 _ hmem _ List.mem_cons_self rfl
    obtain ⟨a₁, ha₁, hplayer₁, hset₁, hsubshares₁⟩ :=
      addDealer_eq_ok hk hplayer hhonest.1 hset.1 hnew hcommit.1
    obtain ⟨a', ha', hset', hsubshares'⟩ := ih hplayer₁ hhonest.2
      (by rw [hset₁]; exact hset.2) hcommit.2 (by
        rw [hsubshares₁]
        simpa using hnd)
    refine ⟨a', ?_, hset'.trans hset₁, ?_⟩
    · rw [List.foldlM_cons, ha₁, Outcome.ok_bind, ha']
    · rw [hsubshares', hsubshares₁, List.map_cons, List.append_assoc, List.singleton_append]

/-- A holder's share of a coefficient is on its polynomial. -/
lemma CoefficientDkg.Honest.coefficientShare_eq {innerN innerT : UInt32} (hn : innerN ≠ 0)
    {dkg : CoefficientDkg P S} (h : dkg.Honest innerN innerT) {k : UInt32} (hk : k ≠ 0) :
    coefficientShare k dkg = .ok (Horner.horner (fromU32 k : S) (dkg.polynomial innerT)) := by
  have hvalid : ValidIndices (dkg.dealers.map Dkg.Dealer.index) := by
    rw [h.index_eq]
    refine ⟨fun hnil => toNat_ne_zero_iff.mpr hn ?_, fun h0 => (mem_participants.mp h0).1 rfl,
      nodup_participants innerN⟩
    rw [← length_participants, hnil, List.length_nil]
  have hperm := List.perm_insertionSort (· ≤ ·) (dkg.dealers.map Dkg.Dealer.index)
  obtain ⟨a, ha, hset, hsubshares⟩ := foldlM_addDealer_eq_ok hk
    (a := (⟨k, (dkg.dealers.map Dkg.Dealer.index).insertionSort (· ≤ ·), [], []⟩ :
      Dkg.Aggregator P S)) rfl h.honest
    (fun d hd => hperm.mem_iff.mpr (List.mem_map_of_mem hd)) (fun d => h.getElem?_commitments)
    hvalid.nodup
  have hcomplete : a.requireComplete = .ok () := by
    rw [Dkg.requireComplete_eq_ok_iff, hset, hsubshares, hperm.length_eq]
    simp
  rw [coefficientShare, Dkg.Aggregator.new_eq_ok_iff.mpr ⟨hk, hvalid, rfl⟩, Outcome.ok_bind, ha,
    Outcome.ok_bind, Dkg.Aggregator.finalize, hcomplete, Outcome.ok_bind, hsubshares,
    h.horner_polynomial, List.nil_append, List.foldl_map, List.sum_eq_foldl, List.foldl_map]

/-- **The interleaved key generation succeeds**, and there are polynomials, one for each outer
coefficient, of which the holders have the values and the commitments the constant terms. -/
theorem interleavedDkg_eq_ok {innerN innerT : UInt32} (hn : innerN ≠ 0) (ht : innerT ≠ 0)
    (outerT : UInt32) (rng : Rng S) :
    ∃ (polynomials : List (List S)) (rng' : Rng S),
      interleavedDkg innerN innerT outerT rng = .ok (((participants innerN).map fun k =>
        ⟨k, polynomials.map (Horner.horner (fromU32 k : S))⟩,
        polynomials.map fun g => Horner.horner (0 : S) g • (generator : P)), rng') ∧
      polynomials.length = outerT.toNat ∧ ∀ g ∈ polynomials, g.length = innerT.toNat := by
  have hdkg : ∀ j ∈ List.range outerT.toNat, ∀ rng : Rng S,
      ∃ (dkg : CoefficientDkg P S) (rng' : Rng S),
        (do let (dealers, rng) ← newDealers innerN innerT rng
            .ok ((⟨UInt32.ofNat j, dealers⟩ : CoefficientDkg P S), rng) : Outcome Error _)
          = .ok (dkg, rng') ∧ dkg.Honest innerN innerT := by
    intro j _ rng
    obtain ⟨dealers, rng', hdealers, hhonest⟩ := newDealers_eq_ok (P := P) ht (UInt32.ofNat j) rng
    exact ⟨⟨UInt32.ofNat j, dealers⟩, rng', by rw [hdealers]; rfl, hhonest⟩
  obtain ⟨dkgs, rng', hrun, hall⟩ := Outcome.exists_mapState_eq_ok hdkg rng
  have hhonest : ∀ dkg ∈ dkgs, dkg.Honest innerN innerT := by
    intro dkg hmem
    obtain ⟨j, -, hdkg⟩ := Outcome.exists_of_forall₂ hall.flip hmem
    exact hdkg
  refine ⟨dkgs.map (CoefficientDkg.polynomial innerT), rng', ?_, ?_, ?_⟩
  · have hcommitments : dkgs.mapM coefficientCommitment = .ok (dkgs.map fun dkg =>
        Horner.horner (0 : S) (dkg.polynomial innerT) • (generator : P)) :=
      Outcome.mapM_eq_ok_map fun dkg hmem => (hhonest dkg hmem).coefficientCommitment_eq
    have hshares : ((participants innerN).mapM fun k => do
        let coefficientShares ← dkgs.mapM (coefficientShare k)
        .ok (⟨k, coefficientShares⟩ : InnerShare S) : Outcome Error _)
        = .ok ((participants innerN).map fun k =>
          ⟨k, dkgs.map fun dkg => Horner.horner (fromU32 k : S) (dkg.polynomial innerT)⟩) := by
      refine Outcome.mapM_eq_ok_map fun k hk => ?_
      rw [Outcome.mapM_eq_ok_map fun dkg hmem =>
        (hhonest dkg hmem).coefficientShare_eq hn (mem_participants.mp hk).1, Outcome.ok_bind]
    rw [interleavedDkg, hrun]
    simp only [Outcome.ok_bind, hcommitments, hshares, List.map_map]
    rfl
  · rw [List.length_map, ← hall.length_eq, List.length_range]
  · intro g hg
    obtain ⟨dkg, -, rfl⟩ := List.mem_map.mp hg
    exact Horner.length_combine _ _ _ _

/-! ### Where the run aborts -/

/-- With a zero threshold the first inner dealer is not built. -/
lemma newDealers_eq_panic {innerN : UInt32} (hn : innerN ≠ 0) (rng : Rng S) :
    newDealers (P := P) innerN 0 rng = .panic := by
  obtain ⟨k, ks, hparticipants⟩ := List.exists_cons_of_ne_nil (participants_ne_nil hn)
  have hk : k ≠ 0 := (mem_participants.mp (hparticipants ▸ List.mem_cons_self)).1
  rw [newDealers, hparticipants, Outcome.mapState, Dkg.Dealer.new, Outcome.refuse_of_neg hk,
    Outcome.ok_bind, Outcome.refuse_of_pos rfl]
  rfl

/-- Without inner holders or without coefficients there is nothing to build. -/
lemma exists_interleavedDkg_eq_ok {innerN innerT outerT : UInt32}
    (h : innerN = 0 ∨ innerT ≠ 0 ∨ outerT = 0) (rng : Rng S) :
    ∃ result rng', interleavedDkg (P := P) innerN innerT outerT rng = .ok (result, rng') := by
  by_cases hn : innerN = 0
  · subst hn
    have hdkg : ∀ j ∈ List.range outerT.toNat, ∀ rng : Rng S,
        ∃ (dkg : CoefficientDkg P S) (rng' : Rng S),
          (do let (dealers, rng) ← newDealers 0 innerT rng
              .ok ((⟨UInt32.ofNat j, dealers⟩ : CoefficientDkg P S), rng) : Outcome Error _)
            = .ok (dkg, rng') ∧ dkg.dealers = [] :=
      fun j _ rng => ⟨⟨UInt32.ofNat j, []⟩, rng, rfl, rfl⟩
    obtain ⟨dkgs, rng', hrun, hall⟩ := Outcome.exists_mapState_eq_ok hdkg rng
    have hcommitments : dkgs.mapM coefficientCommitment = .ok (dkgs.map fun _ => (0 : P)) := by
      refine Outcome.mapM_eq_ok_map fun dkg hmem => ?_
      obtain ⟨j, -, hdealers⟩ := Outcome.exists_of_forall₂ hall.flip hmem
      rw [coefficientCommitment, hdealers]
      rfl
    refine ⟨([], dkgs.map fun _ => 0), rng', ?_⟩
    rw [interleavedDkg, hrun]
    simp only [Outcome.ok_bind, hcommitments]
    rfl
  · by_cases ht : innerT = 0
    · obtain rfl : outerT = 0 := (h.resolve_left hn).resolve_left (not_not.mpr ht)
      have hshares : ((participants innerN).mapM fun k => do
          let coefficientShares ← ([] : List (CoefficientDkg P S)).mapM (coefficientShare k)
          .ok (⟨k, coefficientShares⟩ : InnerShare S) : Outcome Error _)
          = .ok ((participants innerN).map fun k => ⟨k, []⟩) :=
        Outcome.mapM_eq_ok_map fun k _ => rfl
      refine ⟨((participants innerN).map fun k => ⟨k, []⟩, []), rng, ?_⟩
      change (do
        let innerShares ← _
        .ok ((innerShares, ([] : List P)), rng) : Outcome Error _) = _
      rw [hshares, Outcome.ok_bind]
    · obtain ⟨polynomials, rng', hdkg, -⟩ := interleavedDkg_eq_ok (P := P) hn ht outerT rng
      exact ⟨_, rng', hdkg⟩

/-- The interleaved key generation aborts exactly when it has to build a dealer with a zero
threshold. -/
lemma interleavedDkg_ne_panic_iff (innerN innerT outerT : UInt32) (rng : Rng S) :
    interleavedDkg (P := P) innerN innerT outerT rng ≠ .panic ↔
      innerN = 0 ∨ innerT ≠ 0 ∨ outerT = 0 := by
  constructor
  · intro hrun
    by_contra! hbad
    obtain ⟨hn, rfl, houter⟩ := hbad
    obtain ⟨m, hm⟩ := Nat.exists_eq_add_one_of_ne_zero (toNat_ne_zero_iff.mpr houter)
    rw [interleavedDkg, hm, List.range_succ_eq_map, Outcome.mapState,
      newDealers_eq_panic hn] at hrun
    exact hrun rfl
  · intro h
    obtain ⟨result, rng', hrun⟩ := exists_interleavedDkg_eq_ok (P := P) h rng
    simp [hrun]

/-! ### Splits -/

/-- What a split hands out, and the commitment that comes with it. -/
lemma splitEvaluationForInner_eq (evaluation : S) (innerN innerT : UInt32) (rng : Rng S) :
    ∃ commitment : DealerCommitment P,
      commitment.coefficients
        = (evaluation :: rng.take (innerT.toNat - 1)).map (fun a => a • generator) ∧
      splitEvaluationForInner evaluation innerN innerT rng
        = .ok (((participants innerN).map fun k => (k, Horner.horner (fromU32 k : S)
            (evaluation :: rng.take (innerT.toNat - 1))), commitment),
          rng.drop (innerT.toNat - 1)) := by
  have hlt : innerT.toNat < 2 ^ 32 := innerT.toNat_lt
  have hlen : (evaluation :: rng.take (innerT.toNat - 1)).length < 2 ^ 58 := by
    rw [List.length_cons, Stream'.length_take]
    omega
  obtain ⟨hfits, hcommit⟩ := DealerCommitment.fromPolynomial_eq_ok (P := P)
    (show (1 : UInt32) ≠ 0 by decide) (List.cons_ne_nil evaluation (rng.take (innerT.toNat - 1)))
    hlen
  refine ⟨⟨1, _, hfits⟩, rfl, ?_⟩
  simp only [splitEvaluationForInner, Rng.randoms, hcommit, Outcome.expect, Outcome.ok_bind,
    evalPowers_eq_horner]

/-- **A split succeeds**, into the values of a polynomial with the evaluation as its constant
term, and a commitment to it. -/
theorem splitEvaluationForInner_eq_ok (evaluation : S) (innerN : UInt32) {innerT : UInt32}
    (ht : innerT ≠ 0) (rng : Rng S) :
    ∃ (coefficients : List S) (commitment : DealerCommitment P) (rng' : Rng S),
      splitEvaluationForInner evaluation innerN innerT rng = .ok (((participants innerN).map
        fun k => (k, Horner.horner (fromU32 k : S) coefficients), commitment), rng') ∧
      coefficients.length = innerT.toNat ∧ Horner.horner (0 : S) coefficients = evaluation ∧
      commitment.coefficients = coefficients.map fun a => a • generator := by
  obtain ⟨commitment, hcommit, hsplit⟩ :=
    splitEvaluationForInner_eq (P := P) evaluation innerN innerT rng
  refine ⟨_, commitment, _, hsplit, ?_, by rw [Horner.horner_zero]; rfl, hcommit⟩
  have htoNat := toNat_ne_zero_iff.mpr ht
  rw [List.length_cons, Stream'.length_take]
  omega

/-! ### Any quorum interpolates -/

/-- An outer participant with its evaluation, and the generator it splits it with. -/
structure OuterEvaluation (S : Type) where
  participant : UInt32
  evaluation : S
  rng : Rng S

omit [CurvePoint P S] in
/-- A combined share is the sum of the value of the holder's shares and of its pieces. -/
lemma combineShares_eq (k p : UInt32) (cs : List S) (pieces : List (UInt32 × S)) :
    combineShares ⟨k, cs⟩ p pieces
      = Horner.horner (fromU32 p : S) cs + (pieces.map Prod.snd).sum := by
  have hfold : ∀ init : S, pieces.foldl (fun result p => result + p.2) init
      = init + (pieces.map Prod.snd).sum := by
    induction pieces with
    | nil => simp
    | cons piece pieces ih =>
      intro init
      rw [List.foldl_cons, ih, List.map_cons, List.sum_cons, add_assoc]
  rw [combineShares, hfold, InnerShare.evalAt, evalPowers_eq_horner]

omit [CurvePoint P S] in
/-- A holder that has one piece of every split holds the values of the split polynomials. -/
lemma map_snd_pieces {outer : List (OuterEvaluation S)} {pieces : List (UInt32 × S)}
    {holders : List UInt32} {coefficients : OuterEvaluation S → List S} {k : UInt32}
    (h : List.Forall₂ (fun o piece => piece.1 = o.participant ∧
      (k, piece.2) ∈ holders.map fun k => (k, Horner.horner (fromU32 k : S) (coefficients o)))
      outer pieces) :
    pieces.map Prod.snd = (outer.map coefficients).map (Horner.horner (fromU32 k : S)) := by
  rw [List.map_map, ← List.forall₂_eq_eq_eq, List.forall₂_map_left_iff,
    List.forall₂_map_right_iff]
  refine h.flip.imp fun piece o hpiece => ?_
  obtain ⟨k', -, hpair⟩ := List.mem_map.mp hpiece.2
  obtain ⟨rfl, hvalue⟩ := Prod.mk.inj hpair
  exact hvalue.symm

omit [CurvePoint P S] in
/-- The combined shares of a quorum interpolate to the combined constant terms. -/
lemma sum_lagrangeCoeff_mul_combine (hinj : Function.Injective (fromU32 : UInt32 → S))
    {quorum : List UInt32} (hnd : quorum.Nodup) {polynomials splits : List (List S)}
    (hpolynomials : ∀ g ∈ polynomials, g.length ≤ quorum.length)
    (hsplits : ∀ g ∈ splits, g.length ≤ quorum.length) (y : S) :
    (quorum.map fun k => lagrangeCoeff quorum k *
      (Horner.horner y (polynomials.map (Horner.horner (fromU32 k : S)))
        + (splits.map (Horner.horner (fromU32 k : S))).sum)).sum
      = Horner.horner y (polynomials.map (Horner.horner (0 : S)))
        + (splits.map (Horner.horner (0 : S))).sum := by
  have hzero : ∀ g : List S, g.length ≤ quorum.length →
      (quorum.map fun k => (lagrangeCoeff quorum k : S) • Horner.horner (fromU32 k : S) g).sum
        = Horner.horner (0 : S) g := by
    intro g hg
    simp only [smul_eq_mul]
    exact sum_lagrangeCoeff_mul hinj hnd hg fun _ _ => rfl
  have hall : ∀ (z : S) (gs : List (List S)), (∀ g ∈ gs, g.length ≤ quorum.length) →
      (quorum.map fun k => (lagrangeCoeff quorum k : S) •
        Horner.horner z (gs.map (Horner.horner (fromU32 k : S)))).sum
        = Horner.horner z (gs.map (Horner.horner (0 : S))) := by
    intro z gs hgs
    have hvalue : gs.map (Horner.horner (0 : S)) = gs.map fun g => (quorum.map fun k =>
        (lagrangeCoeff quorum k : S) • Horner.horner (fromU32 k : S) g).sum :=
      List.map_congr_left fun g hg => (hzero g (hgs g hg)).symm
    rw [hvalue]
    exact Horner.sum_smul_horner quorum (lagrangeCoeff quorum) z gs
      fun (g : List S) (k : UInt32) => (Horner.horner (fromU32 k : S) g : S)
  -- the pieces are added up, which is evaluation at one
  rw [← Horner.horner_one (R := S) (splits.map (Horner.horner (0 : S))), ← hall y _ hpolynomials,
    ← hall 1 _ hsplits, ← List.sum_map_add]
  simp only [Horner.horner_one, smul_eq_mul, mul_add]

/-- **The interleaved key generation yields usable shares.**  It succeeds; its commitments are
to scalars `a_j`; every split of an outer evaluation succeeds and its pieces verify; and the
combined shares of any quorum of `innerT` holders interpolate to the value of the polynomial
`a` at the nested position plus the outer evaluations. -/
theorem interleaved_shares_interpolate [PrimeOrder P] {innerN innerT : UInt32} (hn : innerN ≠ 0)
    (ht : innerT ≠ 0) (outerT p : UInt32) (rng : Rng S) (outer : List (OuterEvaluation S)) :
    ∃ (shares : List (InnerShare S)) (commitments : List P) (rng' : Rng S) (a : List S)
      (split : OuterEvaluation S → List (UInt32 × S) × DealerCommitment P),
      interleavedDkg innerN innerT outerT rng = .ok ((shares, commitments), rng') ∧
      shares.map InnerShare.holderIndex = participants innerN ∧
      a.length = outerT.toNat ∧ commitments = a.map (fun aj => aj • (generator : P)) ∧
      (∀ o ∈ outer,
        (∃ rng'', splitEvaluationForInner o.evaluation innerN innerT o.rng
          = .ok (split o, rng'')) ∧
        (split o).1.map Prod.fst = participants innerN ∧
        ∀ piece ∈ (split o).1, verifySplitPiece (split o).2 piece.1 piece.2 = true) ∧
      ∀ quorum : List UInt32, quorum.Nodup → (∀ k ∈ quorum, k ∈ participants innerN) →
        innerT.toNat ≤ quorum.length →
        ∃ mus, computeLagrangeCoefficients quorum = .ok mus ∧
          ∀ (share : UInt32 → InnerShare S) (pieces : UInt32 → List (UInt32 × S)),
            (∀ k ∈ quorum, share k ∈ shares ∧ (share k).holderIndex = k) →
            (∀ k ∈ quorum, List.Forall₂ (fun o piece => piece.1 = o.participant ∧
              (k, piece.2) ∈ (split o).1) outer (pieces k)) →
            ((quorum.zip mus).map fun q =>
              q.2 * combineShares (share q.1) p (pieces q.1)).sum
              = ∑ j ∈ Finset.range outerT.toNat, a.getD j 0 * (fromU32 p : S) ^ j
                + (outer.map OuterEvaluation.evaluation).sum := by
  obtain ⟨polynomials, rng', hdkg, hlength, hpolynomials⟩ :=
    interleavedDkg_eq_ok (P := P) hn ht outerT rng
  choose coefficients commitment rng'' hsplit hlen hzero hcommit using
    fun o : OuterEvaluation S => splitEvaluationForInner_eq_ok (P := P) o.evaluation innerN ht o.rng
  refine ⟨_, _, rng', polynomials.map (Horner.horner (0 : S)), fun o => ((participants innerN).map
    fun k => (k, Horner.horner (fromU32 k : S) (coefficients o)), commitment o), hdkg, ?_, ?_, ?_,
    fun o _ => ⟨⟨rng'' o, hsplit o⟩, ?_, ?_⟩, ?_⟩
  · rw [List.map_map]
    exact List.map_id' _
  · rw [List.length_map, hlength]
  · rw [List.map_map]
    rfl
  · rw [List.map_map]
    exact List.map_id' _
  · intro piece hpiece
    obtain ⟨k, hk, rfl⟩ := List.mem_map.mp hpiece
    refine DealerCommitment.verifySubshare_iff.mpr ⟨(mem_participants.mp hk).1, ?_⟩
    rw [hcommit]
    exact Sharing.isShare_map_smul _ _
  · intro quorum hnd hholders henough
    have hinj := fromU32_injective P
    have hpos := toNat_ne_zero_iff.mpr ht
    have hvalid : ValidIndices quorum := ⟨List.length_pos_iff.mp (by omega),
      fun h0 => (mem_participants.mp (hholders 0 h0)).1 rfl, hnd⟩
    refine ⟨_, computeLagrangeCoefficients_eq hinj hvalid, fun share pieces hshare hpieces => ?_⟩
    -- what a holder of the quorum combines is a sum of values of the polynomials
    have hcombine : ∀ k ∈ quorum, combineShares (share k) p (pieces k)
        = Horner.horner (fromU32 p : S) (polynomials.map (Horner.horner (fromU32 k : S)))
          + ((outer.map coefficients).map (Horner.horner (fromU32 k : S))).sum := by
      intro k hk
      obtain ⟨hmem, hindex⟩ := hshare k hk
      obtain ⟨k', -, hk'⟩ := List.mem_map.mp hmem
      obtain rfl : k' = k := by rw [← hindex, ← hk']
      rw [← hk', combineShares_eq, map_snd_pieces (hpieces k' hk)]
    have hsplits : ∀ g ∈ outer.map coefficients, g.length ≤ quorum.length := by
      intro g hg
      obtain ⟨o, -, rfl⟩ := List.mem_map.mp hg
      exact (hlen o).le.trans henough
    have hsum := sum_lagrangeCoeff_mul_combine hinj hnd
      (fun g hg => (hpolynomials g hg).le.trans henough) hsplits (fromU32 p : S)
    rw [zip_map_self, List.map_map, List.map_congr_left fun k hk => by
      rw [Function.comp_apply, hcombine k hk], hsum]
    congr 1
    · rw [Horner.horner_eq_sum _ (by rw [List.length_map, hlength])]
      exact Finset.sum_congr rfl fun j _ => mul_comm _ _
    · rw [List.map_map]
      exact congrArg List.sum (List.map_congr_left fun o _ => hzero o)

end Interleaved

namespace Reference

/-- What the outer participants 1 and 3 send to the nested position. -/
def outerEvaluations : List (OuterEvaluation Residue) :=
  [⟨1, ((7 : ℕ) : Residue), Stream'.const 1⟩, ⟨3, ((8 : ℕ) : Residue), fun n => (n : Residue)⟩]

end Reference

open Reference in
/-- Two holders, both of them needed, share a line, and interpolate its value at 2 together with
what two outer participants sent. -/
theorem interleaved_line_interpolates : ∃ (shares : List (InnerShare Residue))
    (commitments : List Residue) (rng' : Rng Residue) (a mus : List Residue)
    (split : OuterEvaluation Residue → List (UInt32 × Residue) × DealerCommitment Residue)
    (share : UInt32 → InnerShare Residue) (pieces : UInt32 → List (UInt32 × Residue)),
    interleavedDkg 2 2 2 (fun n => (n : Residue)) = .ok ((shares, commitments), rng') ∧
    commitments = a.map (fun aj => aj • (generator : Residue)) ∧
    (∀ o ∈ outerEvaluations,
      (∃ rng'', splitEvaluationForInner o.evaluation 2 2 o.rng = .ok (split o, rng'')) ∧
      ∀ piece ∈ (split o).1, verifySplitPiece (split o).2 piece.1 piece.2 = true) ∧
    computeLagrangeCoefficients [1, 2] = .ok mus ∧
    (∀ k ∈ [1, 2], share k ∈ shares ∧ (share k).holderIndex = k) ∧
    (∀ k ∈ [1, 2], List.Forall₂ (fun o piece => piece.1 = o.participant ∧
      (k, piece.2) ∈ (split o).1) outerEvaluations (pieces k)) ∧
    (([1, 2].zip mus).map fun q => q.2 * combineShares (share q.1) 2 (pieces q.1)).sum
      = ∑ j ∈ Finset.range 2, a.getD j 0 * (fromU32 2 : Residue) ^ j
        + (((7 : ℕ) : Residue) + ((8 : ℕ) : Residue)) := by
  obtain ⟨shares, commitments, rng', a, split, hdkg, hindices, -, hcommitments, hsplit, hquorum⟩ :=
    interleaved_shares_interpolate (P := Residue) (show (2 : UInt32) ≠ 0 by decide)
      (show (2 : UInt32) ≠ 0 by decide) 2 2 (fun n => (n : Residue)) outerEvaluations
  have hholders : ∀ k ∈ [1, 2], k ∈ participants 2 := by simp [mem_participants]
  obtain ⟨mus, hmus, hsum⟩ := hquorum [1, 2] (by decide) hholders (by decide)
  -- every holder has a share, and a piece of every evaluation
  have hshares : ∀ k ∈ [1, 2], ∃ share ∈ shares, share.holderIndex = k := fun k hk =>
    List.mem_map.mp (hindices ▸ hholders k hk)
  have hpieces : ∀ k ∈ [1, 2], ∃ pieces : List (UInt32 × Residue), List.Forall₂ (fun o piece =>
      piece.1 = o.participant ∧ (k, piece.2) ∈ (split o).1) outerEvaluations pieces := by
    intro k hk
    have hpiece : ∀ o ∈ outerEvaluations, ∃ value, (k, value) ∈ (split o).1 := by
      intro o ho
      obtain ⟨-, hfst, -⟩ := hsplit o ho
      obtain ⟨⟨_, value⟩, hmem, rfl⟩ := List.mem_map.mp (hfst ▸ hholders k hk)
      exact ⟨value, hmem⟩
    choose! value hvalue using hpiece
    refine ⟨outerEvaluations.map fun o => (o.participant, value o), ?_⟩
    exact List.forall₂_map_right_iff.mpr (List.forall₂_same.mpr fun o ho => ⟨rfl, hvalue o ho⟩)
  have : Nonempty (InnerShare Residue) := ⟨⟨0, []⟩⟩
  choose! share hshare using hshares
  choose! pieces hpieces using hpieces
  refine ⟨shares, commitments, rng', a, mus, split, share, pieces, hdkg, hcommitments,
    fun o ho => ⟨(hsplit o ho).1, (hsplit o ho).2.2⟩, hmus, hshare, hpieces, ?_⟩
  rw [hsum share pieces hshare hpieces]
  simp [outerEvaluations]

end Frostito
