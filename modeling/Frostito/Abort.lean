import Frostito.Codec
import Frostito.Dkg.Complaint
import Frostito.Nested.Interleaved
import Frostito.Reshare.Soundness
import Frostito.Reshare.State

/-!
# Where a node aborts

The entry points that take values off the wire return errors, with two exceptions.  A
commitment without coefficients, which the decoder accepts when its caller asks for none,
has no constant term to index; and the interleaved key generation expects its inner
dealers to be built, which a zero threshold refuses.  For every entry point the condition
is exact.
-/

namespace Frostito

variable {S P : Type} [CurveScalar S] [CurvePoint P S]

/-! ### Key generation -/

section Dkg

variable [Sha2]

/-- A submission aborts exactly on a package whose commitment is empty. -/
lemma DkgState.submitCommitment_eq_panic_iff (s : DkgState P) (package : Round1Package P S) :
    (s.submitCommitment package).2 = .panic ↔ package.commitment.coefficients = [] := by
  rw [submitCommitment, Outcome.runIn_eq_panic_iff, recordPackage, Outcome.bind_eq_panic_iff,
    Round1Package.verify_eq_panic_iff, or_iff_left]
  rintro ⟨_, -, hrest⟩
  revert hrest
  refine Outcome.refuse_bind_ne_panic fun _ => ?_
  refine Outcome.okOr_bind_ne_panic fun idx _ => ?_
  refine Outcome.refuse_bind_ne_panic fun hlen => ?_
  refine Outcome.refuse_bind_ne_panic fun _ => ?_
  -- the position was compared with the number of slots
  refine Outcome.expectSome_getElem?_bind_ne_panic (not_le.mp hlen) fun slot => ?_
  split <;> simp

namespace Complaint

variable {c : Complaint P S} {agreed : Option (AgreedRound1 P)}

/-- Adjudication aborts exactly on a package of the accused whose commitment is empty. -/
lemma adjudicate_eq_panic_iff : c.adjudicate agreed = .panic ↔
    ∃ package, c.evidence = .forgedProofOfKnowledge package ∧
      package.dealerIndex = c.accusedIndex ∧ package.commitment.coefficients = [] := by
  cases hevidence : c.evidence with
  | forgedProofOfKnowledge package =>
    have hverify : package.verify c.epoch = .panic ↔ package.commitment.coefficients = [] :=
      Round1Package.verify_eq_panic_iff c.epoch
    rw [adjudicate, hevidence]
    dsimp only
    split
    · next hne => simp [hne]
    · next heq =>
      rw [not_not] at heq
      cases hv : package.verify c.epoch <;> simp_all
  | badSubShare evidence =>
    rw [adjudicate, hevidence]
    simp only [reduceCtorEq, false_and, exists_false, iff_false]
    refine Outcome.refuse_bind_ne_panic fun _ => ?_
    refine Outcome.okOr_bind_ne_panic fun a _ => ?_
    refine Outcome.refuse_bind_ne_panic fun _ => ?_
    refine Outcome.okOr_bind_ne_panic fun commitment _ => ?_
    refine Outcome.refuse_bind_ne_panic fun _ => ?_
    refine Outcome.okOr_bind_ne_panic fun scalar _ => ?_
    split <;> simp

/-- A complaint aborts its verifier exactly when it is authentic and carries a package
whose commitment is empty. -/
lemma verify_eq_panic_iff {epoch : UInt64} {sessionId : Vector UInt8 32} {pubkey : P} :
    c.verify epoch sessionId pubkey agreed = .panic ↔ c.Authentic epoch sessionId pubkey ∧
      ∃ package, c.evidence = .forgedProofOfKnowledge package ∧
        package.commitment.coefficients = [] := by
  simp only [verify, Outcome.bind_eq_panic_iff, Outcome.refuse_eq_ok_iff, not_or, not_not,
    Outcome.refuse_ne_panic, false_or, adjudicate_eq_panic_iff]
  constructor
  · rintro ⟨_, ⟨hepoch, hsession⟩, _, ⟨haccuser, haccused, hindex⟩, _, hsig, package, hevidence,
      -, hempty⟩
    exact ⟨⟨hepoch, hsession, haccuser, haccused, hindex, hsig⟩, package, hevidence, hempty⟩
  · rintro ⟨⟨hepoch, hsession, haccuser, haccused, hindex, hsig⟩, package, hevidence, hempty⟩
    refine ⟨(), ⟨hepoch, hsession⟩, (), ⟨haccuser, haccused, hindex⟩, (), hsig, package,
      hevidence, ?_, hempty⟩
    rw [hindex, hevidence]
    rfl

end Complaint

end Dkg

/-! ### Resharing -/

namespace Reshare

lemma ReshareState.submitCommitment_ne_panic [Sha2] (s : ReshareState P)
    (commitment : DealerCommitment P) (proof : ProofOfKnowledge P S) :
    (s.submitCommitment commitment proof).2 ≠ .panic := by
  rw [submitCommitment, Ne, Outcome.runIn_eq_panic_iff, recordCommitment]
  refine Outcome.refuse_bind_ne_panic fun _ => ?_
  refine Outcome.okOr_bind_ne_panic fun idx _ => ?_
  refine Outcome.refuse_bind_ne_panic fun hlen => ?_
  refine Outcome.refuse_bind_ne_panic fun _ => ?_
  refine Outcome.expectSome_getElem?_bind_ne_panic (not_le.mp hlen) fun slot => ?_
  split <;> simp

lemma Aggregator.checkThreshold_ne_panic {S P : Type} (a : Aggregator P S)
    (commitment : DealerCommitment P) : a.checkThreshold commitment ≠ .panic := by
  unfold checkThreshold
  split
  · simp
  · exact Outcome.refuse_ne_panic _ _

lemma Aggregator.addSubshare_ne_panic (a : Aggregator P S) (subshare : SubShare S)
    (commitment : DealerCommitment P) : (a.addSubshare subshare commitment).2 ≠ .panic := by
  rw [addSubshare, Ne, Outcome.runIn_eq_panic_iff, recordSubshare]
  refine Outcome.refuse_bind_ne_panic fun _ => ?_
  refine Outcome.refuse_bind_ne_panic fun _ => ?_
  refine Outcome.refuse_bind_ne_panic fun _ => ?_
  refine Outcome.refuse_bind_ne_panic fun _ => ?_
  refine Outcome.bind_ne_panic (a.checkThreshold_ne_panic commitment) fun _ _ => ?_
  split
  · simp
  · exact Outcome.refuse_bind_ne_panic fun _ => by simp

section Finalize

variable {j : UInt32} {dealerSet : List UInt32} {a : Aggregator P S} (h : Inv j dealerSet a)
  (hinj : Function.Injective (fromU32 : UInt32 → S))
include h hinj

/-- An empty commitment leaves the combination without a constant term. -/
lemma Inv.finalize_eq_panic_of_empty (hcomplete : a.subshares.length = a.dealerSet.length)
    {c : DealerCommitment P} (hc : c ∈ a.commitments) (hempty : c.coefficients = []) (key : P) :
    a.finalize key = .panic := by
  obtain ⟨-, -, -, hthr⟩ := h.exists_dealer hcomplete hc
  cases hpoly : a.polynomial with
  | ok p =>
    obtain ⟨-, -, hcoeffs⟩ := (h.polynomial_eq_ok_iff hinj).mp hpoly
    have hnil : a.combination = [] := by
      rw [← List.length_eq_zero_iff, Aggregator.combination, Horner.length_combine, ← hthr,
        DealerCommitment.threshold, hempty]
      rfl
    rw [Aggregator.finalize, hpoly, Outcome.ok_bind, SharePolynomial.groupKey, hcoeffs,
      hnil]
    rfl
  | err e => exact absurd hpoly (h.polynomial_ne_err hcomplete hinj e)
  | panic => rw [Aggregator.finalize, hpoly, Outcome.panic_bind]

/-- Finalizing aborts exactly when every dealer has delivered and a commitment is empty or
longer than a `u32` counts. -/
lemma Inv.finalize_ne_panic_iff (key : P) : a.finalize key ≠ .panic ↔
    (a.missingDealers = [] → ∀ c ∈ a.commitments,
      c.coefficients ≠ [] ∧ c.coefficients.length < 2 ^ 32) := by
  rw [h.missingDealers_eq_nil_iff]
  constructor
  · intro hfin hcomplete c hc
    refine ⟨fun hempty => hfin (h.finalize_eq_panic_of_empty hinj hcomplete hc hempty key), ?_⟩
    by_contra hlong
    exact hfin (h.finalize_eq_panic hcomplete hinj hc (not_lt.mp hlong) key)
  · intro hgood
    by_cases hcomplete : a.subshares.length = a.dealerSet.length
    · rw [h.finalize_eq hcomplete (fun c hc => (hgood hcomplete c hc).2) hinj
        (fun c hc => (hgood hcomplete c hc).1) key]
      split <;> simp
    · rw [Aggregator.finalize_of_incomplete hcomplete]
      simp

end Finalize

end Reshare

/-! ### All entry points -/

/-- **Where attacker-supplied values abort a node**, entry point by entry point. -/
theorem aborts_iff [Sha2] [PrimeOrder P] :
    (∀ (package : Round1Package P S) (epoch : UInt64),
      package.verify epoch ≠ .panic ↔ package.commitment.coefficients ≠ []) ∧
    (∀ (s : DkgState P) (package : Round1Package P S),
      (s.submitCommitment package).2 ≠ .panic ↔ package.commitment.coefficients ≠ []) ∧
    (∀ (c : Complaint P S) (agreed : Option (AgreedRound1 P)),
      c.adjudicate agreed ≠ .panic ↔ ∀ package, c.evidence = .forgedProofOfKnowledge package →
        package.dealerIndex = c.accusedIndex → package.commitment.coefficients ≠ []) ∧
    (∀ (c : Complaint P S) (epoch : UInt64) (sessionId : Vector UInt8 32) (pubkey : P)
        (agreed : Option (AgreedRound1 P)),
      c.verify epoch sessionId pubkey agreed ≠ .panic ↔ (c.Authentic epoch sessionId pubkey →
        ∀ package, c.evidence = .forgedProofOfKnowledge package →
          package.commitment.coefficients ≠ [])) ∧
    (∀ (s : Reshare.ReshareState P) (commitment : DealerCommitment P)
        (proof : ProofOfKnowledge P S), (s.submitCommitment commitment proof).2 ≠ .panic) ∧
    (∀ (a : Reshare.Aggregator P S) (subshare : SubShare S) (commitment : DealerCommitment P),
      (a.addSubshare subshare commitment).2 ≠ .panic) ∧
    -- the state a run of deliveries reaches, and what the deliveries promise of it
    (∀ (j : UInt32) (dealerSet : List UInt32) (a₀ : Reshare.Aggregator P S),
      Reshare.Aggregator.new j dealerSet = .ok a₀ →
      ∀ (deliveries : List (SubShare S × DealerCommitment P)) (key : P),
        let a := Calls.run Reshare.deliver a₀ deliveries
        (a.finalize key ≠ .panic ↔ (a.missingDealers = [] → ∀ c ∈ a.commitments,
          c.coefficients ≠ [] ∧ c.coefficients.length < 2 ^ 32)) ∧
        ((∀ m ∈ deliveries, m.2.coefficients ≠ [] ∧ m.2.coefficients.length < 2 ^ 32) →
          a.finalize key ≠ .panic)) ∧
    ∀ (innerN innerT outerT : UInt32) (rng : Rng S),
      interleavedDkg (P := P) innerN innerT outerT rng ≠ .panic ↔
        innerN = 0 ∨ innerT ≠ 0 ∨ outerT = 0 := by
  refine ⟨fun package epoch => (Round1Package.verify_eq_panic_iff epoch).not,
    fun s package => (s.submitCommitment_eq_panic_iff package).not, fun c agreed => ?_,
    fun c epoch sessionId pubkey agreed => ?_, Reshare.ReshareState.submitCommitment_ne_panic,
    Reshare.Aggregator.addSubshare_ne_panic, ?_, interleavedDkg_ne_panic_iff⟩
  · simp only [Ne, Complaint.adjudicate_eq_panic_iff, not_exists, not_and]
  · simp only [Ne, Complaint.verify_eq_panic_iff, not_exists, not_and]
  · intro j dealerSet a₀ hnew deliveries key
    have hiff := (Reshare.inv_run (Reshare.inv_new hnew) deliveries).finalize_ne_panic_iff
      (fromU32_injective P) key
    refine ⟨hiff, fun hgood => hiff.mpr fun _ => ?_⟩
    obtain ⟨-, -, rfl⟩ := Reshare.Aggregator.new_eq_ok_iff.mp hnew
    exact Reshare.Aggregator.forall_commitments_run (by simp) hgood

section Empty

open Reference

/-- What a dealer without coefficients broadcasts. -/
def emptyPackage : Round1Package Residue Residue :=
  ⟨.empty 1, ⟨((2 : ℕ) : Residue), ((3 : ℕ) : Residue)⟩⟩

/-- The delivery of a dealer without coefficients. -/
def emptyDelivery : SubShare Residue × DealerCommitment Residue :=
  (⟨1, 1, ((0 : ℕ) : Residue)⟩, .empty 1)

/-- Every entry point returns on what two dealers of lines send; two of them also do on a
commitment without coefficients. -/
theorem aborts_iff_two :
    (linePackage 1 5 1).verify 7 ≠ .panic ∧
    ((DkgState.new 7 2 2).submitCommitment (linePackage 1 5 1)).2 ≠ .panic ∧
    (∀ (c : Complaint Residue Residue) (sessionId : Vector UInt8 32) (pubkey : Residue),
      c.evidence = .forgedProofOfKnowledge (linePackage 1 5 1) →
        c.adjudicate none ≠ .panic ∧ c.verify 7 sessionId pubkey none ≠ .panic) ∧
    ((Reshare.ReshareState.new 7 2 1 1 1 ((5 : ℕ) : Residue)).submitCommitment emptyDelivery.2
      emptyPackage.proofOfKnowledge).2 ≠ .panic ∧
    (Reshare.twoDealers.addSubshare emptyDelivery.1 emptyDelivery.2).2 ≠ .panic ∧
    (∀ key, (Calls.run Reshare.deliver Reshare.twoDealers Reshare.lineDeliveries).finalize key
      ≠ .panic) ∧
    interleavedDkg (P := Residue) 2 1 1 (fun n => (n : Residue)) ≠ .panic := by
  have hne : (linePackage 1 5 1).commitment.coefficients ≠ [] := List.cons_ne_nil _ _
  obtain ⟨hverify, hdkg, hadjudicate, hcomplaint, hreshare, hadd, hfinalize, hinterleaved⟩ :=
    aborts_iff (S := Residue) (P := Residue)
  refine ⟨(hverify _ 7).mpr hne, (hdkg _ _).mpr hne, fun c sessionId pubkey hevidence => ?_,
    hreshare _ _ _, hadd _ _ _, fun key => ?_, (hinterleaved 2 1 1 _).mpr (by decide)⟩
  · have hpackage : ∀ package, c.evidence = .forgedProofOfKnowledge package →
        package.commitment.coefficients ≠ [] := by
      intro package hforged
      obtain rfl := ComplaintEvidence.forgedProofOfKnowledge.inj (hevidence.symm.trans hforged)
      exact hne
    exact ⟨(hadjudicate c none).mpr fun package hforged _ => hpackage package hforged,
      (hcomplaint c 7 sessionId pubkey none).mpr fun _ => hpackage⟩
  · obtain ⟨-, hgood⟩ := hfinalize 1 [1, 2] _ Reshare.new_twoDealers Reshare.lineDeliveries key
    exact hgood (Reshare.forall_lineDeliveries
      (Q := fun c => c.coefficients ≠ [] ∧ c.coefficients.length < 2 ^ 32)
      fun _ _ _ => ⟨List.cons_ne_nil _ _, show 2 < 2 ^ 32 by norm_num⟩)

/-- Four bytes off the wire decode to a commitment that aborts whoever verifies it, and a zero
threshold aborts the interleaved key generation. -/
theorem empty_commitment_aborts :
    DealerCommitment.fromBytes target64 [1, 0, 0, 0] 0
      = .ok (.empty 1 : DealerCommitment Residue) ∧
    emptyPackage.verify 7 = .panic ∧
    ((DkgState.new 7 1 1).submitCommitment emptyPackage).2 = .panic ∧
    (∃ c rng', Complaint.sign 7 (Vector.replicate 32 0) 1 2 (.forgedProofOfKnowledge emptyPackage)
        ((5 : ℕ) : Residue) (fun n => (n : Residue)) = .ok (c, rng') ∧
      c.adjudicate none = .panic ∧
      c.verify 7 (Vector.replicate 32 0) (((5 : ℕ) : Residue) • generator) none = .panic) ∧
    (∃ a, Reshare.Aggregator.new 1 [1] = .ok a ∧
      (Calls.run Reshare.deliver a [emptyDelivery]).finalize ((0 : ℕ) : Residue) = .panic) ∧
    interleavedDkg (P := Residue) 1 0 1 (fun n => (n : Residue)) = .panic := by
  have hcommit : emptyPackage.commitment.coefficients = [] := rfl
  have hindex : (ComplaintEvidence.forgedProofOfKnowledge emptyPackage).accusedIndex ≠ 0 :=
    show (1 : UInt32) ≠ 0 by decide
  refine ⟨DealerCommitment.fromBytes_empty target64 (i := 1) (by decide),
    (Round1Package.verify_eq_panic_iff 7).mpr hcommit,
    (DkgState.submitCommitment_eq_panic_iff _ _).mpr hcommit, ?_, ?_, ?_⟩
  · obtain ⟨c, rng', hsign, -, -, -, -, haccused, hevidence⟩ := Complaint.sign_eq_ok
      (show (2 : UInt32) ≠ 0 by decide) 7 (Vector.replicate 32 0) 1
      (.forgedProofOfKnowledge emptyPackage) ((5 : ℕ) : Residue) (fun n => (n : Residue))
    exact ⟨c, rng', hsign,
      Complaint.adjudicate_eq_panic_iff.mpr ⟨emptyPackage, hevidence, haccused.symm, hcommit⟩,
      Complaint.verify_eq_panic_iff.mpr
        ⟨Complaint.authentic_of_sign hindex hsign, emptyPackage, hevidence, hcommit⟩⟩
  · refine ⟨_, Reshare.new_onlyDealer, ?_⟩
    have hinv := Reshare.inv_run (Reshare.inv_new Reshare.new_onlyDealer) [emptyDelivery]
    have hacc : (⟨1, [1], [], []⟩ : Reshare.Aggregator Residue Residue).Accepts
        emptyDelivery.1 (.empty 1) :=
      ⟨rfl, rfl, show (1 : UInt32) ≠ 0 by decide, List.mem_cons_self, rfl, List.not_mem_nil,
        DealerCommitment.verifySubshare_iff.mpr ⟨show (1 : UInt32) ≠ 0 by decide, by
          simp [Sharing.IsShare, emptyDelivery, DealerCommitment.empty]⟩⟩
    have hrun : Calls.run Reshare.deliver
        (⟨1, [1], [], []⟩ : Reshare.Aggregator Residue Residue) [emptyDelivery]
        = ⟨1, [1], [(1, ((0 : ℕ) : Residue))], [.empty 1]⟩ := by
      rw [Calls.run_cons, Calls.run_nil, Reshare.deliver]
      exact congrArg Prod.fst hacc.addSubshare_eq
    rw [hrun] at hinv ⊢
    exact hinv.finalize_eq_panic_of_empty (fromU32_injective Residue) rfl List.mem_cons_self rfl _
  · by_contra hrun
    exact absurd ((interleavedDkg_ne_panic_iff 1 0 1 _).mp hrun) (by decide)

end Empty

end Frostito
