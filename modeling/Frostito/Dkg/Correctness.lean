import Frostito.Dkg.Aggregator

/-!
# Key generation is correct against malicious dealers

Three computations have to meet: the sum of the scalars a player collected, the evaluation
of the commitments in the exponent by the round state, and the interpolation of any large
enough set of finished shares.  All three are about one sharing, the coefficientwise sum of
the agreed commitments, whatever the dealers put into these.
-/

namespace Frostito.Dkg

section Correctness

variable {S P : Type} [CurveScalar S] [CurvePoint P S] [Sha2]

/-- The agreed set of a complete reachable state is valid. -/
lemma validAgreed_of_agreedRound1 {s : DkgState P} (h : s.Inv) {agreed : AgreedRound1 P}
    (ha : s.agreedRound1 = .ok agreed) : ValidAgreed agreed := by
  obtain ⟨-, rfl⟩ := h.agreedRound1_eq_ok_iff.mp ha
  exact ⟨h.pairwise_commitments, fun c hc => (h.accepted c hc).ne_zero,
    fun c hc => h.coefficients_ne_nil hc⟩

/-- Every commitment in a state was submitted. -/
lemma exists_submit_of_mem_commitments {epoch : UInt64} {threshold n : UInt32}
    {calls : List (DkgCall P S)} :
    ∀ c ∈ (DkgState.reach epoch threshold n calls).commitments.reduceOption,
      ∃ package, .submit package ∈ calls ∧ package.commitment = c := by
  refine Calls.run_invariant (I := fun s : DkgState P => ∀ c ∈ s.commitments.reduceOption,
    ∃ package, .submit package ∈ calls ∧ package.commitment = c) ?_ ?_
  · simp [DkgState.new]
  · intro call hcall s hs c hc
    cases call with
    | submit package =>
      rcases DkgState.submitCommitment_cases s package with ⟨idx, -, hs'⟩ | ⟨hs', -⟩
      all_goals rw [DkgState.call, hs'] at hc
      · rcases Slots.mem_reduceOption_set hc with heq | hc
        · exact ⟨package, hcall, Option.some.inj heq⟩
        · exact hs c hc
      · exact hs c hc
    | disqualify i =>
      rcases DkgState.disqualify_cases s i with ⟨idx, -, -, hs'⟩ | ⟨-, hs'⟩
      all_goals rw [DkgState.call, hs'] at hc
      · rcases Slots.mem_reduceOption_set hc with heq | hc
        · exact absurd heq (by simp)
        · exact hs c hc
      · exact hs c hc

/-- Commitments with fewer than `2 ^ 32` coefficients have as many as the threshold. -/
lemma length_coefficients {epoch : UInt64} {threshold n : UInt32} {calls : List (DkgCall P S)}
    (hfit : ∀ package, .submit package ∈ calls →
      package.commitment.coefficients.length < 2 ^ 32)
    {c : DealerCommitment P}
    (hc : c ∈ (DkgState.reach epoch threshold n calls).commitments.reduceOption) :
    c.coefficients.length = threshold.toNat := by
  obtain ⟨package, hcall, rfl⟩ := exists_submit_of_mem_commitments c hc
  have hthr := ((DkgState.inv_reach epoch threshold n calls).accepted _ hc).threshold_eq
  have hparam : (DkgState.reach epoch threshold n calls).threshold = threshold :=
    congrArg (fun p => p.2.1) (DkgState.params_reach epoch threshold n calls)
  rw [hparam, DealerCommitment.threshold] at hthr
  rw [← hthr, UInt32.toNat_ofNat_of_lt' (hfit package hcall)]

/-- The sharing the ceremony produces: the coefficientwise sum of the agreed
commitments. -/
def groupSharing (threshold : UInt32) (agreed : AgreedRound1 P) : List P :=
  Horner.combine threshold.toNat agreed.commitments (fun _ => (1 : S))
    DealerCommitment.coefficients

omit [Sha2] in
lemma horner_groupSharing {threshold : UInt32} {agreed : AgreedRound1 P}
    (hlen : ∀ c ∈ agreed.commitments, c.coefficients.length = threshold.toNat) (x : S) :
    Horner.horner x (groupSharing threshold agreed)
      = (agreed.commitments.map fun c => Horner.horner x c.coefficients).sum := by
  rw [groupSharing, Horner.horner_combine _ _ _ _ _ fun c hc => (hlen c hc).le]
  simp only [one_smul]

omit [Sha2] in
lemma headD_groupSharing {threshold : UInt32} (ht : threshold ≠ 0) (agreed : AgreedRound1 P) :
    (groupSharing threshold agreed).headD 0
      = (agreed.commitments.map fun c => c.coefficients.headD 0).sum := by
  rw [groupSharing, Sharing.headD_combine (Nat.pos_of_ne_zero (toNat_ne_zero_iff.mpr ht))]
  simp only [one_smul]

/-- **Key generation is correct, whatever the dealers commit to and deliver.**  A player
finishes exactly when a valid sub-share of every agreed dealer was delivered; its share is
the discrete logarithm of its verification share and its group key is the state's; and the
shares of any `threshold` distinct players combine to the discrete logarithm of that
key. -/
theorem finalize_correct [PrimeOrder P] {epoch : UInt64} {threshold n : UInt32}
    (ht : threshold ≠ 0) {calls : List (DkgCall P S)}
    (hfit : ∀ package, .submit package ∈ calls →
      package.commitment.coefficients.length < 2 ^ 32)
    {agreed : AgreedRound1 P}
    (hagreed : (DkgState.reach epoch threshold n calls).agreedRound1 = .ok agreed) :
    (∀ (j : UInt32) (a : Aggregator P S) (deliveries : List (SubShare S)),
      Aggregator.fromAgreed j agreed = .ok a →
        ((∃ share, (Calls.run (Aggregator.deliver agreed) a deliveries).finalize = .ok share) ↔
          ∀ i ∈ agreed.dealerSet, ∃ s ∈ deliveries,
            s.dealerIndex = i ∧ ValidDelivery agreed j s) ∧
        ∀ share, (Calls.run (Aggregator.deliver agreed) a deliveries).finalize = .ok share →
          (DkgState.reach epoch threshold n calls).deriveVerificationShare j
            = .ok (share • generator) ∧
          ∃ key, (Calls.run (Aggregator.deliver agreed) a deliveries).deriveGroupKey = .ok key ∧
            (DkgState.reach epoch threshold n calls).deriveGroupKey = .ok key) ∧
    (∀ (players : List UInt32) (share : UInt32 → S), players.Nodup →
      threshold.toNat ≤ players.length →
      (∀ j ∈ players, ∃ a deliveries, Aggregator.fromAgreed j agreed = .ok a ∧
        (Calls.run (Aggregator.deliver agreed) a deliveries).finalize = .ok (share j)) →
      ∃ secret, reconstruct (players.map fun j => (j, share j)) = .ok secret ∧
        (DkgState.reach epoch threshold n calls).deriveGroupKey
          = .ok (secret • generator)) := by
  have hinv := DkgState.inv_reach (P := P) epoch threshold n calls
  have hvalid := validAgreed_of_agreedRound1 hinv hagreed
  obtain ⟨hcomplete, hset⟩ := hinv.agreedRound1_eq_ok_iff.mp hagreed
  have hcs : (DkgState.reach epoch threshold n calls).commitments.reduceOption
      = agreed.commitments := by rw [hset]
  have hkey : (DkgState.reach epoch threshold n calls).deriveGroupKey
      = .ok (agreed.commitments.map fun c => c.coefficients.headD 0).sum := by
    rw [hinv.deriveGroupKey_eq hcomplete, DkgState.sharings, hcs, List.map_map]
    rfl
  -- a threshold is a length cut down to 32 bits, and these lengths fit
  have hlen : ∀ c ∈ agreed.commitments, c.coefficients.length = threshold.toNat := by
    intro c hc
    rw [← hcs] at hc
    exact length_coefficients hfit hc
  refine ⟨fun j a deliveries ha => ⟨finalize_run_iff hvalid ha deliveries, ?_⟩, ?_⟩
  · intro share hfin
    obtain ⟨hj, hshare, hgroup⟩ := finalize_run hvalid ha hfin
    refine ⟨?_, _, hgroup, hkey⟩
    rw [DkgState.deriveVerificationShare_eq hcomplete hj, DkgState.sharings, hcs, List.map_map,
      hshare]
    rfl
  · -- the shares of the players lie on the sum of the dealers' polynomials
    intro players share hnd hmany hshares
    have hpos := toNat_ne_zero_iff.mpr ht
    have hindices : ValidIndices players := by
      refine ⟨List.length_pos_iff.mp (by omega), fun h0 => ?_, hnd⟩
      obtain ⟨a, deliveries, ha, hfin⟩ := hshares 0 h0
      exact (finalize_run hvalid ha hfin).1 rfl
    have hshare : ∀ j ∈ players,
        Sharing.IsShare (generator : P) (groupSharing threshold agreed) (fromU32 j)
          (share j) := by
      intro j hj
      obtain ⟨a, deliveries, ha, hfin⟩ := hshares j hj
      rw [Sharing.IsShare, horner_groupSharing hlen]
      exact (finalize_run hvalid ha hfin).2.1
    obtain ⟨secret, hsecret, hsmul⟩ := reconstruct_of_isShare (fromU32_injective P) hindices
      (by simpa [groupSharing] using hmany) hshare
    exact ⟨secret, hsecret, by rw [hkey, hsmul, headD_groupSharing ht]⟩

end Correctness

open Reference in
/-- Player 3 receives `f_2(3) = 12` and then `f_1(3) = 8` from the dealers of `5 + x` and
`6 + 2x`, and finishes with the discrete logarithm of its verification share. -/
theorem finalize_packages :
    ∃ a : Aggregator Residue Residue, Aggregator.fromAgreed 3 agreed = .ok a ∧
      ∃ share : Residue,
        (Calls.run (Aggregator.deliver agreed) a [⟨2, 3, 12⟩, ⟨1, 3, 8⟩]).finalize
          = .ok share ∧
        (DkgState.reach 7 2 2 (packages.map .submit)).deriveVerificationShare 3
          = .ok (share • (generator : Residue)) := by
  have hfit : ∀ package, .submit package ∈ packages.map DkgCall.submit →
      package.commitment.coefficients.length < 2 ^ 32 := by
    intro package hmem
    have hpackage : package ∈ packages := by simpa using hmem
    have hlen : ∀ p ∈ packages, p.commitment.coefficients.length = 2 := by
      simp [packages, linePackage, Round1Package.ofPolynomial]
    rw [hlen package hpackage]
    norm_num
  have hindices : ValidIndices agreed.dealerSet := ⟨by simp [agreed, packages,
    AgreedRound1.dealerSet], by decide, by decide⟩
  have ha : Aggregator.fromAgreed 3 agreed
      = .ok (⟨3, agreed.dealerSet.insertionSort (· ≤ ·), [], []⟩ : Aggregator Residue Residue) :=
    Aggregator.new_eq_ok_iff.mpr ⟨by decide, hindices, rfl⟩
  have hcorrect := (finalize_correct (by decide) hfit agreedRound1_packages).1 3 _
    [⟨2, 3, 12⟩, ⟨1, 3, 8⟩] ha
  have hdelivered : ∀ i ∈ agreed.dealerSet, ∃ s ∈ [(⟨2, 3, 12⟩ : SubShare Residue), ⟨1, 3, 8⟩],
      s.dealerIndex = i ∧ ValidDelivery agreed 3 s := by
    have hx : (fromU32 3 : Residue) = 3 := rfl
    have h1 : Horner.horner (3 : Residue) ([5, 1] : List Residue) = 8 := by
      simp only [Horner.horner_cons, Horner.horner_nil, smul_eq_mul]
      norm_num
    have h2 : Horner.horner (3 : Residue) ([6, 2] : List Residue) = 12 := by
      simp only [Horner.horner_cons, Horner.horner_nil, smul_eq_mul]
      norm_num
    intro i hi
    rcases List.mem_cons.mp hi with rfl | hi
    · refine ⟨⟨1, 3, 8⟩, by simp, rfl, rfl, _, rfl,
        DealerCommitment.verifySubshare_iff.mpr ⟨by decide, ?_⟩⟩
      rw [hx, ← h1]
      exact Sharing.isShare_map_smul 3 [5, 1]
    · obtain rfl := List.mem_singleton.mp hi
      refine ⟨⟨2, 3, 12⟩, by simp, rfl, rfl, _, rfl,
        DealerCommitment.verifySubshare_iff.mpr ⟨by decide, ?_⟩⟩
      rw [hx, ← h2]
      exact Sharing.isShare_map_smul 3 [6, 2]
  obtain ⟨share, hshare⟩ := hcorrect.1.mpr hdelivered
  exact ⟨_, ha, share, hshare, (hcorrect.2 share hshare).1⟩

end Frostito.Dkg
