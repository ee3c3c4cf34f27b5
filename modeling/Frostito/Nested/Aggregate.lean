import Frostito.Nested.Sign

/-!
# Aggregating the inner shares

The shares of the inner quorum are verified one by one before they are added up, and whoever
is at fault is named: a holder outside the quorum or with two shares, a member without one,
and a holder whose share does not verify.  A sum is returned exactly when nobody is.
-/

namespace Frostito

section Aggregate

variable {S P : Type} [CurveScalar S]

/-- `if !bad.contains(&k) { bad.push(k) }`. -/
def nameOnce (bad : List UInt32) (k : UInt32) : List UInt32 :=
  if k ∈ bad then bad else bad ++ [k]

/-- One round over the shares: who is named, and whose shares were seen. -/
def coverShare (activeIndices : List UInt32) (acc : List UInt32 × List UInt32)
    (sig : InnerSignatureShare S) : List UInt32 × List UInt32 :=
  (if sig.holderIndex ∉ activeIndices ∨ sig.holderIndex ∈ acc.2 then
      nameOnce acc.1 sig.holderIndex
    else
      acc.1,
    acc.2 ++ [sig.holderIndex])

/-- Quorum coverage: every active index exactly once, nothing else. -/
def coverage (activeIndices : List UInt32) (sigs : List (InnerSignatureShare S)) : List UInt32 :=
  let acc := sigs.foldl (coverShare activeIndices) ([], [])
  activeIndices.foldl (fun bad k => if k ∉ acc.2 then nameOnce bad k else bad) acc.1

variable [CurvePoint P S]

/-- One round of the sum: a share that verifies is added, and the holder of any other one is
named. -/
def addShare (commitments : List (InnerCommitments P)) (publicShares : List (UInt32 × P))
    (params : InnerSigningParams S) (activeIndices : List UInt32) (lagrange : List S)
    (acc : S × List UInt32) (sig : InnerSignatureShare S) :
    Outcome (List UInt32) (S × List UInt32) :=
  match position activeIndices sig.holderIndex, commitmentOf commitments sig.holderIndex,
    lookup publicShares sig.holderIndex with
  | some pos, some commitment, some publicShare => do
    let mu ← .expectSome lagrange[pos]?
    if verifyInnerShare sig commitment publicShare params mu then
      .ok (acc.1 + sig.response, acc.2)
    else
      .ok (acc.1, nameOnce acc.2 sig.holderIndex)
  -- without a commitment or a public share there is nothing to verify against
  | _, _, _ => .ok (acc.1, nameOnce acc.2 sig.holderIndex)

/-- Verify every inner share, then aggregate.  The error names the holders at fault. -/
def aggregateInnerSharesVerified (sigs : List (InnerSignatureShare S))
    (commitments : List (InnerCommitments P)) (publicShares : List (UInt32 × P))
    (params : InnerSigningParams S) (activeIndices : List UInt32) :
    Outcome (List UInt32) S := do
  let lagrange ← .mapErr (fun _ => activeIndices) (computeLagrangeCoefficients activeIndices)
  let acc ← sigs.foldlM (addShare commitments publicShares params activeIndices lagrange)
    (0, coverage activeIndices sigs)
  .refuse (acc.2 ≠ []) (acc.2.insertionSort (· ≤ ·))
  .ok acc.1

/-! ### Who is named -/

lemma mem_nameOnce {bad : List UInt32} {j k : UInt32} :
    j ∈ nameOnce bad k ↔ j ∈ bad ∨ j = k := by
  unfold nameOnce
  split
  · next h =>
    refine ⟨.inl, ?_⟩
    rintro (hj | rfl)
    · exact hj
    · exact h
  · simp

lemma nodup_nameOnce {bad : List UInt32} (h : bad.Nodup) (k : UInt32) :
    (nameOnce bad k).Nodup := by
  unfold nameOnce
  split
  · exact h
  · next hnew => simpa using h.concat hnew

/-- A round of either loop names one holder or nobody. -/
lemma mem_nameOnce_if {p : Prop} [Decidable p] {bad : List UInt32} {j k : UInt32} :
    j ∈ (if p then nameOnce bad k else bad) ↔ j ∈ bad ∨ (j = k ∧ p) := by
  by_cases h : p
  · simp [h, mem_nameOnce]
  · simp [h]

lemma nodup_nameOnce_if {p : Prop} [Decidable p] {bad : List UInt32} (h : bad.Nodup)
    (k : UInt32) : (if p then nameOnce bad k else bad).Nodup := by
  split
  · exact nodup_nameOnce h k
  · exact h

/-- The holders of the shares, with repetitions. -/
def holders (sigs : List (InnerSignatureShare S)) : List UInt32 :=
  sigs.map InnerSignatureShare.holderIndex

omit [CurveScalar S] in
/-- The loop over the shares names who is outside the quorum or was seen before. -/
lemma foldl_coverShare (activeIndices : List UInt32) (sigs : List (InnerSignatureShare S))
    (acc : List UInt32 × List UInt32) :
    (sigs.foldl (coverShare activeIndices) acc).2 = acc.2 ++ holders sigs ∧
      (acc.1.Nodup → (sigs.foldl (coverShare activeIndices) acc).1.Nodup) ∧
      ∀ k, k ∈ (sigs.foldl (coverShare activeIndices) acc).1 ↔ k ∈ acc.1 ∨
        (k ∈ holders sigs ∧ (k ∉ activeIndices ∨ k ∈ acc.2 ∨ 1 < (holders sigs).count k)) := by
  induction sigs generalizing acc with
  | nil => simp [holders]
  | cons sig sigs ih =>
    obtain ⟨hseen, hnodup, hmem⟩ := ih (coverShare activeIndices acc sig)
    have hsecond : (coverShare activeIndices acc sig).2 = acc.2 ++ [sig.holderIndex] := rfl
    have hcons : holders (sig :: sigs) = sig.holderIndex :: holders sigs := rfl
    refine ⟨?_, fun hnd => hnodup (nodup_nameOnce_if hnd _), fun k => ?_⟩
    · rw [List.foldl_cons, hseen, hsecond, hcons, List.append_assoc, List.singleton_append]
    · have hcount : 0 < (holders sigs).count k ↔ k ∈ holders sigs := List.count_pos_iff
      rw [List.foldl_cons, hmem, hsecond, coverShare, mem_nameOnce_if, or_assoc, hcons,
        List.count_cons]
      refine or_congr_right ?_
      -- whether the share is of the holder at hand
      by_cases hk : k = sig.holderIndex
      · subst hk
        have hlater : 1 < (holders sigs).count sig.holderIndex + 1 ↔
            sig.holderIndex ∈ holders sigs := by rw [← hcount]; omega
        simp [hlater, or_assoc]
      · simp [hk, Ne.symm hk]

lemma foldl_coverActive (seen active bad : List UInt32) :
    (bad.Nodup → (active.foldl (fun bad k => if k ∉ seen then nameOnce bad k else bad)
      bad).Nodup) ∧
    ∀ k, k ∈ active.foldl (fun bad k => if k ∉ seen then nameOnce bad k else bad) bad ↔
      k ∈ bad ∨ (k ∈ active ∧ k ∉ seen) := by
  induction active generalizing bad with
  | nil => simp
  | cons i active ih =>
    obtain ⟨hnodup, hmem⟩ := ih (if i ∉ seen then nameOnce bad i else bad)
    refine ⟨fun hnd => hnodup (nodup_nameOnce_if hnd i), fun k => ?_⟩
    rw [List.foldl_cons, hmem, mem_nameOnce_if, or_assoc, List.mem_cons, or_and_right]
    refine or_congr_right (or_congr_left (and_congr_right ?_))
    rintro rfl
    rfl

omit [CurveScalar S] in
/-- Coverage names the members of the quorum without exactly one share, and everybody else
with one. -/
lemma mem_coverage {activeIndices : List UInt32} {sigs : List (InnerSignatureShare S)}
    {k : UInt32} :
    k ∈ coverage activeIndices sigs ↔
      (k ∈ activeIndices ∧ (holders sigs).count k ≠ 1) ∨
      (k ∉ activeIndices ∧ k ∈ holders sigs) := by
  obtain ⟨hseen, -, hmem⟩ := foldl_coverShare activeIndices sigs ([], [])
  rw [coverage, (foldl_coverActive _ _ _).2, hmem, hseen, List.nil_append]
  have hcount : 0 < (holders sigs).count k ↔ k ∈ holders sigs := List.count_pos_iff
  by_cases hk : k ∈ activeIndices
  · simp only [List.not_mem_nil, false_or, hk, not_true, true_and, false_and, or_false, ← hcount]
    omega
  · simp [hk]

omit [CurveScalar S] in
lemma nodup_coverage (activeIndices : List UInt32) (sigs : List (InnerSignatureShare S)) :
    (coverage activeIndices sigs).Nodup :=
  (foldl_coverActive _ _ _).1 ((foldl_coverShare activeIndices sigs ([], [])).2.1 .nil)

omit [CurveScalar S] in
/-- Nobody is named for coverage exactly when the holders of the shares are the quorum. -/
lemma coverage_eq_nil_iff {activeIndices : List UInt32} (hnd : activeIndices.Nodup)
    {sigs : List (InnerSignatureShare S)} :
    coverage activeIndices sigs = [] ↔ (holders sigs).Perm activeIndices := by
  rw [List.eq_nil_iff_forall_not_mem, List.perm_iff_count]
  refine forall_congr' fun k => ?_
  rw [mem_coverage]
  have hcount : 0 < (holders sigs).count k ↔ k ∈ holders sigs := List.count_pos_iff
  by_cases hk : k ∈ activeIndices
  · rw [List.count_eq_one_of_mem hnd hk]
    simp [hk]
  · rw [List.count_eq_zero_of_not_mem hk, ← hcount]
    simp only [hk, false_and, not_false_iff, true_and, false_or]
    omega

omit [CurvePoint P S] in
/-- The coefficient at the position of a member of the quorum is the member's. -/
lemma exists_coefficient_at_iff (hinj : Function.Injective (fromU32 : UInt32 → S))
    {activeIndices : List UInt32} (hvalid : ValidIndices activeIndices) {k : UInt32}
    {Q : S → Prop} :
    (∃ lagrange pos mu, computeLagrangeCoefficients activeIndices = .ok lagrange ∧
      position activeIndices k = some pos ∧ lagrange[pos]? = some mu ∧ Q mu) ↔
      k ∈ activeIndices ∧ Q (lagrangeCoeff activeIndices k) := by
  have hlagrange := computeLagrangeCoefficients_eq hinj hvalid
  constructor
  · rintro ⟨lagrange, pos, mu, hrun, hpos, hmu, hQ⟩
    obtain rfl := Outcome.ok.inj (hrun.symm.trans hlagrange)
    rw [getElem?_map_position hpos, Option.some.injEq] at hmu
    exact ⟨exists_position_eq_some_iff.mp ⟨pos, hpos⟩, hmu.symm ▸ hQ⟩
  · rintro ⟨hmem, hQ⟩
    obtain ⟨pos, hpos⟩ := exists_position_eq_some_iff.mpr hmem
    exact ⟨_, pos, _, hlagrange, hpos, getElem?_map_position hpos _, hQ⟩

/-! ### When the shares are added up -/

section Accept

variable (commitments : List (InnerCommitments P)) (publicShares : List (UInt32 × P))
  (params : InnerSigningParams S) (activeIndices : List UInt32)

/-- The share verifies against the commitment and the public share of its holder. -/
def Accepted (sig : InnerSignatureShare S) : Prop :=
  sig.holderIndex ∈ activeIndices ∧
    ∃ commitment publicShare, commitmentOf commitments sig.holderIndex = some commitment ∧
      lookup publicShares sig.holderIndex = some publicShare ∧
      sig.response • (generator : P) =
        commitment.hidingCommitment + params.outerBinding • commitment.bindingCommitment +
          (params.outerLambda * params.outerChallenge
            * lagrangeCoeff activeIndices sig.holderIndex) • publicShare

/-- One round adds an accepted share and names the holder of any other one. -/
lemma addShare_eq_ok (acc : S × List UInt32) (sig : InnerSignatureShare S) :
    ∃ acc', addShare commitments publicShares params activeIndices
        (activeIndices.map (lagrangeCoeff activeIndices)) acc sig = .ok acc' ∧
      ((Accepted commitments publicShares params activeIndices sig ∧
          acc' = (acc.1 + sig.response, acc.2)) ∨
        (¬Accepted commitments publicShares params activeIndices sig ∧
          acc' = (acc.1, nameOnce acc.2 sig.holderIndex))) := by
  rw [addShare]
  split
  · next pos commitment publicShare hpos hcommitment hpublic =>
    rw [getElem?_map_position hpos, Outcome.expectSome_some, Outcome.ok_bind]
    have hmem := exists_position_eq_some_iff.mp ⟨pos, hpos⟩
    split
    · next hverify =>
      refine ⟨_, rfl, .inl ⟨⟨hmem, commitment, publicShare, hcommitment, hpublic, ?_⟩, rfl⟩⟩
      exact of_decide_eq_true hverify
    · next hverify =>
      refine ⟨_, rfl, .inr ⟨?_, rfl⟩⟩
      rintro ⟨-, c, p, hc, hp, heq⟩
      rw [hcommitment, Option.some.injEq] at hc
      rw [hpublic, Option.some.injEq] at hp
      subst hc hp
      exact hverify (decide_eq_true heq)
  · next hnone =>
    refine ⟨_, rfl, .inr ⟨?_, rfl⟩⟩
    rintro ⟨hmem, c, p, hc, hp, -⟩
    obtain ⟨pos, hpos⟩ := exists_position_eq_some_iff.mpr hmem
    exact hnone pos c p hpos hc hp

/-- The loop names the holders of the shares that are not accepted, and adds up the others. -/
lemma foldlM_addShare_eq_ok (sigs : List (InnerSignatureShare S)) (acc : S × List UInt32) :
    ∃ acc', sigs.foldlM (addShare commitments publicShares params activeIndices
        (activeIndices.map (lagrangeCoeff activeIndices))) acc = .ok acc' ∧
      (acc.2.Nodup → acc'.2.Nodup) ∧
      (∀ k, k ∈ acc'.2 ↔ k ∈ acc.2 ∨ ∃ sig ∈ sigs, sig.holderIndex = k ∧
        ¬Accepted commitments publicShares params activeIndices sig) ∧
      ((∀ sig ∈ sigs, Accepted commitments publicShares params activeIndices sig) →
        acc'.1 = acc.1 + (sigs.map InnerSignatureShare.response).sum) := by
  induction sigs generalizing acc with
  | nil => exact ⟨acc, rfl, id, by simp, by simp⟩
  | cons sig sigs ih =>
    obtain ⟨mid, hmid, hcases⟩ :=
      addShare_eq_ok commitments publicShares params activeIndices acc sig
    obtain ⟨acc', hacc', hnodup, hmem, hsum⟩ := ih mid
    refine ⟨acc', by rw [List.foldlM_cons, hmid, Outcome.ok_bind, hacc'], fun hnd => hnodup ?_,
      fun k => ?_, fun hall => ?_⟩
    · rcases hcases with ⟨-, rfl⟩ | ⟨-, rfl⟩
      · exact hnd
      · exact nodup_nameOnce hnd _
    · rw [hmem, List.exists_mem_cons_iff]
      rcases hcases with ⟨haccepted, rfl⟩ | ⟨hnot, rfl⟩
      · simp [haccepted]
      · rw [mem_nameOnce, or_assoc, eq_comm]
        simp [hnot]
    · rw [List.forall_mem_cons] at hall
      rcases hcases with ⟨-, rfl⟩ | ⟨hnot, -⟩
      · rw [hsum hall.2, List.map_cons, List.sum_cons, add_assoc]
      · exact absurd hall.1 hnot

variable {commitments publicShares params activeIndices}

section Valid

variable (commitments publicShares params) (hinj : Function.Injective (fromU32 : UInt32 → S))
  (hvalid : ValidIndices activeIndices) (sigs : List (InnerSignatureShare S))
include hinj hvalid

/-- What the call computes over a valid quorum: the sum when nobody is named, and otherwise
everybody who is, in ascending order. -/
lemma aggregateInnerSharesVerified_eq :
    ∃ (bad : List UInt32) (z : S),
      aggregateInnerSharesVerified sigs commitments publicShares params activeIndices
        = (if bad = [] then .ok z else .err (bad.insertionSort (· ≤ ·))) ∧
      bad.Nodup ∧
      (∀ k, k ∈ bad ↔ k ∈ coverage activeIndices sigs ∨ ∃ sig ∈ sigs, sig.holderIndex = k ∧
        ¬Accepted commitments publicShares params activeIndices sig) ∧
      (bad = [] → z = (sigs.map InnerSignatureShare.response).sum) := by
  obtain ⟨acc, hacc, hnodup, hmem, hsum⟩ := foldlM_addShare_eq_ok commitments publicShares params
    activeIndices sigs (0, coverage activeIndices sigs)
  refine ⟨acc.2, acc.1, ?_, hnodup (nodup_coverage _ _), hmem, fun hbad => ?_⟩
  · rw [aggregateInnerSharesVerified, computeLagrangeCoefficients_eq hinj hvalid, Outcome.mapErr,
      Outcome.ok_bind, hacc, Outcome.ok_bind]
    split
    · next hbad => rw [Outcome.refuse_of_neg (not_not.mpr hbad), Outcome.ok_bind]
    · next hbad => rw [Outcome.refuse_of_pos hbad, Outcome.err_bind]
  · rw [hsum fun sig hsig => ?_, zero_add]
    by_contra hnot
    exact List.not_mem_nil (hbad ▸ (hmem sig.holderIndex).mpr (.inr ⟨sig, hsig, rfl, hnot⟩))

end Valid

/-- **When the inner shares aggregate, and to what.**  A sum is returned exactly when the
holders of the shares are the quorum and every share verifies. -/
theorem aggregateInnerSharesVerified_eq_ok_iff
    (hinj : Function.Injective (fromU32 : UInt32 → S)) {sigs : List (InnerSignatureShare S)}
    {z : S} :
    aggregateInnerSharesVerified sigs commitments publicShares params activeIndices = .ok z ↔
      ValidIndices activeIndices ∧
      (sigs.map InnerSignatureShare.holderIndex).Perm activeIndices ∧
      (∀ sig ∈ sigs, Accepted commitments publicShares params activeIndices sig) ∧
      z = (sigs.map InnerSignatureShare.response).sum := by
  have hvalid_of_ok : aggregateInnerSharesVerified sigs commitments publicShares params
      activeIndices = .ok z → ValidIndices activeIndices := by
    intro h
    obtain ⟨lagrange, hlagrange, -⟩ := Outcome.bind_eq_ok_iff.mp h
    exact validIndices_of_eq_ok (Outcome.mapErr_eq_ok_iff.mp hlagrange)
  rw [← and_iff_right_of_imp hvalid_of_ok]
  refine and_congr_right fun hvalid => ?_
  obtain ⟨bad, z', hrun, -, hmem, hsum⟩ :=
    aggregateInnerSharesVerified_eq commitments publicShares params hinj hvalid sigs
  have hbad : bad = [] ↔ (holders sigs).Perm activeIndices ∧
      ∀ sig ∈ sigs, Accepted commitments publicShares params activeIndices sig := by
    rw [← coverage_eq_nil_iff hvalid.nodup, List.eq_nil_iff_forall_not_mem,
      List.eq_nil_iff_forall_not_mem]
    simp only [hmem, not_or, not_exists, not_and, not_not, forall_and]
    exact and_congr_right fun _ => ⟨fun h sig hsig => h _ sig hsig rfl,
      fun h k sig hsig _ => h sig hsig⟩
  rw [hrun, ← and_assoc, ← holders, ← hbad]
  constructor
  · intro h
    split at h
    · next hnil => exact ⟨hnil, (Outcome.ok.inj h).symm.trans (hsum hnil)⟩
    · exact absurd h (by simp)
  · rintro ⟨hnil, rfl⟩
    rw [if_pos hnil, hsum hnil]

/-! ### What an aggregate answers -/

/-- What a revealed commitment contributes: `D_k + ρ·E_k`. -/
def nonceTerm (params : InnerSigningParams S) (c : InnerCommitments P) : P :=
  c.hidingCommitment + params.outerBinding • c.bindingCommitment

/-- The public share of a holder. -/
def publicShareOf (publicShares : List (UInt32 × P)) (k : UInt32) : P :=
  (lookup publicShares k).getD 0

/-- An accepted aggregate answers the commitments of the quorum. -/
lemma smul_aggregate (hinj : Function.Injective (fromU32 : UInt32 → S))
    {sigs : List (InnerSignatureShare S)} {z : S}
    (h : aggregateInnerSharesVerified sigs commitments publicShares params activeIndices = .ok z) :
    z • (generator : P)
      = (activeIndices.map fun k =>
          ((commitmentOf commitments k).map (nonceTerm params)).getD 0).sum
        + (params.outerLambda * params.outerChallenge) • (activeIndices.map fun k =>
          (lagrangeCoeff activeIndices k : S) • publicShareOf publicShares k).sum := by
  obtain ⟨-, hperm, haccepted, rfl⟩ := (aggregateInnerSharesVerified_eq_ok_iff hinj).mp h
  -- what `verify_inner_share` compared, for every share
  have hterm : ∀ sig ∈ sigs, sig.response • (generator : P)
      = ((commitmentOf commitments sig.holderIndex).map (nonceTerm params)).getD 0
        + (params.outerLambda * params.outerChallenge)
          • (lagrangeCoeff activeIndices sig.holderIndex : S)
          • publicShareOf publicShares sig.holderIndex := by
    intro sig hsig
    obtain ⟨-, c, p, hc, hp, heq⟩ := haccepted sig hsig
    rw [heq, hc, publicShareOf, hp, mul_smul]
    rfl
  rw [List.sum_smul, List.map_map, List.smul_sum, List.map_map, ← List.sum_map_add,
    ← (hperm.map _).sum_eq, List.map_map]
  exact congrArg List.sum (List.map_congr_left hterm)

/-- Every member of the quorum of an accepted aggregate has a commitment and a public share. -/
lemma exists_commitment_of_aggregate (hinj : Function.Injective (fromU32 : UInt32 → S))
    {sigs : List (InnerSignatureShare S)} {z : S}
    (h : aggregateInnerSharesVerified sigs commitments publicShares params activeIndices = .ok z)
    {k : UInt32} (hk : k ∈ activeIndices) :
    ∃ c p, commitmentOf commitments k = some c ∧ lookup publicShares k = some p := by
  obtain ⟨-, hperm, haccepted, -⟩ := (aggregateInnerSharesVerified_eq_ok_iff hinj).mp h
  obtain ⟨sig, hsig, rfl⟩ := List.mem_map.mp (hperm.mem_iff.mpr hk)
  obtain ⟨-, c, p, hc, hp, -⟩ := haccepted sig hsig
  exact ⟨c, p, hc, hp⟩

end Accept

end Aggregate

end Frostito
