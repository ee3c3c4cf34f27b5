import Frostito.Reshare.Agreement

/-!
# Players that aggregated over different dealers

Players that took sub-shares of different dealer sets, or were told different commitments, all
pass the check of the group key, and yet their shares lie on different polynomials.  Whoever has
one of the polynomials can tell: nearly all shares of the others fail against it, and a quorum
with one such share misses the secret exactly when that share does.
-/

namespace Frostito.Reshare

section Split

variable {S P : Type} [CurveScalar S] [CurvePoint P S]

/-- A player that finished with the polynomial, over some dealer set. -/
def FinishedWith (key : P) (p : SharePolynomial P) (j : UInt32) (share : S) : Prop :=
  ∃ (dealerSet : List UInt32) (a : Aggregator P S), Finished dealerSet key j a share p

variable {key : P} {p p' : SharePolynomial P} {j k : UInt32} {share : S}

lemma FinishedWith.ne_zero (h : FinishedWith key p j share) : j ≠ 0 := by
  obtain ⟨dealerSet, a, h⟩ := h
  exact h.inv.player_ne_zero

lemma FinishedWith.isShare [PrimeOrder P] (h : FinishedWith key p j share) :
    Sharing.IsShare (generator : P) p.coefficients (fromU32 j) share := by
  obtain ⟨dealerSet, a, h⟩ := h
  exact h.inv.isShare_of_finalize (fromU32_injective P) h.finalize_eq

lemma FinishedWith.headD_eq [PrimeOrder P] (h : FinishedWith key p j share) :
    p.coefficients.headD 0 = key := by
  obtain ⟨dealerSet, a, h⟩ := h
  obtain ⟨-, -, -, hkey, -⟩ := (h.inv.finalize_eq_ok_iff (fromU32_injective P)).mp h.finalize_eq
  rw [List.headD_eq_head?_getD, hkey, Option.getD_some]

lemma SharePolynomial.verifyShare_eq_true_iff (hj : j ≠ 0) :
    p.verifyShare j share = .ok true ↔
      Sharing.IsShare (generator : P) p.coefficients (fromU32 j) share := by
  rw [verifyShare_eq hj, Outcome.ok.injEq, decide_eq_true_eq]

/-- Different polynomials of one key have fewer common shares than coefficients, the constant
term aside. -/
lemma length_common_lt [PrimeOrder P] (hne : p ≠ p')
    (hlen : p.coefficients.length = p'.coefficients.length)
    (hkey : p.coefficients.headD 0 = p'.coefficients.headD 0) {js : List UInt32} (hnd : js.Nodup)
    (h0 : 0 ∉ js) (hcommon : ∀ j ∈ js, ∃ share : S,
      Sharing.IsShare (generator : P) p.coefficients (fromU32 j) share ∧
        Sharing.IsShare (generator : P) p'.coefficients (fromU32 j) share) :
    js.length + 1 < p.coefficients.length := by
  have hinj := fromU32_injective P
  by_contra hmany
  -- zero and the common players are more points than there are coefficients
  let points : List S := (0 :: js.map fromU32).take p.coefficients.length
  have hpoints : points.length = p.coefficients.length := by
    simp only [points, List.length_take, List.length_cons, List.length_map]
    omega
  have hall : (0 :: js.map fromU32 : List S).Nodup :=
    List.nodup_cons.mpr ⟨zero_notMem_map_fromU32 hinj h0, hnd.map hinj⟩
  have hvalues : ∀ x ∈ (0 :: js.map fromU32 : List S),
      Horner.horner x p.coefficients = Horner.horner x p'.coefficients := by
    refine List.forall_mem_cons.mpr ⟨?_, List.forall_mem_map.mpr fun j hj => ?_⟩
    · rw [Horner.horner_zero, Horner.horner_zero, hkey]
    · obtain ⟨share, hshare, hshare'⟩ := hcommon j hj
      exact hshare.symm.trans hshare'
  refine hne (SharePolynomial.mk.injEq _ _ ▸ ?_)
  exact Interpolation.eq_of_horner_eq (hall.sublist (List.take_sublist _ _)) hpoints.symm
    (hlen.symm.trans hpoints.symm) fun x hx => hvalues x (List.mem_of_mem_take hx)

/-- When all but one of a quorum hold shares of a sharing, the quorum reconstructs its key exactly
when the last one does. -/
lemma reconstruct_eq_iff_isShare [PrimeOrder P] {cs : List P} {quorum : List UInt32}
    (hnd : quorum.Nodup) (h0 : 0 ∉ quorum) (hlen : cs.length ≤ quorum.length) (hk : k ∈ quorum)
    {share : UInt32 → S} (hothers : ∀ j ∈ quorum, j ≠ k →
      Sharing.IsShare (generator : P) cs (fromU32 j) (share j)) :
    ∃ secret, reconstruct (quorum.map fun j => (j, share j)) = .ok secret ∧
      (secret • (generator : P) = cs.headD 0 ↔
        Sharing.IsShare (generator : P) cs (fromU32 k) (share k)) := by
  have hinj := fromU32_injective P
  have hvalid : ValidIndices quorum := ⟨List.ne_nil_of_mem hk, h0, hnd⟩
  refine ⟨_, reconstruct_eq hinj hvalid share, ?_⟩
  -- what the others contribute to the difference cancels
  have hdifference : (quorum.map fun j => lagrangeCoeff quorum j * share j).sum • (generator : P)
      - cs.headD 0 = (lagrangeCoeff quorum k : S)
        • (share k • generator - Horner.horner (fromU32 k : S) cs) := by
    have hcoefficients : cs.length ≤ (quorum.map (fromU32 : UInt32 → S)).length := by
      rwa [List.length_map]
    have hkey := Interpolation.list_sum_weight_smul_horner (hnd.map hinj) hcoefficients
    rw [List.map_map] at hkey
    have hsingle := List.sum_map_eq_nsmul_single (l := quorum) k (fun j =>
      (lagrangeCoeff quorum j : S) • (share j • (generator : P) - Horner.horner (fromU32 j : S) cs))
      fun j hne hj => by rw [hothers j hj hne, sub_self, smul_zero]
    rw [List.count_eq_one_of_mem hnd hk, one_smul] at hsingle
    rw [sub_eq_iff_eq_add, ← hsingle, ← hkey, ← List.sum_map_add, List.sum_smul, List.map_map]
    refine congrArg List.sum (List.map_congr_left fun j _ => ?_)
    rw [Function.comp_apply, smul_sub, mul_smul]
    exact (sub_add_cancel _ _).symm
  have hweight : (lagrangeCoeff quorum k : S) ≠ 0 := lagrangeCoeff_ne_zero hinj h0 k
  rw [← sub_eq_zero, hdifference, smul_eq_zero_iff_right hweight, sub_eq_zero, Sharing.IsShare]

/-- **A split is detected.**  Two groups of players finished with different polynomials of one
length under one key.  Then fewer players of the second group than the polynomial has
coefficients, less one, have shares that the first polynomial verifies; and a quorum with one
player of the second group, the others of the first, reconstructs the discrete logarithm of the
key exactly when the first polynomial verifies that player's share. -/
theorem split_detected [PrimeOrder P] {share' : S} (h : FinishedWith key p j share)
    (h' : FinishedWith key p' k share') (hlen : p.coefficients.length = p'.coefficients.length)
    (hne : p ≠ p') :
    (∀ (strays : List UInt32) (share : UInt32 → S), strays.Nodup →
      (∀ i ∈ strays, FinishedWith key p' i (share i) ∧ p.verifyShare i (share i) = .ok true) →
      strays.length + 1 < p.coefficients.length) ∧
    ∀ (quorum : List UInt32) (stray : UInt32) (share : UInt32 → S), quorum.Nodup →
      quorum.length = p.coefficients.length → stray ∈ quorum →
      FinishedWith key p' stray (share stray) →
      (∀ i ∈ quorum, i ≠ stray → FinishedWith key p i (share i)) →
      ∃ secret, reconstruct (quorum.map fun i => (i, share i)) = .ok secret ∧
        (secret • (generator : P) = key ↔ p.verifyShare stray (share stray) = .ok true) := by
  refine ⟨fun strays share hnd hstrays => ?_,
    fun quorum stray share hnd hquorum hmem hstray hothers => ?_⟩
  · refine length_common_lt (S := S) hne hlen (h.headD_eq.trans h'.headD_eq.symm) hnd
      (fun h0 => (hstrays 0 h0).1.ne_zero rfl) fun i hi => ?_
    obtain ⟨hfinished, hverify⟩ := hstrays i hi
    exact ⟨share i, (SharePolynomial.verifyShare_eq_true_iff hfinished.ne_zero).mp hverify,
      hfinished.isShare⟩
  · have h0 : 0 ∉ quorum := by
      intro h0
      by_cases hzero : 0 = stray
      · exact hstray.ne_zero hzero.symm
      · exact (hothers 0 h0 hzero).ne_zero rfl
    obtain ⟨secret, hsecret, hiff⟩ := reconstruct_eq_iff_isShare hnd h0 hquorum.ge hmem
      fun i hi hne => (hothers i hi hne).isShare
    refine ⟨secret, hsecret, ?_⟩
    rw [← h.headD_eq, hiff, SharePolynomial.verifyShare_eq_true_iff hstray.ne_zero]

end Split

open Reference in
/-- The share of player 2, of the polynomial `5 + 2x`, and the share of player 1, of `5 + x`,
reconstruct `5` exactly when the second lies on the polynomial of the first. -/
theorem split_detected_two : ∃ secret : Residue,
    reconstruct ([1, 2].map fun i => (i, if i = 1 then (6 : Residue) else 9)) = .ok secret ∧
      (secret • (generator : Residue) = 5 ↔
        (⟨[5, 1]⟩ : SharePolynomial Residue).verifyShare 2 (9 : Residue) = .ok true) := by
  have hfirst : FinishedWith (5 : Residue) ⟨[5, 1]⟩ 1 6 := ⟨_, _, finished_toFirst⟩
  have hsecond : FinishedWith (5 : Residue) ⟨[5, 2]⟩ 2 9 := ⟨_, _, finished_toSecond⟩
  have hne : (⟨[5, 1]⟩ : SharePolynomial Residue) ≠ ⟨[5, 2]⟩ := by
    rw [Ne, SharePolynomial.mk.injEq]
    decide
  refine (split_detected hfirst hsecond rfl hne).2 [1, 2] 2 (fun i => if i = 1 then 6 else 9)
    (by decide) rfl (by decide) hsecond fun i hi hi2 => ?_
  obtain rfl : i = 1 := (List.mem_pair.mp hi).resolve_right hi2
  exact hfirst

end Frostito.Reshare
