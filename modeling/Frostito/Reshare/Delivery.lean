import Frostito.Reshare.Combination

/-!
# A player that hears from every dealer

When every dealer of the set sends a player one commitment of the common threshold and a
value on it, the order of arrival does not matter, and neither do repetitions: the player
ends up with the combination of the commitments and of the values.
-/

namespace Frostito.Reshare

variable {S P : Type} [CurveScalar S] [CurvePoint P S]

/-- Each dealer of the set has a commitment in its own name, with as many coefficients as the
new threshold, and a value for player `j` that verifies against it. -/
structure Consistent (j : UInt32) (dealerSet : List UInt32) (newThreshold : UInt32)
    (commit : UInt32 → DealerCommitment P) (value : UInt32 → S) : Prop where
  dealerIndex_eq : ∀ d ∈ dealerSet, (commit d).dealerIndex = d
  length_eq : ∀ d ∈ dealerSet, (commit d).coefficients.length = newThreshold.toNat
  verify : ∀ d ∈ dealerSet, (commit d).verifySubshare j (value d) = true

/-- What dealer `d` sends player `j`. -/
def fromDealer (j : UInt32) (commit : UInt32 → DealerCommitment P) (value : UInt32 → S)
    (d : UInt32) : SubShare S × DealerCommitment P :=
  (⟨d, j, value d⟩, commit d)

/-- The aggregator that heard from the listed dealers. -/
def heard (j : UInt32) (dealerSet : List UInt32) (commit : UInt32 → DealerCommitment P)
    (value : UInt32 → S) (dealers : List UInt32) : Aggregator P S :=
  ⟨j, dealerSet, dealers.map fun d => (d, value d), dealers.map commit⟩

variable {j newThreshold : UInt32} {dealerSet dealers : List UInt32}
  {commit : UInt32 → DealerCommitment P} {value : UInt32 → S}

lemma Consistent.threshold_eq (h : Consistent j dealerSet newThreshold commit value) {d : UInt32}
    (hd : d ∈ dealerSet) : (commit d).threshold = newThreshold := by
  rw [DealerCommitment.threshold, h.length_eq d hd, UInt32.ofNat_toNat]

omit [CurveScalar S] [CurvePoint P S] in
lemma map_fst_subshares_heard :
    (heard j dealerSet commit value dealers).subshares.map Prod.fst = dealers := by
  rw [heard, List.map_map]
  exact List.map_id' dealers

/-- A dealer is heard once. -/
lemma Consistent.deliver_heard (h : Consistent j dealerSet newThreshold commit value)
    (h0 : 0 ∉ dealerSet) (hsub : dealers ⊆ dealerSet) {d : UInt32} (hd : d ∈ dealerSet) :
    (deliver (heard j dealerSet commit value dealers) (fromDealer j commit value d)).1
      = heard j dealerSet commit value (if d ∈ dealers then dealers else dealers ++ [d]) := by
  have hindex := h.dealerIndex_eq d hd
  split
  · next hmem =>
    refine Aggregator.addSubshare_unchanged fun hadd => ?_
    have hnew := (Aggregator.addSubshare_eq_ok_true_iff.mp hadd).notMem
    rw [map_fst_subshares_heard, fromDealer, hindex] at hnew
    exact hnew hmem
  · next hmem =>
    have hacc : (heard j dealerSet commit value dealers).Accepts ⟨d, j, value d⟩ (commit d) := by
      refine ⟨rfl, hindex.symm, ?_, hindex.symm ▸ hd, ?_, ?_, h.verify d hd⟩
      · rw [hindex]
        exact fun hd0 => h0 (hd0 ▸ hd)
      · refine Aggregator.checkThreshold_eq_ok_iff.mpr fun first hfirst => ?_
        obtain ⟨d', hd', rfl⟩ :=
          List.mem_map.mp (List.mem_of_mem_head? (Option.mem_def.mpr hfirst))
        rw [h.threshold_eq (hsub hd'), h.threshold_eq hd]
      · rwa [hindex, map_fst_subshares_heard]
    rw [deliver, fromDealer, hacc.addSubshare_eq]
    simp [heard, Aggregator.add, hindex]

/-- However often and in whatever order the dealers deliver, each is heard once. -/
lemma Consistent.run_heard (h : Consistent j dealerSet newThreshold commit value)
    (h0 : 0 ∉ dealerSet) {arrival : List UInt32} (harrival : arrival ⊆ dealerSet)
    (hsub : dealers ⊆ dealerSet) (hnd : dealers.Nodup) :
    ∃ dealers', dealers'.Nodup ∧ dealers' ⊆ dealerSet ∧ dealers ⊆ dealers' ∧
      arrival ⊆ dealers' ∧
      Calls.run deliver (heard j dealerSet commit value dealers)
        (arrival.map (fromDealer j commit value)) = heard j dealerSet commit value dealers' := by
  induction arrival generalizing dealers with
  | nil => exact ⟨dealers, hnd, hsub, List.Subset.refl _, List.nil_subset _, rfl⟩
  | cons d arrival ih =>
    obtain ⟨hd, harrival⟩ := List.cons_subset.mp harrival
    rw [List.map_cons, Calls.run_cons, h.deliver_heard h0 hsub hd]
    split
    · next hmem =>
      obtain ⟨dealers', hnd', hsub', hkeep, hall, hrun⟩ := ih harrival hsub hnd
      exact ⟨dealers', hnd', hsub', hkeep, List.cons_subset.mpr ⟨hkeep hmem, hall⟩, hrun⟩
    · next hmem =>
      have hnd₁ : (dealers ++ [d]).Nodup := by
        rw [← List.concat_eq_append]
        exact hnd.concat hmem
      have hsub₁ : dealers ++ [d] ⊆ dealerSet :=
        List.append_subset.mpr ⟨hsub, List.cons_subset.mpr ⟨hd, List.nil_subset _⟩⟩
      obtain ⟨dealers', hnd', hsub', hkeep, hall, hrun⟩ := ih harrival hsub₁ hnd₁
      obtain ⟨hold, hnew⟩ := List.append_subset.mp hkeep
      exact ⟨dealers', hnd', hsub', hold,
        List.cons_subset.mpr ⟨(List.cons_subset.mp hnew).1, hall⟩, hrun⟩

/-- What the aggregator that heard from the listed dealers holds. -/
lemma Consistent.holds_heard (h : Consistent j dealerSet newThreshold commit value)
    (hsub : dealers ⊆ dealerSet) (hnd : dealers.Nodup) :
    Holds (heard j dealerSet commit value dealers)
      (dealers.map fun d => (commit d, value d)) := by
  have hindices : (dealers.map fun d => (commit d, value d)).map (fun r => r.1.dealerIndex)
      = dealers := by
    rw [List.map_map]
    exact (List.map_congr_left fun d hd => h.dealerIndex_eq d (hsub hd)).trans
      (List.map_id' dealers)
  refine ⟨?_, ?_, ?_, by rwa [hindices], ?_, ?_⟩
  · rw [heard, List.map_map]
    exact List.map_congr_left fun d hd => by
      rw [Function.comp_apply, h.dealerIndex_eq d (hsub hd)]
  · rw [heard, List.map_map]
    rfl
  · rintro r hr
    obtain ⟨d, hd, rfl⟩ := List.mem_map.mp hr
    exact (DealerCommitment.verifySubshare_iff.mp (h.verify d (hsub hd))).2
  · rintro r hr
    obtain ⟨d, hd, rfl⟩ := List.mem_map.mp hr
    exact (h.dealerIndex_eq d (hsub hd)).symm ▸ hsub hd
  · rintro r hr r' hr'
    obtain ⟨d, hd, rfl⟩ := List.mem_map.mp hr
    obtain ⟨d', hd', rfl⟩ := List.mem_map.mp hr'
    rw [h.threshold_eq (hsub hd), h.threshold_eq (hsub hd')]

/-- The polynomial that every player hearing from the dealers derives. -/
def combined (dealerSet : List UInt32) (newThreshold : UInt32)
    (commit : UInt32 → DealerCommitment P) : SharePolynomial P :=
  ⟨Horner.combine newThreshold.toNat (dealerSet.insertionSort (· ≤ ·))
    (lagrangeCoeff (dealerSet.insertionSort (· ≤ ·)) : UInt32 → S)
    fun d => (commit d).coefficients⟩

/-- What was heard from a dealer is its commitment and its value. -/
lemma Consistent.lookup_heard (h : Consistent j dealerSet newThreshold commit value)
    (hsub : dealers ⊆ dealerSet) (hnd : dealers.Nodup) {d : UInt32} (hd : d ∈ dealers) :
    (heard j dealerSet commit value dealers).coefficientsOf d = (commit d).coefficients ∧
      (heard j dealerSet commit value dealers).valueOf d = value d := by
  obtain ⟨hvalue, hcommit⟩ := (h.holds_heard hsub hnd).find (List.mem_map_of_mem hd)
  rw [h.dealerIndex_eq d (hsub hd)] at hvalue hcommit
  rw [Aggregator.coefficientsOf, Aggregator.valueOf, hvalue, hcommit]
  exact ⟨rfl, rfl⟩

lemma Consistent.newThreshold_heard (h : Consistent j dealerSet newThreshold commit value)
    (hsub : dealers ⊆ dealerSet) (hne : dealers ≠ []) :
    (heard j dealerSet commit value dealers).newThreshold = newThreshold := by
  obtain ⟨d, rest, rfl⟩ := List.exists_cons_of_ne_nil hne
  exact h.threshold_eq (hsub List.mem_cons_self)

/-- **A player that hears from every dealer finishes**, in whatever order and however often
it does, with the combination of the commitments and of the values, when the combination has
the expected key. -/
theorem Consistent.finalize_eq (h : Consistent j dealerSet newThreshold commit value)
    (hinj : Function.Injective (fromU32 : UInt32 → S)) {a : Aggregator P S}
    (hnew : Aggregator.new j dealerSet = .ok a) {arrival : List UInt32}
    (harrival : ∀ d, d ∈ arrival ↔ d ∈ dealerSet) {key : P}
    (hkey : (combined (S := S) dealerSet newThreshold commit).coefficients.head? = some key) :
    (Calls.run deliver a (arrival.map (fromDealer j commit value))).finalize key
      = .ok (((dealerSet.insertionSort (· ≤ ·)).map fun d =>
          lagrangeCoeff (dealerSet.insertionSort (· ≤ ·)) d * value d).sum,
        combined (S := S) dealerSet newThreshold commit) := by
  obtain ⟨hj, hvalid, rfl⟩ := Aggregator.new_eq_ok_iff.mp hnew
  have hinv := inv_run (inv_new hnew) (arrival.map (fromDealer j commit value))
  have hperm := List.perm_insertionSort (· ≤ ·) dealerSet
  -- the aggregator keeps the dealers sorted
  have hsorted : Consistent j (dealerSet.insertionSort (· ≤ ·)) newThreshold commit value :=
    ⟨fun d hd => h.dealerIndex_eq d (hperm.mem_iff.mp hd),
      fun d hd => h.length_eq d (hperm.mem_iff.mp hd),
      fun d hd => h.verify d (hperm.mem_iff.mp hd)⟩
  obtain ⟨dealers, hnd, hsub, -, hall, hrun⟩ := hsorted.run_heard
    (fun h0 => hvalid.zero_notMem (hperm.mem_iff.mp h0))
    (fun d hd => hperm.mem_iff.mpr ((harrival d).mp hd)) (List.nil_subset _) .nil
  change Calls.run deliver ⟨j, dealerSet.insertionSort (· ≤ ·), [], []⟩ _ = _ at hrun
  rw [hrun] at hinv ⊢
  -- `dealers` lists the set in the order of first arrival
  have hmem : ∀ d ∈ dealerSet.insertionSort (· ≤ ·), d ∈ dealers := fun d hd =>
    hall ((harrival d).mpr (hperm.mem_iff.mp hd))
  have hlen : dealers.length = (dealerSet.insertionSort (· ≤ ·)).length :=
    ((List.perm_ext_iff_of_nodup hnd (hperm.nodup_iff.mpr hvalid.nodup)).mpr fun d =>
      ⟨fun hd => hsub hd, hmem d⟩).length_eq
  have hlookup := fun d hd => hsorted.lookup_heard hsub hnd (hmem d hd)
  have hne : dealers ≠ [] := by
    rintro rfl
    exact hvalid.ne_nil (List.length_eq_zero_iff.mp (hperm.length_eq ▸ hlen.symm))
  have hthr := hsorted.newThreshold_heard hsub hne
  refine (hinv.finalize_eq_ok_iff hinj).mpr ⟨?_, ?_, ?_, hkey, ?_⟩
  · simpa [heard] using hlen
  · intro d hd
    rw [(hlookup d hd).1, hthr, hsorted.length_eq d hd]
  · rw [Aggregator.combination, hthr]
    exact Horner.combine_congr fun d hd => (hlookup d hd).1.symm
  · refine congrArg List.sum (List.map_congr_left fun d hd => ?_)
    rw [(hlookup d hd).2]
    rfl

end Frostito.Reshare
