import Frostito.Lagrange

/-!
# The dealer set of an aggregator

Both aggregators, of key generation and of resharing, are built from a player index and
the agreed dealer set, and make the same checks on the two.
-/

namespace Frostito

/-- The checks of `Aggregator::new`, and the dealer set sorted ascending. -/
def sortedDealerSet (playerIndex : UInt32) (dealerSet : List UInt32) :
    Outcome Error (List UInt32) := do
  .refuse (playerIndex = 0) .invalidIndex
  .refuse (dealerSet = []) .emptyContributions
  let sorted := dealerSet.insertionSort (· ≤ ·)
  match Sorted.firstRepeat sorted with
  | some dup => .err (.duplicateIndex dup)
  | none =>
    let first ← .expectSome sorted.head?
    .refuse (first = 0) .invalidIndex
    .ok sorted

/-- In a sorted list of indices, zero could only come first. -/
lemma head?_eq_some_zero_of_mem {l : List UInt32} (hl : l.Pairwise (· ≤ ·)) (h0 : 0 ∈ l) :
    l.head? = some 0 := by
  cases l with
  | nil => exact absurd h0 List.not_mem_nil
  | cons a l =>
    rcases List.mem_cons.mp h0 with rfl | h0
    · rfl
    · have hle : a ≤ 0 := (List.pairwise_cons.mp hl).1 0 h0
      rw [List.head?_cons, UInt32.le_zero_iff.mp hle]

/-- An aggregator is built exactly for a player from 1 on and a valid set of indices. -/
theorem sortedDealerSet_eq_ok_iff {j : UInt32} {dealerSet sorted : List UInt32} :
    sortedDealerSet j dealerSet = .ok sorted ↔
      j ≠ 0 ∧ ValidIndices dealerSet ∧ sorted = dealerSet.insertionSort (· ≤ ·) := by
  have hsort := List.pairwise_insertionSort (· ≤ ·) dealerSet
  have hperm := List.perm_insertionSort (· ≤ ·) dealerSet
  simp only [sortedDealerSet, Outcome.bind_eq_ok_iff, Outcome.refuse_eq_ok_iff]
  constructor
  · rintro ⟨_, hj, _, hne, h⟩
    split at h
    · exact absurd h (by simp)
    · next hrep =>
      simp only [Outcome.bind_eq_ok_iff, Outcome.expectSome_eq_ok_iff,
        Outcome.refuse_eq_ok_iff] at h
      obtain ⟨first, hfirst, _, hfirst0, hsorted⟩ := h
      refine ⟨hj, ⟨hne, fun h0 => hfirst0 ?_, firstRepeat_sort_eq_none_iff.mp hrep⟩,
        (Outcome.ok.inj hsorted).symm⟩
      have hhead := head?_eq_some_zero_of_mem hsort (hperm.mem_iff.mpr h0)
      exact Option.some.inj (hfirst.symm.trans hhead)
  · rintro ⟨hj, hvalid, rfl⟩
    refine ⟨(), hj, (), hvalid.ne_nil, ?_⟩
    rw [firstRepeat_sort_eq_none_iff.mpr hvalid.nodup]
    cases hl : dealerSet.insertionSort (· ≤ ·) with
    | nil => exact absurd (List.Perm.nil_eq (hl ▸ hperm)).symm hvalid.ne_nil
    | cons a l =>
      have ha : a ≠ 0 := by
        rintro rfl
        exact hvalid.zero_notMem (hperm.mem_iff.mp (hl ▸ List.mem_cons_self))
      simp [ha]

end Frostito
