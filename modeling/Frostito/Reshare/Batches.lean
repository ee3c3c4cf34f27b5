import Frostito.Abort
import Frostito.Reshare.Order

/-!
# Sub-shares that arrive in batches

Adding a batch is adding its pairs one after the other: nothing that is refused stops the rest,
and what is returned is how many dealers were newly heard.  So it does not matter how deliveries
are cut into batches; nor, when a dealer has one message and the valid ones have one threshold, in
which order they are.
-/

namespace Frostito.Reshare

section Batches

variable {S P : Type} [CurveScalar S] [CurvePoint P S]

namespace Aggregator

/-- One call of `add_subshares_batch`. -/
def addBatch (a : Aggregator P S) (batch : List (SubShare S) × List (DealerCommitment P)) :
    Aggregator P S × Outcome Error ℕ :=
  a.addSubsharesBatch batch.1 batch.2

/-- The pairs that a list of batches is made of: a list that is longer than its partner is cut
off. -/
def pairs (batches : List (List (SubShare S) × List (DealerCommitment P))) :
    List (SubShare S × DealerCommitment P) :=
  batches.flatMap fun batch => batch.1.zip batch.2

omit [CurveScalar S] [CurvePoint P S] in
lemma pairs_cons (batch : List (SubShare S) × List (DealerCommitment P))
    (batches : List (List (SubShare S) × List (DealerCommitment P))) :
    pairs (batch :: batches) = batch.1.zip batch.2 ++ pairs batches := List.flatMap_cons

/-- The loop delivers every pair and counts the dealers that it hears. -/
lemma addPairs_eq (a : Aggregator P S) (ms : List (SubShare S × DealerCommitment P)) (added : ℕ) :
    ∃ heard, a.addPairs ms added = (Calls.run deliver a ms, .ok (added + heard)) ∧
      (Calls.run deliver a ms).subshares.length = a.subshares.length + heard := by
  induction ms generalizing a added with
  | nil => exact ⟨0, rfl, rfl⟩
  | cons m ms ih =>
    rw [addPairs, Calls.run_cons, deliver]
    rcases a.addSubshare_cases m.1 m.2 with ⟨-, hadd⟩ | ⟨hsame, hne⟩
    · obtain ⟨heard, hloop, hlength⟩ := ih (a.add m.1 m.2) (added + 1)
      refine ⟨1 + heard, ?_, ?_⟩
      · rw [hadd, ← add_assoc]
        exact hloop
      · rw [hadd, hlength, add, List.length_append, List.length_singleton, add_assoc]
    · obtain ⟨heard, hloop, hlength⟩ := ih a added
      refine ⟨heard, ?_, by rw [hsame, hlength]⟩
      rw [hsame, ← hloop]
      split
      · next htrue => exact absurd htrue hne
      · rfl
      · rfl
      · next hpanic => exact absurd hpanic (addSubshare_ne_panic a m.1 m.2)

/-- One batch is its pairs delivered one by one, and returns how many dealers it heard. -/
lemma addBatch_eq (a : Aggregator P S) (batch : List (SubShare S) × List (DealerCommitment P)) :
    ∃ heard, a.addBatch batch = (Calls.run deliver a (batch.1.zip batch.2), .ok heard) ∧
      (Calls.run deliver a (batch.1.zip batch.2)).subshares.length
        = a.subshares.length + heard := by
  obtain ⟨heard, hloop, hlength⟩ := a.addPairs_eq (batch.1.zip batch.2) 0
  exact ⟨heard, by rw [addBatch, addSubsharesBatch, hloop, zero_add], hlength⟩

/-- A run of batches is the run of its pairs, and the counts that it returned add up. -/
lemma run_addBatch (a : Aggregator P S)
    (batches : List (List (SubShare S) × List (DealerCommitment P))) :
    Calls.run addBatch a batches = Calls.run deliver a (pairs batches) ∧
      ∃ counts : List ℕ, (Calls.log addBatch a batches).map Prod.snd = counts.map .ok ∧
        (Calls.run deliver a (pairs batches)).subshares.length
          = a.subshares.length + counts.sum := by
  induction batches generalizing a with
  | nil => exact ⟨rfl, [], rfl, rfl⟩
  | cons batch batches ih =>
    obtain ⟨heard, hbatch, hlength⟩ := a.addBatch_eq batch
    obtain ⟨hrun, counts, hlog, hsum⟩ := ih (Calls.run deliver a (batch.1.zip batch.2))
    rw [Calls.run_cons, Calls.log, pairs_cons, Calls.run_append, hbatch]
    refine ⟨hrun, heard :: counts, ?_, ?_⟩
    · rw [List.map_cons, List.map_cons, hlog]
    · rw [hsum, hlength, List.sum_cons, add_assoc]

end Aggregator

variable {j : UInt32} {dealerSet : List UInt32} {a₀ : Aggregator P S}

/-- **Batches.**  However the deliveries are cut into batches, the aggregator ends up as if they
had come one by one, and the counts returned add up to the number of dealers that were heard.
When every dealer has one message and the valid ones have one threshold, that is the number of
valid messages, and every other cutting of any permutation has the same outcome. -/
theorem batches_agree (hnew : Aggregator.new j dealerSet = .ok a₀)
    (batches : List (List (SubShare S) × List (DealerCommitment P))) :
    Calls.run Aggregator.addBatch a₀ batches
        = Calls.run deliver a₀ (Aggregator.pairs batches) ∧
      ∃ counts : List ℕ,
        (Calls.log Aggregator.addBatch a₀ batches).map Prod.snd = counts.map .ok ∧
        counts.sum = (Calls.run Aggregator.addBatch a₀ batches).subshares.length ∧
        (((Aggregator.pairs batches).map fun m => m.1.dealerIndex).Nodup →
          OneThreshold j dealerSet (Aggregator.pairs batches) →
          counts.sum = ((Aggregator.pairs batches).filter fun m => ValidFor j dealerSet m).length ∧
          ∀ batches' : List (List (SubShare S) × List (DealerCommitment P)),
            (Aggregator.pairs batches').Perm (Aggregator.pairs batches) →
            (Calls.run Aggregator.addBatch a₀ batches').SameOutcome
              (Calls.run Aggregator.addBatch a₀ batches)) := by
  have hinv := inv_new hnew
  obtain ⟨-, -, ha₀⟩ := Aggregator.new_eq_ok_iff.mp hnew
  have hstores : Stores a₀ [] := ⟨by rw [ha₀]; rfl, by rw [ha₀]; rfl⟩
  obtain ⟨hrun, counts, hlog, hsum⟩ := a₀.run_addBatch batches
  rw [hstores.subshares_eq, List.map_nil, List.length_nil, zero_add] at hsum
  refine ⟨hrun, counts, hlog, by rw [hrun, hsum], fun hone hthr => ⟨?_, fun batches' hperm => ?_⟩⟩
  · rw [← hsum, (hinv.run_stores hstores hone hthr).subshares_eq, List.length_map]
  · have hone' : ((Aggregator.pairs batches').map fun m => m.1.dealerIndex).Nodup :=
      (hperm.map _).nodup_iff.mpr hone
    have hthr' : OneThreshold j dealerSet (Aggregator.pairs batches') := fun m hm m' hm' =>
      hthr m (hperm.mem_iff.mp hm) m' (hperm.mem_iff.mp hm')
    have hstored := hinv.run_stores hstores hone hthr
    have hstored' := hinv.run_stores hstores hone' hthr'
    have hvalid := hperm.filter fun m => ValidFor j dealerSet m
    rw [(a₀.run_addBatch batches').1, hrun]
    refine (inv_run hinv _).sameOutcome (inv_run hinv _) ?_ ?_
    · rw [hstored'.subshares_eq, hstored.subshares_eq]
      exact hvalid.map _
    · rw [hstored'.commitments_eq, hstored.commitments_eq]
      exact hvalid.map _

end Batches

section TwoDealers

open Reference

/-- A message of each of the two dealers, both of threshold 1. -/
def twoMessages : List (SubShare Residue × DealerCommitment Residue) :=
  [paddedDelivery 1 0 fits_zero, paddedDelivery 2 0 fits_zero]

lemma validFor_paddedDelivery {i : UInt32} (hi : i ∈ [1, 2]) :
    ValidFor 1 [1, 2] (paddedDelivery i 0 fits_zero) :=
  ⟨rfl, rfl, hi, verifySubshare_padded fits_zero (by decide)⟩

lemma oneThreshold_twoMessages : OneThreshold 1 [1, 2] twoMessages := by
  have hthr : ∀ m ∈ twoMessages, m.2.threshold = UInt32.ofNat (0 + 1) := by
    intro m hm
    rcases List.mem_cons.mp hm with rfl | hm
    · exact threshold_padded fits_zero
    · rw [List.mem_singleton.mp hm]
      exact threshold_padded fits_zero
  intro m hm m' hm' _ _
  rw [hthr m hm, hthr m' hm']

lemma filter_twoMessages : (twoMessages.filter fun m => ValidFor 1 [1, 2] m) = twoMessages := by
  refine List.filter_eq_self.mpr fun m hm => decide_eq_true ?_
  rcases List.mem_cons.mp hm with rfl | hm
  · exact validFor_paddedDelivery (by decide)
  · rw [List.mem_singleton.mp hm]
    exact validFor_paddedDelivery (by decide)

/-- The two messages in one batch. -/
def oneBatch : List (List (SubShare Residue) × List (DealerCommitment Residue)) :=
  [twoMessages.unzip]

/-- Each in a batch of its own, the other way round. -/
def twoBatches : List (List (SubShare Residue) × List (DealerCommitment Residue)) :=
  [(twoMessages.drop 1).unzip, (twoMessages.take 1).unzip]

/-- Both cuttings hear both dealers, with one outcome. -/
theorem batches_agree_two :
    ∃ counts : List ℕ,
      (Calls.log Aggregator.addBatch twoDealers oneBatch).map Prod.snd = counts.map .ok ∧
      counts.sum = 2 ∧
      (Calls.run Aggregator.addBatch twoDealers twoBatches).SameOutcome
        (Calls.run Aggregator.addBatch twoDealers oneBatch) := by
  obtain ⟨-, counts, hlog, -, hvalid⟩ := batches_agree new_twoDealers oneBatch
  obtain ⟨hsum, hsame⟩ := hvalid (by decide) oneThreshold_twoMessages
  refine ⟨counts, hlog, ?_, hsame twoBatches (List.Perm.swap _ _ [])⟩
  rw [hsum]
  exact congrArg List.length filter_twoMessages

end TwoDealers

end Frostito.Reshare
