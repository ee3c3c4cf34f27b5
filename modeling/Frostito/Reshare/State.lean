import Frostito.Dkg.State
import Frostito.Lib.Sorted
import Frostito.Reference.Padded
import Frostito.Reshare.Aggregator

/-!
# The round state of resharing

`ReshareState` collects the commitments of the old custodians, each with a proof that its
dealer holds the share it redistributes.  Once as many have committed as the old threshold
asks for, the dealer set is read off the state: the lowest indices that have committed.

Submissions are never closed, and the dealer set is computed anew whenever it is read.  It
stays what it was exactly as long as no dealer commits whose index is below one of its
members.
-/

namespace Frostito.Reshare

/-- Reshare epoch state for on-chain storage. -/
structure ReshareState (P : Type) where
  /-- Epoch number being reshared into. -/
  targetEpoch : UInt64
  /-- Old threshold (required dealers). -/
  oldThreshold : UInt32
  /-- New threshold (for new shares). -/
  newThreshold : UInt32
  /-- Number of new players. -/
  newPlayerCount : UInt32
  /-- Collected dealer commitments (indexed by `dealer_index - 1`). -/
  commitments : List (Option (DealerCommitment P))
  /-- Expected group public key (invariant). -/
  groupKey : P

section State

variable {S P : Type}

namespace ReshareState

/-! ### The operations -/

/-- `ReshareState::new`. -/
def new (targetEpoch : UInt64)
    (oldDealerCount oldThreshold newThreshold newPlayerCount : UInt32) (groupKey : P) :
    ReshareState P where
  targetEpoch := targetEpoch
  oldThreshold := oldThreshold
  newThreshold := newThreshold
  newPlayerCount := newPlayerCount
  commitments := List.replicate oldDealerCount.toNat none
  groupKey := groupKey

/-- Number of commitments received. -/
def commitmentCount (s : ReshareState P) : ℕ := (s.commitments.filter Option.isSome).length

/-- Check if we have enough commitments to proceed. -/
def hasQuorum (s : ReshareState P) : Bool := decide (s.oldThreshold.toNat ≤ s.commitmentCount)

/-- Get all submitted commitments. -/
def getCommitments (s : ReshareState P) : List (DealerCommitment P) :=
  s.commitments.reduceOption

/-- The deterministic dealer set for this round: the `old_threshold` lowest dealer indices
that have committed.  `None` until quorum. -/
def dealerSet (s : ReshareState P) : Option (List UInt32) :=
  if s.hasQuorum then
    some ((s.commitments.reduceOption.map DealerCommitment.dealerIndex).take
      s.oldThreshold.toNat)
  else
    none

/-- Verify group key from the deterministic dealer set's commitments. -/
def verifyGroupKey [CurveScalar S] [CurvePoint P S] (s : ReshareState P) :
    Outcome Error Bool := do
  let dealerIndices ← .okOr s.dealerSet
    (.insufficientContributions s.commitmentCount s.oldThreshold.toNat)
  let lagrange : List S ← computeLagrangeCoefficients dealerIndices
  let derivedKey ← (dealerIndices.zip lagrange).foldlM (fun derivedKey p => do
    let idx ← .checkedSub p.1.toNat 1
    let slot ← .expectSome s.commitments[idx]?
    let commitment ← .expectSome slot
    let c0 ← commitment.shareCommitment
    return derivedKey + p.2 • c0) 0
  .ok (decide (derivedKey = s.groupKey))

end ReshareState

variable [CurveScalar S] [CurvePoint P S] [Sha2]

/-- Verify a proof of possession against the commitment's own constant term. -/
def verifyPossession (c : DealerCommitment P) (epoch : UInt64) (proof : ProofOfKnowledge P S) :
    Bool :=
  match c.coefficients.head? with
  | some c0 => proof.verifyIn resharePokDomain c.dealerIndex epoch c0
  | none => false

namespace ReshareState

/-- The checks of a submission, and on success the reply and the state with the commitment
recorded. -/
def recordCommitment (s : ReshareState P) (commitment : DealerCommitment P)
    (proof : ProofOfKnowledge P S) : Outcome Error (Bool × ReshareState P) := do
  .refuse (verifyPossession commitment s.targetEpoch proof = false)
    (.invalidProofOfKnowledge commitment.dealerIndex)
  let idx ← .okOr (slotOf commitment.dealerIndex) .invalidIndex
  .refuse (s.commitments.length ≤ idx) .invalidIndex
  .refuse (commitment.threshold ≠ s.newThreshold) .invalidCommitment
  let slot ← .expectSome s.commitments[idx]?
  if slot.isSome then .ok (false, s) else
  .ok (true, { s with commitments := s.commitments.set idx (some commitment) })

/-- Submit a dealer's commitment, with its proof of possession. -/
def submitCommitment (s : ReshareState P) (commitment : DealerCommitment P)
    (proof : ProofOfKnowledge P S) : ReshareState P × Outcome Error Bool :=
  Outcome.runIn s (s.recordCommitment commitment proof)

/-- One submission: a commitment and the proof that came with it. -/
def submit (s : ReshareState P) (submission : DealerCommitment P × ProofOfKnowledge P S) :
    ReshareState P × Outcome Error Bool :=
  s.submitCommitment submission.1 submission.2

/-! ### What is recorded -/

/-- The state with a commitment in its slot. -/
def record (s : ReshareState P) (idx : ℕ) (commitment : DealerCommitment P) : ReshareState P :=
  { s with commitments := s.commitments.set idx (some commitment) }

/-- What a commitment and its proof have to satisfy to be recorded in the slot `idx`. -/
structure Records (s : ReshareState P) (idx : ℕ) (commitment : DealerCommitment P)
    (proof : ProofOfKnowledge P S) : Prop where
  possession : verifyPossession commitment s.targetEpoch proof = true
  slotOf_eq : slotOf commitment.dealerIndex = some idx
  threshold_eq : commitment.threshold = s.newThreshold
  empty : s.commitments[idx]? = some none

/-- A commitment that passes every check and finds its slot empty is recorded. -/
lemma Records.submitCommitment_eq {s : ReshareState P} {idx : ℕ} {c : DealerCommitment P}
    {proof : ProofOfKnowledge P S} (h : s.Records idx c proof) :
    s.submitCommitment c proof = (s.record idx c, .ok true) := by
  have hlt : ¬s.commitments.length ≤ idx :=
    not_le.mpr (List.getElem?_eq_some_iff.mp h.empty).1
  have hrecord : s.recordCommitment c proof = .ok (true, s.record idx c) := by
    rw [recordCommitment, Outcome.refuse_of_neg (by simp [h.possession]), Outcome.ok_bind]
    simp only [h.slotOf_eq, Outcome.okOr_some, Outcome.ok_bind, Outcome.refuse_of_neg hlt,
      Outcome.refuse_of_neg (not_not.mpr h.threshold_eq), h.empty, Outcome.expectSome_some]
    rfl
  rw [submitCommitment, hrecord]
  rfl

/-- A submission is recorded in the empty slot its index names, or changes nothing. -/
theorem submitCommitment_cases (s : ReshareState P) (c : DealerCommitment P)
    (proof : ProofOfKnowledge P S) :
    (∃ idx, s.Records idx c proof ∧ s.submitCommitment c proof = (s.record idx c, .ok true)) ∨
      ((s.submitCommitment c proof).1 = s ∧ (s.submitCommitment c proof).2 ≠ .ok true) := by
  rcases Outcome.runIn_cases s (s.recordCommitment c proof) with
    ⟨b, s', hok, hrun⟩ | ⟨-, hsame, hne⟩
  · simp only [recordCommitment, Outcome.bind_eq_ok_iff, Outcome.refuse_eq_ok_iff,
      Outcome.okOr_eq_ok_iff, Outcome.expectSome_eq_ok_iff, Bool.not_eq_false, not_not] at hok
    obtain ⟨_, hproof, idx, hidx, _, -, _, hthr, slot, hslot, hrest⟩ := hok
    split at hrest
    · obtain ⟨rfl, rfl⟩ := Prod.mk.inj (Outcome.ok.inj hrest)
      rw [submitCommitment, hrun]
      exact .inr ⟨rfl, by simp⟩
    · next hempty =>
      have hnone : slot = none := by simpa using hempty
      have hrec : s.Records idx c proof := ⟨hproof, hidx, hthr, hnone ▸ hslot⟩
      exact .inl ⟨idx, hrec, hrec.submitCommitment_eq⟩
  · exact .inr ⟨hsame, hne true⟩

/-- What every reachable state satisfies. -/
structure Inv (s : ReshareState P) : Prop where
  indexed : Slots.Indexed DkgState.slotKey s.commitments
  ne_zero : ∀ c ∈ s.commitments.reduceOption, c.dealerIndex ≠ 0
  threshold_eq : ∀ c ∈ s.commitments.reduceOption, c.threshold = s.newThreshold
  possession : ∀ c ∈ s.commitments.reduceOption, ∃ proof : ProofOfKnowledge P S,
    verifyPossession c s.targetEpoch proof = true

lemma inv_new (targetEpoch : UInt64)
    (oldDealerCount oldThreshold newThreshold newPlayerCount : UInt32) (groupKey : P) :
    (new targetEpoch oldDealerCount oldThreshold newThreshold newPlayerCount groupKey).Inv where
  indexed := Slots.indexed_replicate_none _
  ne_zero := by simp [new]
  threshold_eq := by simp [new]
  possession := by simp [new]

variable {s : ReshareState P}

/-- A submission keeps the invariant. -/
lemma Inv.submit (h : s.Inv) (submission : DealerCommitment P × ProofOfKnowledge P S) :
    (s.submit submission).1.Inv := by
  rcases s.submitCommitment_cases submission.1 submission.2 with ⟨idx, hrec, hs⟩ | ⟨hs, -⟩
  · have hindex := slotOf_eq_some_iff.mp hrec.slotOf_eq
    have hmem : ∀ c ∈ (s.record idx submission.1).commitments.reduceOption,
        c = submission.1 ∨ c ∈ s.commitments.reduceOption := fun c hc =>
      (Slots.mem_reduceOption_set_some hrec.empty).mp hc
    rw [ReshareState.submit, hs]
    refine ⟨h.indexed.set_some (DkgState.slotKey_eq hrec.slotOf_eq), ?_, ?_, ?_⟩
    · intro c hc
      rcases hmem c hc with rfl | hc
      · exact toNat_ne_zero_iff.mp (by omega)
      · exact h.ne_zero c hc
    · intro c hc
      rcases hmem c hc with rfl | hc
      · exact hrec.threshold_eq
      · exact h.threshold_eq c hc
    · intro c hc
      rcases hmem c hc with rfl | hc
      · exact ⟨submission.2, hrec.possession⟩
      · exact h.possession c hc
  · rwa [ReshareState.submit, hs]

/-- Every run of submissions keeps the invariant. -/
theorem inv_run (h : s.Inv) (submissions : List (DealerCommitment P × ProofOfKnowledge P S)) :
    (Calls.run submit s submissions).Inv :=
  Calls.run_invariant h fun submission _ _ hs => hs.submit submission

/-! ### Later states -/

/-- The second state was reached from the first one: the parameters are the same, and
nothing that was recorded is gone. -/
structure Later (s s' : ReshareState P) : Prop where
  oldThreshold_eq : s'.oldThreshold = s.oldThreshold
  newThreshold_eq : s'.newThreshold = s.newThreshold
  groupKey_eq : s'.groupKey = s.groupKey
  subset : s.commitments.reduceOption ⊆ s'.commitments.reduceOption

lemma later_run (s : ReshareState P)
    (submissions : List (DealerCommitment P × ProofOfKnowledge P S)) :
    s.Later (Calls.run submit s submissions) := by
  refine Calls.run_invariant (I := s.Later) ⟨rfl, rfl, rfl, List.Subset.refl _⟩
    fun submission _ s' h => ?_
  rcases s'.submitCommitment_cases submission.1 submission.2 with ⟨idx, hrec, hs⟩ | ⟨hs, -⟩
  · rw [submit, hs]
    refine ⟨h.oldThreshold_eq, h.newThreshold_eq, h.groupKey_eq, fun c hc => ?_⟩
    exact (Slots.mem_reduceOption_set_some hrec.empty).mpr (.inr (h.subset hc))
  · rwa [submit, hs]

/-- What every submitted commitment satisfies, every recorded one does. -/
lemma forall_recorded_run {Q : DealerCommitment P → Prop}
    (hold : ∀ c ∈ s.commitments.reduceOption, Q c)
    {submissions : List (DealerCommitment P × ProofOfKnowledge P S)}
    (h : ∀ m ∈ submissions, Q m.1) :
    ∀ c ∈ (Calls.run submit s submissions).commitments.reduceOption, Q c := by
  refine Calls.run_invariant (I := fun s : ReshareState P =>
    ∀ c ∈ s.commitments.reduceOption, Q c) hold fun m hm s hs c hc => ?_
  rcases s.submitCommitment_cases m.1 m.2 with ⟨idx, hrec, hrecord⟩ | ⟨hsame, -⟩
  · rw [submit, hrecord] at hc
    rcases (Slots.mem_reduceOption_set_some hrec.empty).mp hc with rfl | hc
    · exact h m hm
    · exact hs c hc
  · rw [submit, hsame] at hc
    exact hs c hc

/-! ### The dealer set -/

/-- The dealers that have committed, in ascending order. -/
def committed (s : ReshareState P) : List UInt32 :=
  s.commitments.reduceOption.map DealerCommitment.dealerIndex

omit [CurveScalar S] [CurvePoint P S] [Sha2] in
lemma length_committed (s : ReshareState P) : s.committed.length = s.commitmentCount := by
  rw [committed, List.length_map, List.reduceOption_length_eq, commitmentCount]

omit [CurveScalar S] [CurvePoint P S] [Sha2] in
lemma dealerSet_eq_some_iff {dealers : List UInt32} :
    s.dealerSet = some dealers ↔ s.oldThreshold.toNat ≤ s.committed.length ∧
      s.committed.take s.oldThreshold.toNat = dealers := by
  have hiff : s.hasQuorum = true ↔ s.oldThreshold.toNat ≤ s.committed.length := by
    rw [hasQuorum, length_committed, decide_eq_true_eq]
  unfold dealerSet
  split
  · next hquorum =>
    rw [Option.some.injEq]
    exact ⟨fun heq => ⟨hiff.mp hquorum, heq⟩, fun h => h.2⟩
  · next hquorum => simp [← hiff, hquorum]

lemma Inv.pairwise_committed (h : s.Inv) : s.committed.Pairwise (· < ·) :=
  List.pairwise_map.mpr
    (h.indexed.pairwise_reduceOption.imp DkgState.dealerIndex_lt_of_slotKey_lt)

/-- **When the dealer set stays.**  Once there is a dealer set there always is one, and at
two points of a run it is the same exactly when every dealer that committed in between comes
after all of its members. -/
theorem dealerSet_stays_iff {targetEpoch : UInt64}
    {oldDealerCount oldThreshold newThreshold newPlayerCount : UInt32} {groupKey : P}
    {s₀ : ReshareState P}
    (hnew : s₀ = new targetEpoch oldDealerCount oldThreshold newThreshold newPlayerCount groupKey)
    (submissions later : List (DealerCommitment P × ProofOfKnowledge P S))
    {dealers : List UInt32} (hset : (Calls.run submit s₀ submissions).dealerSet = some dealers) :
    ∃ dealers', (Calls.run submit s₀ (submissions ++ later)).dealerSet = some dealers' ∧
      (dealers' = dealers ↔
        ∀ i ∈ (Calls.run submit s₀ (submissions ++ later)).committed,
          i ∉ (Calls.run submit s₀ submissions).committed → ∀ d ∈ dealers, d < i) := by
  have hinv : ∀ submissions, (Calls.run submit s₀ submissions).Inv := fun submissions => by
    rw [hnew]
    exact inv_run (inv_new _ _ _ _ _ _) submissions
  have hlater := later_run (Calls.run submit s₀ submissions) later
  rw [← Calls.run_append] at hlater
  have hsub := List.map_subset DealerCommitment.dealerIndex hlater.subset
  have hpair := (hinv submissions).pairwise_committed
  obtain ⟨hquorum, rfl⟩ := dealerSet_eq_some_iff.mp hset
  have hle := (List.subperm_of_subset (Sorted.nodup_of_pairwise hpair) hsub).length_le
  refine ⟨_, dealerSet_eq_some_iff.mpr ⟨?_, rfl⟩, ?_⟩
  · rw [hlater.oldThreshold_eq]
    exact hquorum.trans hle
  · rw [hlater.oldThreshold_eq]
    exact Sorted.take_eq_take_iff hpair (hinv _).pairwise_committed hsub hquorum

end ReshareState

end State

/-! ### Two dealers, of which one is enough -/

section TwoDealers

open Reference

/-- The submission of dealer `i` for the constant `5` with `m` zeros behind it, in epoch
7. -/
def paddedSubmission (i : UInt32) (m : ℕ) (h : m + 1 < 2 ^ 58) :
    DealerCommitment Residue × ProofOfKnowledge Residue Residue :=
  (padded i m h,
    (ProofOfKnowledge.proveIn resharePokDomain i 7 ((5 : ℕ) : Residue) (Stream'.const 1)).1)

/-- A fresh state for two old dealers with the threshold 1, in epoch 7. -/
def freshState : ReshareState Residue := ReshareState.new 7 2 1 1 1 ((5 : ℕ) : Residue)

/-- A dealer proves that it knows the constant of what it commits to. -/
lemma verifyPossession_proveIn {c : DealerCommitment Residue} {a : Residue} (epoch : UInt64)
    (hhead : c.coefficients.head? = some a) :
    verifyPossession c epoch (ProofOfKnowledge.proveIn resharePokDomain c.dealerIndex epoch a
      (Stream'.const 1)).1 = true := by
  have hproof := ProofOfKnowledge.verifyIn_proveIn (P := Residue) resharePokDomain c.dealerIndex
    epoch a (Stream'.const 1)
  have hkey : a • (generator : Residue) = a := mul_one _
  rw [hkey] at hproof
  simpa only [verifyPossession, hhead] using hproof

lemma records_padded {s : ReshareState Residue} {i : UInt32} {m idx : ℕ} (h : m + 1 < 2 ^ 58)
    (hepoch : s.targetEpoch = 7) (hslot : slotOf i = some idx)
    (hthr : UInt32.ofNat (m + 1) = s.newThreshold) (hempty : s.commitments[idx]? = some none) :
    s.Records idx (paddedSubmission i m h).1 (paddedSubmission i m h).2 := by
  refine ⟨?_, hslot, (threshold_padded h).trans hthr, hempty⟩
  rw [hepoch]
  exact verifyPossession_proveIn 7 rfl

/-- The state after dealer `i` submitted. -/
def afterOne (i : UInt32) : ReshareState Residue :=
  Calls.run ReshareState.submit freshState [paddedSubmission i 0 fits_zero]

/-- The state after dealer `i'` submitted, too. -/
def afterBoth (i i' : UInt32) : ReshareState Residue :=
  Calls.run ReshareState.submit freshState
    ([paddedSubmission i 0 fits_zero] ++ [paddedSubmission i' 0 fits_zero])

/-- The first submission is recorded. -/
lemma run_paddedSubmission {i : UInt32} {m idx : ℕ} (h : m + 1 < 2 ^ 58)
    (hslot : slotOf i = some idx) (hthr : UInt32.ofNat (m + 1) = 1)
    (hempty : freshState.commitments[idx]? = some none) :
    Calls.run ReshareState.submit freshState [paddedSubmission i m h]
      = freshState.record idx (padded i m h) := by
  have hrec := records_padded (s := freshState) h rfl hslot hthr hempty
  rw [Calls.run_cons, Calls.run_nil, ReshareState.submit, hrec.submitCommitment_eq]
  rfl

lemma afterOne_eq {i : UInt32} {idx : ℕ} (hslot : slotOf i = some idx)
    (hempty : freshState.commitments[idx]? = some none) :
    afterOne i = freshState.record idx (padded i 0 fits_zero) :=
  run_paddedSubmission fits_zero hslot rfl hempty

lemma afterBoth_eq {i i' : UInt32} {idx idx' : ℕ} (hslot : slotOf i = some idx)
    (hempty : freshState.commitments[idx]? = some none) (hslot' : slotOf i' = some idx')
    (hempty' : (freshState.commitments.set idx (some (padded i 0 fits_zero)))[idx']?
      = some none) :
    afterBoth i i' = (freshState.record idx (padded i 0 fits_zero)).record idx'
      (padded i' 0 fits_zero) := by
  have hrec := records_padded (s := freshState.record idx (padded i 0 fits_zero))
    fits_zero rfl hslot' rfl hempty'
  rw [afterBoth, Calls.run_append, ← afterOne, afterOne_eq hslot hempty, Calls.run_cons,
    Calls.run_nil, ReshareState.submit, hrec.submitCommitment_eq]
  rfl

/-- Dealer 2 is the dealer set until dealer 1 commits. -/
theorem dealerSet_moves :
    ¬∀ (targetEpoch : UInt64)
      (oldDealerCount oldThreshold newThreshold newPlayerCount : UInt32) (groupKey : Residue)
      (submissions later : List (DealerCommitment Residue × ProofOfKnowledge Residue Residue))
      (s s' : ReshareState Residue) (dealers dealers' : List UInt32),
      s = Calls.run ReshareState.submit (ReshareState.new targetEpoch oldDealerCount
        oldThreshold newThreshold newPlayerCount groupKey) submissions →
      s' = Calls.run ReshareState.submit (ReshareState.new targetEpoch oldDealerCount
        oldThreshold newThreshold newPlayerCount groupKey) (submissions ++ later) →
      s.dealerSet = some dealers → s'.dealerSet = some dealers' → dealers' = dealers := by
  intro hall
  have hone : (afterOne 2).dealerSet = some [2] := by
    rw [afterOne_eq (show slotOf 2 = some 1 by decide) rfl]
    rfl
  have hboth : (afterBoth 2 1).dealerSet = some [1] := by
    rw [afterBoth_eq (show slotOf 2 = some 1 by decide) rfl (show slotOf 1 = some 0 by decide)
      rfl]
    rfl
  have hsame := hall _ _ _ _ _ _ _ _ _ _ _ _ rfl rfl hone hboth
  exact absurd hsame (by decide)

/-- Dealer 1 stays the dealer set when dealer 2 commits. -/
theorem dealerSet_stays_afterBoth : (afterBoth 1 2).dealerSet = some [1] := by
  have hone := afterOne_eq (show slotOf 1 = some 0 by decide) rfl
  have hboth := afterBoth_eq (show slotOf 1 = some 0 by decide) rfl
    (show slotOf 2 = some 1 by decide) rfl
  have hset : (afterOne 1).dealerSet = some [1] := by
    rw [hone]
    rfl
  have hnew : freshState = ReshareState.new 7 2 1 1 1 ((5 : ℕ) : Residue) := rfl
  obtain ⟨dealers', hset', hiff⟩ := ReshareState.dealerSet_stays_iff hnew
    [paddedSubmission 1 0 fits_zero] [paddedSubmission 2 0 fits_zero] hset
  have hone' : (afterOne 1).committed = [1] := by
    rw [hone]
    rfl
  have hboth' : (afterBoth 1 2).committed = [1, 2] := by
    rw [hboth]
    rfl
  rw [← afterBoth, ← afterOne, hone', hboth'] at hiff
  rw [afterBoth, hset', hiff.mpr (by simp)]

end TwoDealers

end Frostito.Reshare
