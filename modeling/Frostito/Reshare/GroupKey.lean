import Frostito.Reshare.Order
import Frostito.Reshare.Soundness
import Frostito.Reshare.State

/-!
# The group key on the chain and at the players

The round state checks the group key against the constant terms of the dealer set alone; a
player derives the whole polynomial from the commitments that came with its sub-shares.  For
the recorded commitments the two say the same, whoever the player is, as long as no
commitment of the dealer set has more coefficients than a `u32` counts.
-/

namespace Frostito.Reshare

section GroupKey

variable {S P : Type} [CurveScalar S] [CurvePoint P S]

namespace ReshareState

/-- An aggregator over a dealer set that every dealer has delivered to, with a valid
sub-share for its recorded commitment. -/
structure Completes (s : ReshareState P) (dealers : List UInt32) (j : UInt32)
    (a : Aggregator P S) : Prop where
  run : ∃ a₀ deliveries, Aggregator.new j dealers = .ok a₀ ∧ a = Calls.run deliver a₀ deliveries
  isComplete : a.isComplete = true
  recorded : a.commitments ⊆ s.getCommitments

/-- The state's dealer set and its check of the group key are what the players find. -/
structure Faithful (s : ReshareState P) : Prop where
  isSome_iff : s.dealerSet.isSome = true ↔ s.oldThreshold.toNat ≤ s.getCommitments.length
  dealerSet : ∀ dealers, s.dealerSet = some dealers → dealers.Pairwise (· < ·) ∧
    dealers.length = s.oldThreshold.toNat ∧
    ∀ d ∈ dealers, ∃ c ∈ s.getCommitments, c.dealerIndex = d
  ne_panic : s.verifyGroupKey ≠ .panic
  of_true : s.verifyGroupKey = .ok true → ∀ dealers, s.dealerSet = some dealers →
    ∀ (j : UInt32) (a : Aggregator P S), s.Completes dealers j a →
      ∃ r, a.finalize s.groupKey = .ok r
  of_false : s.verifyGroupKey = .ok false → ∀ dealers, s.dealerSet = some dealers →
    ∀ (j : UInt32) (a : Aggregator P S), s.Completes dealers j a →
      a.finalize s.groupKey = .err .invalidCommitment

/-- No recorded commitment of the dealer set has more coefficients than a `u32` counts. -/
def CountsCoefficients (s : ReshareState P) : Prop :=
  ∀ dealers, s.dealerSet = some dealers → ∀ c ∈ s.getCommitments, c.dealerIndex ∈ dealers →
    c.coefficients.length < 2 ^ 32

/-! ### The check of the state -/

/-- The constant term of the commitment recorded for a dealer. -/
def constantOf (s : ReshareState P) (d : UInt32) : P :=
  match s.commitments[d.toNat - 1]? with
  | some (some c) => c.coefficients.headD 0
  | _ => 0

/-- The Lagrange combination of the recorded constant terms. -/
def derivedKey (s : ReshareState P) (dealers : List UInt32) : P :=
  (dealers.map fun d => (lagrangeCoeff dealers d : S) • s.constantOf d).sum

variable [Sha2] {s : ReshareState P} {dealers : List UInt32}

lemma Inv.coefficients_ne_nil (h : s.Inv) {c : DealerCommitment P} (hc : c ∈ s.getCommitments) :
    c.coefficients ≠ [] := by
  obtain ⟨proof, hproof⟩ := h.possession c hc
  rintro hnil
  simp [verifyPossession, hnil] at hproof

/-- The commitment of a dealer is found in its slot. -/
lemma Inv.slot_eq (h : s.Inv) {c : DealerCommitment P} (hc : c ∈ s.getCommitments) :
    s.commitments[c.dealerIndex.toNat - 1]? = some (some c) :=
  h.indexed.mem_reduceOption_iff.mp hc

lemma Inv.constantOf_eq (h : s.Inv) {c : DealerCommitment P} (hc : c ∈ s.getCommitments) :
    s.constantOf c.dealerIndex = c.coefficients.headD 0 := by
  rw [constantOf, h.slot_eq hc]

/-- A dealer has one recorded commitment. -/
lemma Inv.eq_of_dealerIndex_eq (h : s.Inv) {c c' : DealerCommitment P}
    (hc : c ∈ s.getCommitments) (hc' : c' ∈ s.getCommitments)
    (heq : c.dealerIndex = c'.dealerIndex) : c = c' := by
  have hslot := h.slot_eq hc
  rw [heq, h.slot_eq hc', Option.some.injEq, Option.some.injEq] at hslot
  exact hslot.symm

omit [CurveScalar S] [CurvePoint P S] [Sha2] in
/-- The members of the dealer set have committed. -/
lemma exists_recorded (hset : s.dealerSet = some dealers) {d : UInt32} (hd : d ∈ dealers) :
    ∃ c ∈ s.getCommitments, c.dealerIndex = d := by
  obtain ⟨-, rfl⟩ := dealerSet_eq_some_iff.mp hset
  exact List.mem_map.mp (List.mem_of_mem_take hd)

lemma Inv.pairwise_dealerSet (h : s.Inv) (hset : s.dealerSet = some dealers) :
    dealers.Pairwise (· < ·) := by
  obtain ⟨-, rfl⟩ := dealerSet_eq_some_iff.mp hset
  exact h.pairwise_committed.take

lemma Inv.validIndices (h : s.Inv) (hset : s.dealerSet = some dealers) (hne : dealers ≠ []) :
    ValidIndices dealers := by
  refine ⟨hne, fun h0 => ?_, Sorted.nodup_of_pairwise (h.pairwise_dealerSet hset)⟩
  obtain ⟨c, hc, hzero⟩ := exists_recorded hset h0
  exact h.ne_zero c hc hzero

section Injective

variable (hinj : Function.Injective (fromU32 : UInt32 → S))
include hinj

/-- With a dealer set, the check compares the combination of the constant terms. -/
theorem Inv.verifyGroupKey_eq (h : s.Inv) (hset : s.dealerSet = some dealers)
    (hne : dealers ≠ []) :
    s.verifyGroupKey = .ok (decide (s.derivedKey dealers = s.groupKey)) := by
  have hstep : ∀ p ∈ dealers.zip (dealers.map (lagrangeCoeff dealers : UInt32 → S)),
      ∀ derivedKey : P, (do
        let idx ← .checkedSub p.1.toNat 1
        let slot ← .expectSome s.commitments[idx]?
        let commitment ← .expectSome slot
        let c0 ← commitment.shareCommitment
        return derivedKey + p.2 • c0 : Outcome Error P)
        = .ok (derivedKey + p.2 • s.constantOf p.1) := by
    intro p hp key
    obtain ⟨c, hc, hd⟩ := exists_recorded hset (List.of_mem_zip hp).1
    have hpos : 1 ≤ p.1.toNat := by
      rw [← hd]
      exact Nat.one_le_iff_ne_zero.mpr (toNat_ne_zero_iff.mpr (h.ne_zero c hc))
    rw [Outcome.checkedSub, if_pos hpos, Outcome.ok_bind, ← hd, h.slot_eq hc, h.constantOf_eq hc,
      Outcome.expectSome_some, Outcome.ok_bind, Outcome.expectSome_some, Outcome.ok_bind,
      DealerCommitment.shareCommitment_eq_ok (h.coefficients_ne_nil hc) 0]
    rfl
  rw [verifyGroupKey, hset, Outcome.okOr_some, Outcome.ok_bind,
    computeLagrangeCoefficients_eq hinj (h.validIndices hset hne), Outcome.ok_bind,
    Outcome.foldlM_eq_ok_foldl hstep, Outcome.ok_bind, zip_map_self, List.foldl_map, derivedKey,
    List.sum_eq_foldl, List.foldl_map]

/-- When the combination is the group key, the check says so. -/
lemma Inv.verifyGroupKey_eq_true (h : s.Inv) (hset : s.dealerSet = some dealers)
    (hne : dealers ≠ []) (hkey : s.derivedKey dealers = s.groupKey) :
    s.verifyGroupKey = .ok true := by
  rw [h.verifyGroupKey_eq hinj hset hne, decide_eq_true hkey]

/-- The check does not panic, and says something only for a dealer set with members. -/
lemma Inv.verifyGroupKey_cases (h : s.Inv) :
    (∃ dealers, s.dealerSet = some dealers ∧ dealers ≠ [] ∧
      s.verifyGroupKey = .ok (decide (s.derivedKey dealers = s.groupKey))) ∨
    ∃ e, s.verifyGroupKey = .err e := by
  cases hset : s.dealerSet with
  | none =>
    right
    refine ⟨.insufficientContributions s.commitmentCount s.oldThreshold.toNat, ?_⟩
    rw [verifyGroupKey, hset, Outcome.okOr_none, Outcome.err_bind]
  | some dealers =>
    cases dealers with
    | nil =>
      right
      refine ⟨.emptyContributions, ?_⟩
      rw [verifyGroupKey, hset, Outcome.okOr_some, Outcome.ok_bind]
      rfl
    | cons d rest =>
      exact .inl ⟨_, rfl, List.cons_ne_nil _ _,
        h.verifyGroupKey_eq hinj hset (List.cons_ne_nil _ _)⟩

end Injective

/-! ### The check of a player -/

section Completes

variable {j : UInt32} {a : Aggregator P S}

omit [Sha2] in
lemma Completes.inv (hc : s.Completes dealers j a) : Reshare.Inv j dealers a := by
  obtain ⟨a₀, deliveries, hnew, rfl⟩ := hc.run
  exact Reshare.inv_run (Reshare.inv_new hnew) deliveries

omit [CurveScalar S] [CurvePoint P S] [Sha2] in
lemma Completes.length_eq [CurveScalar S] [CurvePoint P S] (hc : s.Completes dealers j a) :
    a.subshares.length = a.dealerSet.length := by
  simpa [Aggregator.isComplete] using hc.isComplete

/-- What the player stored from a dealer is what the state recorded for it. -/
lemma Completes.headD_coefficientsOf (h : s.Inv) (hc : s.Completes dealers j a) {d : UInt32}
    (hd : d ∈ a.dealerSet) : (a.coefficientsOf d).headD 0 = s.constantOf d := by
  obtain ⟨c, hstored, hof, hcoeffs, -⟩ := hc.inv.exists_stored hc.length_eq hd
  rw [hcoeffs, ← Aggregator.dealerIndex_of_commitmentOf hof, h.constantOf_eq (hc.recorded hstored)]

/-- The player combines the same constant terms. -/
lemma Completes.constantTerm_eq (h : s.Inv) (hc : s.Completes dealers j a) :
    a.constantTerm = s.derivedKey dealers := by
  have hperm := hc.inv.perm_dealerSet
  rw [Aggregator.constantTerm, derivedKey, lagrangeCoeff_congr fun i => hperm.mem_iff,
    List.map_congr_left fun d hd => by rw [hc.headD_coefficientsOf h hd]]
  exact (hperm.map _).sum_eq

omit [Sha2] in
/-- What the player stored comes from dealers of the set. -/
lemma Completes.dealerIndex_mem (hc : s.Completes dealers j a) {c : DealerCommitment P}
    (hstored : c ∈ a.commitments) : c.dealerIndex ∈ dealers := by
  obtain ⟨received, hr⟩ := hc.inv.holds
  rw [hr.commitments_eq] at hstored
  obtain ⟨r, hrm, rfl⟩ := List.mem_map.mp hstored
  exact hc.inv.perm_dealerSet.mem_iff.mp (hr.mem r hrm)

/-- The player's answer is the state's. -/
theorem Completes.finalize_eq (h : s.Inv) (hinj : Function.Injective (fromU32 : UInt32 → S))
    (hset : s.dealerSet = some dealers) (hcount : s.CountsCoefficients)
    (hc : s.Completes dealers j a) :
    a.finalize s.groupKey = if s.derivedKey dealers = s.groupKey then
      .ok ((a.dealerSet.map fun d => lagrangeCoeff a.dealerSet d * a.valueOf d).sum,
        ⟨a.combination⟩)
    else .err .invalidCommitment := by
  rw [← hc.constantTerm_eq h]
  refine hc.inv.finalize_eq hc.length_eq (fun c hstored => ?_) hinj (fun c hstored => ?_) _
  · exact hcount dealers hset c (hc.recorded hstored) (hc.dealerIndex_mem hstored)
  · exact h.coefficients_ne_nil (hc.recorded hstored)

end Completes

omit [Sha2] in
/-- A player that is sent a valid sub-share for each of some commitments, of different dealers and
of one threshold, stores them all. -/
lemma exists_run_stores [PrimeOrder P] {stored : List (DealerCommitment P)}
    (hvalid : ValidIndices (stored.map DealerCommitment.dealerIndex))
    (hthreshold : ∀ c ∈ stored, ∀ c' ∈ stored, c.threshold = c'.threshold) :
    ∃ (a₀ : Aggregator P S) (deliveries : List (SubShare S × DealerCommitment P)),
      Aggregator.new 1 (stored.map DealerCommitment.dealerIndex) = .ok a₀ ∧
      (Calls.run deliver a₀ deliveries).isComplete = true ∧
      (Calls.run deliver a₀ deliveries).commitments = stored := by
  -- the sub-share of player 1 for a commitment
  choose value hvalue using fun c : DealerCommitment P =>
    exists_smul_generator_eq (Horner.horner (fromU32 1 : S) c.coefficients)
  let dealers := stored.map DealerCommitment.dealerIndex
  let ms := stored.map fun c => ((⟨c.dealerIndex, 1, value c⟩ : SubShare S), c)
  have hof : ∀ m ∈ ms, ∃ c ∈ stored, m = (⟨c.dealerIndex, 1, value c⟩, c) := by
    intro m hm
    obtain ⟨c, hc, rfl⟩ := List.mem_map.mp hm
    exact ⟨c, hc, rfl⟩
  have hall : ∀ m ∈ ms, ValidFor 1 dealers m := by
    intro m hm
    obtain ⟨c, hc, rfl⟩ := hof m hm
    refine ⟨rfl, rfl, List.mem_map_of_mem hc, ?_⟩
    exact DealerCommitment.verifySubshare_iff.mpr ⟨by decide, hvalue c⟩
  have hone : (ms.map fun m => m.1.dealerIndex).Nodup := by
    rw [List.map_map]
    exact hvalid.nodup
  have hthr : OneThreshold 1 dealers ms := by
    intro m hm m' hm' _ _
    obtain ⟨c, hc, rfl⟩ := hof m hm
    obtain ⟨c', hc', rfl⟩ := hof m' hm'
    exact hthreshold c hc c' hc'
  have hnew : Aggregator.new 1 dealers
      = .ok (⟨1, dealers.insertionSort (· ≤ ·), [], []⟩ : Aggregator P S) :=
    Aggregator.new_eq_ok_iff.mpr ⟨by decide, hvalid, rfl⟩
  have hrun := (Reshare.inv_new hnew).run_stores ⟨rfl, rfl⟩ hone hthr
  rw [List.filter_eq_self.mpr fun m hm => decide_eq_true (hall m hm)] at hrun
  refine ⟨_, ms, hnew, ?_, ?_⟩
  · have hset := (Reshare.inv_run (Reshare.inv_new hnew) ms).dealerSet_eq
    rw [Aggregator.isComplete, hset, hrun.subshares_eq, List.length_map, List.length_map,
      List.length_insertionSort, List.length_map, beq_self_eq_true]
  · rw [hrun.commitments_eq, List.map_map]
    exact List.map_id' stored

/-- A player can complete the dealer set of any state, with valid sub-shares for what is
recorded. -/
theorem Inv.exists_completes [PrimeOrder P] (h : s.Inv) (hset : s.dealerSet = some dealers)
    (hne : dealers ≠ []) :
    ∃ a : Aggregator P S, s.Completes dealers 1 a ∧
      ∀ c ∈ s.getCommitments, c.dealerIndex ∈ dealers → c ∈ a.commitments := by
  have hvalid := h.validIndices hset hne
  obtain ⟨-, hdealers⟩ := dealerSet_eq_some_iff.mp hset
  have hindices : (s.getCommitments.take s.oldThreshold.toNat).map DealerCommitment.dealerIndex
      = dealers := by
    rw [← hdealers, committed, ← List.map_take]
    rfl
  obtain ⟨a₀, deliveries, hnew, hcomplete, hcommitments⟩ := exists_run_stores (hindices ▸ hvalid)
    fun c hc c' hc' => by
      rw [h.threshold_eq c (List.mem_of_mem_take hc), h.threshold_eq c' (List.mem_of_mem_take hc')]
  rw [hindices] at hnew
  refine ⟨_, ⟨⟨a₀, deliveries, hnew, rfl⟩, hcomplete, ?_⟩, ?_⟩
  · rw [hcommitments]
    exact List.take_subset _ _
  · intro c hc hmem
    rw [← hindices] at hmem
    obtain ⟨c', hc', heq⟩ := List.mem_map.mp hmem
    rw [hcommitments, h.eq_of_dealerIndex_eq hc (List.mem_of_mem_take hc') heq.symm]
    exact hc'

/-- A state is faithful exactly when it counts the coefficients. -/
lemma Inv.faithful_iff_counts [PrimeOrder P] (h : s.Inv) : s.Faithful ↔ s.CountsCoefficients := by
  have hinj := fromU32_injective P
  constructor
  · intro hfaithful dealers hset c hc hmem
    by_contra hlong
    -- a player that completes the set with the long commitment panics
    have hne : dealers ≠ [] := List.ne_nil_of_mem hmem
    obtain ⟨a, hcompletes, hstores⟩ := h.exists_completes hset hne
    have hpanic := hcompletes.inv.finalize_eq_panic hcompletes.length_eq hinj
      (hstores c hc hmem) (not_lt.mp hlong) s.groupKey
    have hcheck := h.verifyGroupKey_eq hinj hset hne
    by_cases hkey : s.derivedKey dealers = s.groupKey
    · rw [decide_eq_true hkey] at hcheck
      obtain ⟨r, hr⟩ := hfaithful.of_true hcheck dealers hset 1 a hcompletes
      rw [hpanic] at hr
      exact absurd hr (by simp)
    · rw [decide_eq_false hkey] at hcheck
      have herr := hfaithful.of_false hcheck dealers hset 1 a hcompletes
      rw [hpanic] at herr
      exact absurd herr (by simp)
  · intro hcount
    have hlen : s.committed.length = s.getCommitments.length := by
      rw [committed, List.length_map, getCommitments]
    have hcheck : ∀ {b : Bool} {dealers : List UInt32}, s.verifyGroupKey = .ok b →
        s.dealerSet = some dealers → b = decide (s.derivedKey dealers = s.groupKey) := by
      intro b dealers hb hset
      rcases h.verifyGroupKey_cases hinj with ⟨dealers', hset', -, hok⟩ | ⟨e, herr⟩
      · rw [hset, Option.some.injEq] at hset'
        rw [hok, Outcome.ok.injEq] at hb
        rw [hset', hb]
      · rw [herr] at hb
        exact absurd hb (by simp)
    refine ⟨?_, fun dealers hset => ⟨h.pairwise_dealerSet hset, ?_, fun d => exists_recorded hset⟩,
      ?_, fun hb dealers hset j a hc => ?_, fun hb dealers hset j a hc => ?_⟩
    · rw [Option.isSome_iff_exists, ← hlen]
      constructor
      · rintro ⟨dealers, hset⟩
        exact (dealerSet_eq_some_iff.mp hset).1
      · intro hquorum
        exact ⟨_, dealerSet_eq_some_iff.mpr ⟨hquorum, rfl⟩⟩
    · obtain ⟨hquorum, rfl⟩ := dealerSet_eq_some_iff.mp hset
      exact List.length_take_of_le hquorum
    · rcases h.verifyGroupKey_cases hinj with ⟨dealers, -, -, hok⟩ | ⟨e, herr⟩
      · simp [hok]
      · simp [herr]
    · have hkey := of_decide_eq_true (hcheck hb hset).symm
      exact ⟨_, by rw [hc.finalize_eq h hinj hset hcount, if_pos hkey]⟩
    · have hkey := of_decide_eq_false (hcheck hb hset).symm
      rw [hc.finalize_eq h hinj hset hcount, if_neg hkey]

/-- **The check of the state agrees with the players.**  In every state reached from a fresh
one it does exactly when the state counts the coefficients of its dealer set, so in every
state of a run in which no commitment has `2 ^ 32` coefficients or more. -/
theorem faithful_run_iff [PrimeOrder P] {targetEpoch : UInt64}
    {oldDealerCount oldThreshold newThreshold newPlayerCount : UInt32} {groupKey : P}
    {s₀ : ReshareState P}
    (hnew : s₀ = new targetEpoch oldDealerCount oldThreshold newThreshold newPlayerCount groupKey)
    (submissions : List (DealerCommitment P × ProofOfKnowledge P S)) :
    (∀ n, (Calls.run submit s₀ (submissions.take n)).Faithful ↔
      (Calls.run submit s₀ (submissions.take n)).CountsCoefficients) ∧
    ((∀ m ∈ submissions, m.1.coefficients.length < 2 ^ 32) →
      ∀ n, (Calls.run submit s₀ (submissions.take n)).Faithful) := by
  have hinv : ∀ n, (Calls.run submit s₀ (submissions.take n)).Inv := fun n => by
    rw [hnew]
    exact inv_run (inv_new _ _ _ _ _ _) _
  refine ⟨fun n => (hinv n).faithful_iff_counts,
    fun hcount n => (hinv n).faithful_iff_counts.mpr ?_⟩
  intro dealers _ c hc _
  refine forall_recorded_run (Q := fun c => c.coefficients.length < 2 ^ 32) ?_
    (fun m hm => hcount m (List.mem_of_mem_take hm)) c hc
  simp [hnew, new]

end ReshareState

end GroupKey

/-! ### One dealer, and its commitment -/

section Padded

open Reference

/-- With `2 ^ 32` zeros in the commitment the state finds the group key, and the player
panics. -/
theorem padded_not_faithful :
    ¬∀ (targetEpoch : UInt64)
      (oldDealerCount oldThreshold newThreshold newPlayerCount : UInt32) (groupKey : Residue)
      (submissions : List (DealerCommitment Residue × ProofOfKnowledge Residue Residue)),
      1 ≤ newThreshold →
      (Calls.run ReshareState.submit (ReshareState.new targetEpoch oldDealerCount oldThreshold
        newThreshold newPlayerCount groupKey) submissions).Faithful := by
  intro hall
  have hlong : ∀ m h, 2 ^ 32 ≤ m → UInt32.ofNat (m + 1) = 1 →
      ¬(Calls.run ReshareState.submit freshState [paddedSubmission 1 m h]).Faithful := by
    intro m h hm hthr hfaithful
    have hinv : (Calls.run ReshareState.submit freshState [paddedSubmission 1 m h]).Inv :=
      ReshareState.inv_run (ReshareState.inv_new _ _ _ _ _ _) _
    have hcount := hinv.faithful_iff_counts.mp hfaithful
    rw [run_paddedSubmission h (show slotOf 1 = some 0 by decide) hthr rfl] at hcount
    have hlt := hcount [1] rfl (padded 1 m h) List.mem_cons_self List.mem_cons_self
    rw [length_padded] at hlt
    omega
  exact hlong (2 ^ 32) (by norm_num) le_rfl rfl (hall 7 2 1 1 1 ((5 : ℕ) : Residue) _ (by decide))

end Padded

/-! ### Two dealers of lines -/

section Lines

open Reference

/-- The submission of dealer `i` for `a + b x`, in epoch 7. -/
def lineSubmission (i : UInt32) (a b : ℕ) :
    DealerCommitment Residue × ProofOfKnowledge Residue Residue :=
  (lineCommitment i a b,
    (ProofOfKnowledge.proveIn resharePokDomain i 7 (a : Residue) (Stream'.const 1)).1)

/-- Two of three old dealers reshare the key `11` to two players. -/
def pairState : ReshareState Residue := .new 7 3 2 2 2 ((11 : ℕ) : Residue)

/-- Dealer 2 is the first to submit. -/
def lineSubmissions : List (DealerCommitment Residue × ProofOfKnowledge Residue Residue) :=
  [lineSubmission 2 17 1, lineSubmission 1 14 2]

/-- The state after both have submitted. -/
def afterLines : ReshareState Residue := Calls.run ReshareState.submit pairState lineSubmissions

lemma commitments_afterLines : afterLines.commitments
    = [some (lineCommitment 1 14 2), some (lineCommitment 2 17 1), none] := by
  have hfirst : pairState.Records 1 (lineSubmission 2 17 1).1 (lineSubmission 2 17 1).2 :=
    ⟨verifyPossession_proveIn 7 rfl, rfl, rfl, rfl⟩
  have hsecond : (pairState.record 1 (lineSubmission 2 17 1).1).Records 0 (lineSubmission 1 14 2).1
      (lineSubmission 1 14 2).2 :=
    ⟨verifyPossession_proveIn 7 rfl, rfl, rfl, rfl⟩
  have hrun : afterLines
      = (pairState.record 1 (lineSubmission 2 17 1).1).record 0 (lineSubmission 1 14 2).1 := by
    rw [afterLines, lineSubmissions, Calls.run_cons, Calls.run_cons, Calls.run_nil,
      ReshareState.submit, ReshareState.submit, hfirst.submitCommitment_eq,
      hsecond.submitCommitment_eq]
  rw [hrun]
  rfl

lemma getCommitments_afterLines :
    afterLines.getCommitments = [lineCommitment 1 14 2, lineCommitment 2 17 1] := by
  rw [ReshareState.getCommitments, commitments_afterLines]
  rfl

lemma dealerSet_afterLines : afterLines.dealerSet = some [1, 2] := by
  refine ReshareState.dealerSet_eq_some_iff.mpr ?_
  have hcommitted : afterLines.committed = [1, 2] := by
    rw [ReshareState.committed, commitments_afterLines]
    rfl
  have hthreshold : afterLines.oldThreshold = 2 := by
    rw [afterLines, (ReshareState.later_run pairState lineSubmissions).oldThreshold_eq, pairState,
      ReshareState.new]
  rw [hcommitted, hthreshold]
  exact ⟨le_rfl, rfl⟩

/-- `2 · 14 - 17` is the key. -/
lemma verifyGroupKey_afterLines : afterLines.verifyGroupKey = .ok true := by
  have hinv : afterLines.Inv := ReshareState.inv_run (ReshareState.inv_new _ _ _ _ _ _) _
  have hconstant : afterLines.constantOf 1 = ((14 : ℕ) : Residue) ∧
      afterLines.constantOf 2 = ((17 : ℕ) : Residue) := by
    rw [ReshareState.constantOf, ReshareState.constantOf, commitments_afterLines]
    exact ⟨rfl, rfl⟩
  have hgroupKey : afterLines.groupKey = ((11 : ℕ) : Residue) := by
    rw [afterLines, (ReshareState.later_run pairState lineSubmissions).groupKey_eq, pairState,
      ReshareState.new]
  have hkey : afterLines.derivedKey [1, 2] = afterLines.groupKey := by
    rw [ReshareState.derivedKey, List.map_cons, List.map_singleton, List.sum_cons,
      List.sum_singleton, lagrangeCoeff_pair.1, lagrangeCoeff_pair.2, hconstant.1, hconstant.2,
      hgroupKey, smul_eq_mul, smul_eq_mul]
    norm_num
  exact hinv.verifyGroupKey_eq_true (fromU32_injective Residue) dealerSet_afterLines
    (List.cons_ne_nil _ _) hkey

/-- The state and the players agree about the two lines. -/
theorem lines_faithful : afterLines.Faithful ∧ afterLines.dealerSet = some [1, 2] ∧
    afterLines.verifyGroupKey = .ok true := by
  have hcount : ∀ m ∈ lineSubmissions, m.1.coefficients.length < 2 ^ 32 :=
    List.forall_mem_cons.mpr ⟨show 2 < 2 ^ 32 by norm_num,
      List.forall_mem_singleton.mpr (show 2 < 2 ^ 32 by norm_num)⟩
  exact ⟨(ReshareState.faithful_run_iff rfl lineSubmissions).2 hcount 2, dealerSet_afterLines,
    verifyGroupKey_afterLines⟩

end Lines

end Frostito.Reshare
