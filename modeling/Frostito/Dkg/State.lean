import Mathlib.Data.List.Perm.Subperm
import Frostito.Dkg.Proof
import Frostito.Index
import Frostito.Lib.Calls
import Frostito.Lib.Slots

/-!
# The round state of key generation

`DkgState` collects the round-1 commitments of all participants.  Participants submit
packages and disqualify dealers in any order, and once every participant that was not
disqualified has submitted, the group key and the verification shares are sums over the
commitments that are left.

Every state reached by submissions and disqualifications keeps the invariant `Inv`: the
commitment in a slot carries the slot's own index, the ceremony's threshold and a proof
that verified, and its dealer is not disqualified.  In a complete state the qualified and
the disqualified dealers are therefore the participants, each exactly once.
-/

namespace Frostito

/-- DKG round state for on-chain coordination. -/
structure DkgState (P : Type) where
  /-- Epoch being generated. -/
  epoch : UInt64
  /-- Threshold for the new key. -/
  threshold : UInt32
  /-- Total number of participants (all are dealers). -/
  numParticipants : UInt32
  /-- Collected commitments (indexed by `dealer_index - 1`). -/
  commitments : List (Option (DealerCommitment P))
  /-- Dealers disqualified by a complaint, sorted ascending. -/
  disqualified : List UInt32

/-- `index.checked_sub(1)`, the position of a dealer's slot. -/
def slotOf (index : UInt32) : Option ℕ := if index = 0 then none else some (index.toNat - 1)

lemma slotOf_eq_some_iff {i : UInt32} {k : ℕ} : slotOf i = some k ↔ i.toNat = k + 1 := by
  unfold slotOf
  split
  · next h0 => simp [h0]
  · next h0 =>
    have hpos := toNat_ne_zero_iff.mpr h0
    rw [Option.some.injEq]
    omega

variable {S P : Type}

namespace DkgState

/-! ### The operations -/

/-- `DkgState::new`. -/
def new (epoch : UInt64) (threshold numParticipants : UInt32) : DkgState P where
  epoch := epoch
  threshold := threshold
  numParticipants := numParticipants
  commitments := List.replicate numParticipants.toNat none
  disqualified := []

/-- The checks of a submission, and on success the reply and the state with the commitment
recorded. -/
def recordPackage [CurveScalar S] [CurvePoint P S] [Sha2] (s : DkgState P)
    (package : Round1Package P S) : Outcome Error (Bool × DkgState P) := do
  package.verify s.epoch
  let commitment := package.commitment
  .refuse (commitment.dealerIndex ∈ s.disqualified) (.unexpectedDealer commitment.dealerIndex)
  let idx ← .okOr (slotOf commitment.dealerIndex) .invalidIndex
  .refuse (s.commitments.length ≤ idx) .invalidIndex
  .refuse (commitment.threshold ≠ s.threshold) .invalidCommitment
  let slot ← .expectSome s.commitments[idx]?
  if slot.isSome then .ok (false, s) else
  .ok (true, { s with commitments := s.commitments.set idx (some commitment) })

/-- Submit a dealer's round-1 package.  Returns true if new, false if duplicate. -/
def submitCommitment [CurveScalar S] [CurvePoint P S] [Sha2] (s : DkgState P)
    (package : Round1Package P S) : DkgState P × Outcome Error Bool :=
  Outcome.runIn s (s.recordPackage package)

/-- Number of commitments received. -/
def commitmentCount (s : DkgState P) : ℕ := (s.commitments.filter Option.isSome).length

/-- True when every participant that has not been disqualified has submitted a
commitment. -/
def isComplete (s : DkgState P) : Bool :=
  s.commitmentCount + s.disqualified.length == s.numParticipants.toNat

/-- Dealers still in the ceremony, in ascending order. -/
def qualifiedDealers (s : DkgState P) : List UInt32 :=
  s.commitments.reduceOption.map DealerCommitment.dealerIndex

/-- The state in which a dealer's commitment is dropped and the dealer is recorded. -/
def exclude (s : DkgState P) (idx : ℕ) (dealerIndex : UInt32) : DkgState P :=
  { s with
    commitments := s.commitments.set idx none
    disqualified :=
      if dealerIndex ∈ s.disqualified then s.disqualified
      else (s.disqualified ++ [dealerIndex]).insertionSort (· ≤ ·) }

/-- Disqualify a dealer named by a complaint.  The dealer is excluded before the number of
dealers that remain is checked, so the state has changed also when the call reports
`DkgAborted`. -/
def disqualify (s : DkgState P) (dealerIndex : UInt32) : DkgState P × Outcome Error Unit :=
  match slotOf dealerIndex with
  | none => (s, .err .invalidIndex)
  | some idx =>
    if s.commitments.length ≤ idx then (s, .err .invalidIndex) else
    let s := s.exclude idx dealerIndex
    (s, do
      let remaining ← .checkedSub s.numParticipants.toNat s.disqualified.length
      .refuse (remaining < s.threshold.toNat) (.dkgAborted remaining s.threshold.toNat))

/-- The check every derivation starts with. -/
def requireComplete (s : DkgState P) : Outcome Error Unit :=
  if s.isComplete then .ok () else do
    let need ← .checkedSub s.numParticipants.toNat s.disqualified.length
    .err (.insufficientContributions s.commitmentCount need)

/-- Derive group public key from the qualified commitments: `Y = sum(C_{i,0})`. -/
def deriveGroupKey [CurveScalar S] [CurvePoint P S] (s : DkgState P) : Outcome Error P := do
  s.requireComplete
  s.commitments.reduceOption.foldlM (fun key commitment => do
    return key + (← commitment.shareCommitment)) 0

/-- Derive public verification share for player `j`. -/
def deriveVerificationShare [CurveScalar S] [CurvePoint P S] (s : DkgState P)
    (playerIndex : UInt32) : Outcome Error P := do
  .refuse (playerIndex = 0) .invalidIndex
  s.requireComplete
  s.commitments.reduceOption.foldlM (fun vshare commitment => do
    return vshare + (← .expect (commitment.evaluateAt playerIndex))) 0

/-- Derive all verification shares for players `1..=num_participants`, as the entries of
the map in ascending order. -/
def deriveAllVerificationShares [CurveScalar S] [CurvePoint P S] (s : DkgState P) :
    Outcome Error (List (UInt32 × P)) :=
  (participants s.numParticipants).mapM fun j => do
    return (j, ← s.deriveVerificationShare j)

/-! ### What a disqualification can do -/

/-- A disqualified participant is excluded, also when the call reports an error; a name
outside the range changes nothing. -/
theorem disqualify_cases (s : DkgState P) (i : UInt32) :
    (∃ idx, slotOf i = some idx ∧ idx < s.commitments.length ∧
      (s.disqualify i).1 = s.exclude idx i) ∨
    ((∀ idx, slotOf i = some idx → s.commitments.length ≤ idx) ∧ (s.disqualify i).1 = s) := by
  unfold disqualify
  split
  · next hnone => exact .inr ⟨by simp [hnone], rfl⟩
  · next idx hidx =>
    split
    · next hlen => exact .inr ⟨by simpa [hidx] using hlen, rfl⟩
    · next hlen => exact .inl ⟨idx, hidx, not_le.mp hlen, rfl⟩

lemma mem_disqualified_exclude {s : DkgState P} {idx : ℕ} {i j : UInt32} :
    j ∈ (s.exclude idx i).disqualified ↔ j ∈ s.disqualified ∨ j = i := by
  unfold exclude
  dsimp only
  split
  · next hi =>
    refine ⟨.inl, ?_⟩
    rintro (hj | rfl)
    · exact hj
    · exact hi
  · simp

lemma nodup_disqualified_exclude {s : DkgState P} (h : s.disqualified.Nodup) (idx : ℕ)
    (i : UInt32) : (s.exclude idx i).disqualified.Nodup := by
  unfold exclude
  dsimp only
  split
  · exact h
  · next hnew =>
    rw [(List.perm_insertionSort _ _).nodup_iff, List.nodup_append]
    refine ⟨h, List.nodup_singleton i, ?_⟩
    rintro a ha b hb rfl
    exact hnew (List.mem_singleton.mp hb ▸ ha)

lemma pairwise_disqualified_exclude {s : DkgState P} (h : s.disqualified.Pairwise (· ≤ ·))
    (idx : ℕ) (i : UInt32) : (s.exclude idx i).disqualified.Pairwise (· ≤ ·) := by
  unfold exclude
  dsimp only
  split
  · exact h
  · exact List.pairwise_insertionSort _ _

/-! ### Completeness -/

lemma length_qualifiedDealers (s : DkgState P) :
    s.qualifiedDealers.length = s.commitmentCount := by
  rw [qualifiedDealers, List.length_map, List.reduceOption_length_eq, commitmentCount]

lemma isComplete_iff {s : DkgState P} :
    s.isComplete = true ↔
      s.qualifiedDealers.length + s.disqualified.length = s.numParticipants.toNat := by
  rw [isComplete, beq_iff_eq, length_qualifiedDealers]

lemma requireComplete_eq_ok_iff {s : DkgState P} :
    s.requireComplete = .ok () ↔ s.isComplete = true := by
  unfold requireComplete
  split
  · next hc => simp [hc]
  · next hc => simp [hc]

/-- The coefficient lists of the commitments that are in the ceremony. -/
def sharings (s : DkgState P) : List (List P) :=
  s.commitments.reduceOption.map DealerCommitment.coefficients

variable [CurveScalar S] [CurvePoint P S]

/-- A verification share of a complete state is the sum of the values of the
commitments. -/
theorem deriveVerificationShare_eq {s : DkgState P} (hc : s.isComplete = true) {j : UInt32}
    (hj : j ≠ 0) :
    s.deriveVerificationShare j
      = .ok (s.sharings.map (Horner.horner (fromU32 j : S))).sum := by
  have hstep : ∀ c ∈ s.commitments.reduceOption, ∀ vshare : P,
      (do return vshare + (← .expect (c.evaluateAt j)) : Outcome Error P)
        = .ok (vshare + Horner.horner (fromU32 j : S) c.coefficients) := by
    intro c _ vshare
    rw [DealerCommitment.evaluateAt_of_ne_zero c hj]
    rfl
  rw [deriveVerificationShare, Outcome.refuse_of_neg hj, Outcome.ok_bind,
    requireComplete_eq_ok_iff.mpr hc, Outcome.ok_bind, Outcome.foldlM_eq_ok_foldl hstep,
    sharings, List.map_map, List.sum_eq_foldl, List.foldl_map]
  rfl

end DkgState

/-- A call on the round state. -/
inductive DkgCall (P S : Type) where
  | submit (package : Round1Package P S)
  | disqualify (dealerIndex : UInt32)

namespace DkgState

variable [CurveScalar S] [CurvePoint P S] [Sha2]

/-! ### Runs -/

/-- One call, and what it returns. -/
def call (s : DkgState P) : DkgCall P S → DkgState P × (Outcome Error Bool ⊕ Outcome Error Unit)
  | .submit package => let r := s.submitCommitment package; (r.1, .inl r.2)
  | .disqualify dealerIndex => let r := s.disqualify dealerIndex; (r.1, .inr r.2)

/-- The state after a sequence of calls on a fresh state, whatever each of them returned. -/
def reach (epoch : UInt64) (threshold numParticipants : UInt32) (calls : List (DkgCall P S)) :
    DkgState P :=
  Calls.run call (new epoch threshold numParticipants) calls

/-! ### What is recorded -/

/-- The state with a commitment in its slot. -/
def record (s : DkgState P) (idx : ℕ) (commitment : DealerCommitment P) : DkgState P :=
  { s with commitments := s.commitments.set idx (some commitment) }

/-- What a package has to satisfy to be recorded in the slot `idx`. -/
structure Records (s : DkgState P) (idx : ℕ) (package : Round1Package P S) : Prop where
  verify : package.verify s.epoch = .ok ()
  notMem_disqualified : package.commitment.dealerIndex ∉ s.disqualified
  slotOf_eq : slotOf package.commitment.dealerIndex = some idx
  threshold_eq : package.commitment.threshold = s.threshold
  empty : s.commitments[idx]? = some none

variable {s : DkgState P} {package : Round1Package P S} {idx : ℕ}

lemma Records.lt_length (h : s.Records idx package) : idx < s.commitments.length :=
  (List.getElem?_eq_some_iff.mp h.empty).1

/-- A package that passes every check and finds its slot empty is recorded. -/
lemma Records.submitCommitment_eq (h : s.Records idx package) :
    s.submitCommitment package = (s.record idx package.commitment, .ok true) := by
  have hrecord : s.recordPackage package = .ok (true, s.record idx package.commitment) := by
    rw [recordPackage, h.verify, Outcome.ok_bind]
    simp only [Outcome.refuse_of_neg h.notMem_disqualified, Outcome.ok_bind, h.slotOf_eq,
      Outcome.okOr_some, Outcome.refuse_of_neg (not_le.mpr h.lt_length),
      Outcome.refuse_of_neg (not_not.mpr h.threshold_eq), h.empty, Outcome.expectSome_some]
    rfl
  rw [submitCommitment, hrecord]
  rfl

/-- A package is recorded in the empty slot its index names, or changes nothing. -/
theorem submitCommitment_cases (s : DkgState P) (package : Round1Package P S) :
    (∃ idx, s.Records idx package ∧
      s.submitCommitment package = (s.record idx package.commitment, .ok true)) ∨
    ((s.submitCommitment package).1 = s ∧ (s.submitCommitment package).2 ≠ .ok true) := by
  rcases Outcome.runIn_cases s (s.recordPackage package) with ⟨b, s', hok, hrun⟩ | ⟨-, hsame, hne⟩
  · simp only [recordPackage, Outcome.bind_eq_ok_iff, Outcome.refuse_eq_ok_iff,
      Outcome.okOr_eq_ok_iff, Outcome.expectSome_eq_ok_iff, not_not] at hok
    obtain ⟨_, hverify, _, hqual, idx, hidx, _, -, _, hthr, slot, hslot, hrest⟩ := hok
    split at hrest
    · obtain ⟨rfl, rfl⟩ := Prod.mk.inj (Outcome.ok.inj hrest)
      rw [submitCommitment, hrun]
      exact .inr ⟨rfl, by simp⟩
    · next hempty =>
      have hnone : slot = none := by simpa using hempty
      have hrec : s.Records idx package := ⟨hverify, hqual, hidx, hthr, hnone ▸ hslot⟩
      exact .inl ⟨idx, hrec, hrec.submitCommitment_eq⟩
  · exact .inr ⟨hsame, hne true⟩

/-- The parameters of the ceremony. -/
def params (s : DkgState P) : UInt64 × UInt32 × UInt32 :=
  (s.epoch, s.threshold, s.numParticipants)

/-- No call changes the parameters. -/
lemma params_call (s : DkgState P) (c : DkgCall P S) : (s.call c).1.params = s.params := by
  cases c with
  | submit package =>
    rcases submitCommitment_cases s package with ⟨idx, -, hs⟩ | ⟨hs, -⟩
    all_goals rw [call, hs]
    rfl
  | disqualify i =>
    rcases disqualify_cases s i with ⟨idx, -, -, hs⟩ | ⟨-, hs⟩
    all_goals rw [call, hs]
    rfl

theorem params_reach (epoch : UInt64) (threshold numParticipants : UInt32)
    (calls : List (DkgCall P S)) :
    (reach epoch threshold numParticipants calls).params
      = (epoch, threshold, numParticipants) := by
  refine Calls.run_invariant (I := fun s : DkgState P =>
    s.params = (epoch, threshold, numParticipants)) rfl fun c _ s hs => ?_
  rw [params_call, hs]

lemma reach_params (epoch : UInt64) (threshold n : UInt32) (calls : List (DkgCall P S)) :
    (reach epoch threshold n calls).epoch = epoch ∧
      (reach epoch threshold n calls).threshold = threshold ∧
      (reach epoch threshold n calls).numParticipants = n := by
  have hparams := params_reach epoch threshold n calls
  rw [params, Prod.mk.injEq, Prod.mk.injEq] at hparams
  exact hparams

lemma reach_concat (epoch : UInt64) (threshold n : UInt32) (before : List (DkgCall P S))
    (last : DkgCall P S) : reach epoch threshold n (before ++ [last])
      = ((reach epoch threshold n before).call last).1 := by
  rw [reach, Calls.run_append, ← reach, Calls.run_cons, Calls.run_nil]

/-- Packages of the dealers `1, 2, ..` in this order, each of which verifies. -/
def InOrder (epoch : UInt64) (threshold : UInt32) (packages : List (Round1Package P S)) : Prop :=
  ∀ p ∈ packages.zipIdx, p.1.commitment.dealerIndex.toNat = p.2 + 1 ∧
    p.1.verify epoch = .ok () ∧ p.1.commitment.threshold = threshold

/-- When the participants submit in order, each a package that verifies, all of them are
recorded. -/
theorem reach_submit_all {epoch : UInt64} {threshold n : UInt32}
    {packages : List (Round1Package P S)} (hn : packages.length ≤ n.toNat)
    (hok : InOrder epoch threshold packages) :
    reach epoch threshold n (packages.map .submit) =
      ⟨epoch, threshold, n, packages.map (fun package => some package.commitment) ++
        List.replicate (n.toNat - packages.length) none, []⟩ := by
  induction packages using List.reverseRecOn with
  | nil => rfl
  | append_singleton packages package ih =>
    have hlast : (package, packages.length) ∈ (packages ++ [package]).zipIdx := by
      simp [List.zipIdx_append]
    obtain ⟨hindex, hverify, hthr⟩ := hok _ hlast
    rw [List.length_append, List.length_singleton] at hn
    have hprefix := ih (by omega) fun p hp => hok p (by
      rw [List.zipIdx_append]
      exact List.mem_append_left _ hp)
    -- the last package goes into the first slot that is still empty
    obtain ⟨m, hm⟩ : ∃ m, n.toNat - packages.length = m + 1 :=
      Nat.exists_eq_add_one_of_ne_zero (by omega)
    rw [hm, List.replicate_succ] at hprefix
    have hrec : Records ⟨epoch, threshold, n, packages.map (fun package =>
        some package.commitment) ++ none :: List.replicate m none, []⟩ packages.length package :=
      ⟨hverify, List.not_mem_nil, slotOf_eq_some_iff.mpr hindex, hthr, by simp⟩
    have hrest : n.toNat - (packages ++ [package]).length = m := by
      rw [List.length_append, List.length_singleton]
      omega
    rw [List.map_append, reach, Calls.run_append, ← reach, hprefix, List.map_singleton,
      Calls.run_cons, Calls.run_nil, call, hrec.submitCommitment_eq, hrest]
    simp [record]

/-! ### The invariant -/

/-- The position a commitment's index names. -/
def slotKey (c : DealerCommitment P) : ℕ := c.dealerIndex.toNat - 1

omit [Sha2] in
/-- It is the position of whoever has that slot, and of nobody else. -/
lemma slotKey_eq_iff {c : DealerCommitment P} (h0 : c.dealerIndex ≠ 0) {i : UInt32} {idx : ℕ}
    (hi : slotOf i = some idx) : slotKey c = idx ↔ c.dealerIndex = i := by
  rw [slotOf_eq_some_iff] at hi
  have hpos := toNat_ne_zero_iff.mpr h0
  rw [slotKey, ← UInt32.toNat_inj]
  omega

omit [Sha2] in
lemma slotKey_eq {c : DealerCommitment P} {idx : ℕ} (h : slotOf c.dealerIndex = some idx) :
    slotKey c = idx := by
  rw [slotKey, slotOf_eq_some_iff.mp h, Nat.add_sub_cancel]

omit [Sha2] in
/-- The positions are in the order of the indices. -/
lemma dealerIndex_lt_of_slotKey_lt {c c' : DealerCommitment P} (h : slotKey c < slotKey c') :
    c.dealerIndex < c'.dealerIndex := by
  rw [slotKey, slotKey] at h
  rw [UInt32.lt_iff_toNat_lt]
  omega

/-- What was checked about a commitment that is in the ceremony. -/
structure Accepted (s : DkgState P) (c : DealerCommitment P) : Prop where
  ne_zero : c.dealerIndex ≠ 0
  notMem_disqualified : c.dealerIndex ∉ s.disqualified
  threshold_eq : c.threshold = s.threshold
  proof : ∃ proof : ProofOfKnowledge P S,
    (⟨c, proof⟩ : Round1Package P S).verify s.epoch = .ok ()

/-- What every reachable state satisfies. -/
structure Inv (s : DkgState P) : Prop where
  length_commitments : s.commitments.length = s.numParticipants.toNat
  indexed : Slots.Indexed slotKey s.commitments
  accepted : ∀ c ∈ s.commitments.reduceOption, s.Accepted c
  sorted : s.disqualified.Pairwise (· ≤ ·)
  nodup : s.disqualified.Nodup
  disqualified_mem : ∀ i ∈ s.disqualified, i ∈ participants s.numParticipants

lemma inv_new (epoch : UInt64) (threshold numParticipants : UInt32) :
    (new epoch threshold numParticipants : DkgState P).Inv where
  length_commitments := List.length_replicate
  indexed := Slots.indexed_replicate_none _
  accepted := by simp [new]
  sorted := .nil
  nodup := .nil
  disqualified_mem := by simp [new]

variable {s : DkgState P}

/-- A submission keeps the invariant. -/
lemma Inv.submitCommitment (h : s.Inv) (package : Round1Package P S) :
    (s.submitCommitment package).1.Inv := by
  rcases submitCommitment_cases s package with ⟨idx, hrec, hs⟩ | ⟨hs, -⟩
  · have hindex := slotOf_eq_some_iff.mp hrec.slotOf_eq
    rw [hs]
    refine ⟨by simpa [record] using h.length_commitments,
      h.indexed.set_some (slotKey_eq hrec.slotOf_eq), ?_, h.sorted,
      h.nodup, h.disqualified_mem⟩
    intro c hc
    rcases Slots.mem_reduceOption_set hc with heq | hc
    · obtain rfl := Option.some.inj heq
      refine ⟨toNat_ne_zero_iff.mp ?_, hrec.notMem_disqualified, hrec.threshold_eq,
        package.proofOfKnowledge, hrec.verify⟩
      rw [hindex]
      exact Nat.succ_ne_zero idx
    · obtain ⟨h0, hq, ht, hp⟩ := h.accepted c hc
      exact ⟨h0, hq, ht, hp⟩
  · rwa [hs]

/-- The participants are those that have a slot. -/
lemma Inv.mem_participants_iff (h : s.Inv) {i : UInt32} :
    i ∈ participants s.numParticipants ↔
      ∃ idx, slotOf i = some idx ∧ idx < s.commitments.length := by
  rw [mem_participants, UInt32.le_iff_toNat_le, ← toNat_ne_zero_iff, h.length_commitments]
  constructor
  · rintro ⟨h0, hle⟩
    exact ⟨i.toNat - 1, slotOf_eq_some_iff.mpr (by omega), by omega⟩
  · rintro ⟨idx, hidx, hlt⟩
    rw [slotOf_eq_some_iff] at hidx
    omega

/-- An exclusion keeps the invariant. -/
lemma Inv.exclude (h : s.Inv) {idx : ℕ} {i : UInt32} (hidx : slotOf i = some idx)
    (hlt : idx < s.commitments.length) : (s.exclude idx i).Inv := by
  refine ⟨by simpa [DkgState.exclude] using h.length_commitments, h.indexed.set_none idx, ?_,
    pairwise_disqualified_exclude h.sorted idx i, nodup_disqualified_exclude h.nodup idx i, ?_⟩
  · intro c hc
    -- the excluded slot is empty now, so `c` sits in another one
    have hslot := (h.indexed.set_none idx).mem_reduceOption_iff.mp hc
    have hne : c.dealerIndex ≠ i := by
      rintro rfl
      rw [slotKey_eq hidx, List.getElem?_set_self hlt] at hslot
      exact absurd hslot (by simp)
    rcases Slots.mem_reduceOption_set hc with heq | hc
    · exact absurd heq (by simp)
    · obtain ⟨h0, hq, ht, hp⟩ := h.accepted c hc
      exact ⟨h0, fun hmem => (mem_disqualified_exclude.mp hmem).elim hq hne, ht, hp⟩
  · intro j hj
    rcases mem_disqualified_exclude.mp hj with hj | rfl
    · exact h.disqualified_mem j hj
    · exact h.mem_participants_iff.mpr ⟨idx, hidx, hlt⟩

lemma Inv.length_disqualified_le (h : s.Inv) :
    s.disqualified.length ≤ s.numParticipants.toNat := by
  have hle := (List.subperm_of_subset h.nodup h.disqualified_mem).length_le
  rwa [length_participants] at hle

/-- A participant is excluded and the dealers that remain are counted; any other name is
refused. -/
theorem Inv.disqualify_eq (h : s.Inv) (i : UInt32) :
    (i ∈ participants s.numParticipants ∧ (s.disqualify i).2 = .refuse
      (s.numParticipants.toNat - (s.disqualify i).1.disqualified.length < s.threshold.toNat)
      (.dkgAborted (s.numParticipants.toNat - (s.disqualify i).1.disqualified.length)
        s.threshold.toNat)) ∨
    (i ∉ participants s.numParticipants ∧ s.disqualify i = (s, .err .invalidIndex)) := by
  rw [h.mem_participants_iff]
  rcases s.disqualify_cases i with ⟨idx, hidx, hlt, hs⟩ | ⟨hout, hs⟩
  · refine .inl ⟨⟨idx, hidx, hlt⟩, ?_⟩
    have hle : (s.exclude idx i).disqualified.length ≤ s.numParticipants.toNat :=
      (h.exclude hidx hlt).length_disqualified_le
    rw [hs]
    simp only [DkgState.disqualify, hidx, if_neg (not_le.mpr hlt)]
    change (Outcome.checkedSub s.numParticipants.toNat _ >>= _) = _
    rw [Outcome.checkedSub, if_pos hle]
    rfl
  · refine .inr ⟨?_, ?_⟩
    · rintro ⟨idx, hidx, hlt⟩
      exact absurd (hout idx hidx) (not_le.mpr hlt)
    · cases hidx : slotOf i with
      | none => simp [DkgState.disqualify, hidx]
      | some idx => simp [DkgState.disqualify, hidx, hout idx hidx]

/-- A disqualification keeps the invariant, whatever it returns. -/
lemma Inv.disqualify (h : s.Inv) (i : UInt32) : (s.disqualify i).1.Inv := by
  rcases disqualify_cases s i with ⟨idx, hidx, hlt, hs⟩ | ⟨-, hs⟩
  · rw [hs]
    exact h.exclude hidx hlt
  · rwa [hs]

/-- **Every reachable state satisfies the invariant.** -/
theorem inv_reach (epoch : UInt64) (threshold numParticipants : UInt32)
    (calls : List (DkgCall P S)) : (reach epoch threshold numParticipants calls).Inv := by
  refine Calls.run_invariant (inv_new epoch threshold numParticipants) fun c _ s hs => ?_
  cases c with
  | submit package => exact hs.submitCommitment package
  | disqualify i => exact hs.disqualify i

/-! ### Complete states -/

/-- The qualified dealers are listed in strictly ascending order. -/
lemma Inv.pairwise_commitments (h : s.Inv) :
    s.commitments.reduceOption.Pairwise fun a b => a.dealerIndex < b.dealerIndex :=
  h.indexed.pairwise_reduceOption.imp dealerIndex_lt_of_slotKey_lt

lemma Inv.nodup_qualifiedDealers (h : s.Inv) : s.qualifiedDealers.Nodup := by
  refine List.pairwise_map.mpr (h.pairwise_commitments.imp fun {a b} hlt heq => ?_)
  rw [heq] at hlt
  exact UInt32.lt_irrefl _ hlt

lemma Inv.mem_participants_of_mem_qualifiedDealers (h : s.Inv) {i : UInt32}
    (hi : i ∈ s.qualifiedDealers) : i ∈ participants s.numParticipants := by
  obtain ⟨c, hc, rfl⟩ := List.mem_map.mp hi
  have hlt := h.indexed.key_lt hc
  rw [h.length_commitments, slotKey] at hlt
  exact mem_participants.mpr ⟨(h.accepted c hc).ne_zero, UInt32.le_iff_toNat_le.mpr (by omega)⟩

/-- No participant is both qualified and disqualified, and there are no others. -/
lemma Inv.subperm_participants (h : s.Inv) :
    (s.qualifiedDealers ++ s.disqualified).Subperm (participants s.numParticipants) := by
  refine List.subperm_of_subset ?_ ?_
  · refine List.nodup_append.mpr ⟨h.nodup_qualifiedDealers, h.nodup, ?_⟩
    rintro i hi j hj rfl
    obtain ⟨c, hc, rfl⟩ := List.mem_map.mp hi
    exact (h.accepted c hc).notMem_disqualified hj
  · intro i hi
    rcases List.mem_append.mp hi with hi | hi
    · exact h.mem_participants_of_mem_qualifiedDealers hi
    · exact h.disqualified_mem i hi

/-- In a complete state every participant is qualified or disqualified. -/
theorem Inv.perm_participants (h : s.Inv) (hc : s.isComplete = true) :
    (s.qualifiedDealers ++ s.disqualified).Perm (participants s.numParticipants) := by
  refine h.subperm_participants.perm_of_length_le ?_
  rw [length_participants, List.length_append, isComplete_iff.mp hc]

/-- In a complete state the qualified dealers determine the disqualified ones. -/
theorem Inv.mem_disqualified_iff (h : s.Inv) (hc : s.isComplete = true) {i : UInt32} :
    i ∈ s.disqualified ↔ i ∈ participants s.numParticipants ∧ i ∉ s.qualifiedDealers := by
  have hperm := h.perm_participants hc
  have hdisj := (List.nodup_append.mp (hperm.nodup_iff.mpr (nodup_participants _))).2.2
  rw [← hperm.mem_iff, List.mem_append]
  constructor
  · intro hi
    exact ⟨.inr hi, fun hq => hdisj i hq i hi rfl⟩
  · rintro ⟨hq | hd, hnq⟩
    · exact absurd hq hnq
    · exact hd

lemma Inv.coefficients_ne_nil (h : s.Inv) {c : DealerCommitment P}
    (hc : c ∈ s.commitments.reduceOption) : c.coefficients ≠ [] := by
  obtain ⟨proof, hproof⟩ := (h.accepted c hc).proof
  exact Round1Package.coefficients_ne_nil hproof

/-- The group key of a complete state is the sum of the constant terms. -/
theorem Inv.deriveGroupKey_eq (h : s.Inv) (hc : s.isComplete = true) :
    s.deriveGroupKey = .ok (s.sharings.map fun cs => cs.headD 0).sum := by
  have hstep : ∀ c ∈ s.commitments.reduceOption, ∀ key : P,
      (do return key + (← c.shareCommitment) : Outcome Error P)
        = .ok (key + c.coefficients.headD 0) := by
    intro c hc key
    rw [DealerCommitment.shareCommitment_eq_ok (h.coefficients_ne_nil hc) 0]
    rfl
  rw [deriveGroupKey, requireComplete_eq_ok_iff.mpr hc, Outcome.ok_bind,
    Outcome.foldlM_eq_ok_foldl hstep, sharings, List.map_map, List.sum_eq_foldl,
    List.foldl_map]
  rfl

end DkgState

end Frostito
