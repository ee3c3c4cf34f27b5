import Mathlib.Data.List.Dedup
import Frostito.Dkg.Echo

/-!
# How many dealers a derived key rests on

A state derives a key once it is complete, and what makes it complete is that every
participant that was not disqualified has submitted.  Neither the derivations nor
`isComplete` look at the threshold; the one check against it is made by `disqualify`, after
it has already excluded the dealer.  So a complete state rests on as many dealers as its
disqualifications left, and that is at least the threshold exactly when the participants
the run named for disqualification left that many.
-/

namespace Frostito

section Runs

variable {S P : Type} [CurveScalar S] [CurvePoint P S] [Sha2]

namespace DkgCall

omit [CurveScalar S] [CurvePoint P S] [Sha2]

/-- The dealer a call names for disqualification. -/
def target : DkgCall P S → Option UInt32
  | .submit _ => none
  | .disqualify i => some i

/-- The participants named for disqualification by a list of calls, each once. -/
def targets (n : UInt32) (calls : List (DkgCall P S)) : List UInt32 :=
  (calls.filterMap target).dedup.filter (· ∈ participants n)

lemma mem_targets {n i : UInt32} {calls : List (DkgCall P S)} :
    i ∈ targets n calls ↔ i ∈ participants n ∧ .disqualify i ∈ calls := by
  rw [targets, List.mem_filter, List.mem_dedup, List.mem_filterMap, decide_eq_true_eq, and_comm]
  refine and_congr_right fun _ => ⟨?_, fun h => ⟨_, h, rfl⟩⟩
  rintro ⟨c, hc, hi⟩
  cases c with
  | submit package => exact absurd hi (by simp [target])
  | disqualify j => exact Option.some.inj hi ▸ hc

lemma nodup_targets (n : UInt32) (calls : List (DkgCall P S)) : (targets n calls).Nodup :=
  (List.nodup_dedup _).filter _

/-- The earlier calls of a run name no more participants than the whole run. -/
lemma length_targets_take_le (n : UInt32) (calls : List (DkgCall P S)) (k : ℕ) :
    (targets n (calls.take k)).length ≤ (targets n calls).length := by
  refine (List.subperm_of_subset (nodup_targets n _) fun i hi => ?_).length_le
  obtain ⟨hrange, hmem⟩ := mem_targets.mp hi
  exact mem_targets.mpr ⟨hrange, List.mem_of_mem_take hmem⟩

end DkgCall

namespace DkgState

/-! ### Who is disqualified -/

/-- One call disqualifies the participant it names, and nobody else. -/
lemma Inv.mem_disqualified_call {s : DkgState P} (h : s.Inv) (c : DkgCall P S) {i : UInt32} :
    i ∈ (s.call c).1.disqualified ↔
      i ∈ s.disqualified ∨ (i ∈ participants s.numParticipants ∧ c = .disqualify i) := by
  cases c with
  | submit package =>
    have hsame : (s.submitCommitment package).1.disqualified = s.disqualified := by
      rcases submitCommitment_cases s package with ⟨idx, -, hs⟩ | ⟨hs, -⟩
      all_goals rw [hs]
      rfl
    simp [call, hsame]
  | disqualify j =>
    rcases disqualify_cases s j with ⟨idx, hidx, hlt, hs⟩ | ⟨hout, hs⟩
    · have hj := h.mem_participants_iff.mpr ⟨idx, hidx, hlt⟩
      rw [call, hs, mem_disqualified_exclude, DkgCall.disqualify.injEq]
      constructor
      · rintro (hi | rfl)
        · exact .inl hi
        · exact .inr ⟨hj, rfl⟩
      · rintro (hi | ⟨-, rfl⟩)
        · exact .inl hi
        · exact .inr rfl
    · -- the name is out of range, so no participant has it
      have hj : j ∉ participants s.numParticipants := by
        intro hmem
        obtain ⟨idx, hidx, hlt⟩ := h.mem_participants_iff.mp hmem
        exact absurd (hout idx hidx) (not_le.mpr hlt)
      rw [call, hs]
      refine ⟨.inl, ?_⟩
      rintro (hi | ⟨hi, heq⟩)
      · exact hi
      · rw [DkgCall.disqualify.injEq] at heq
        exact absurd (heq ▸ hi) hj

/-- A run disqualifies the participants its calls name. -/
theorem mem_disqualified_reach {epoch : UInt64} {threshold n : UInt32}
    {calls : List (DkgCall P S)} {i : UInt32} :
    i ∈ (reach epoch threshold n calls).disqualified ↔ i ∈ DkgCall.targets n calls := by
  have hrun : ∀ (s : DkgState P), s.Inv → s.numParticipants = n →
      (i ∈ (Calls.run call s calls).disqualified ↔
        i ∈ s.disqualified ∨ (i ∈ participants n ∧ .disqualify i ∈ calls)) := by
    induction calls with
    | nil => intro s _ _; simp
    | cons c calls ih =>
      intro s hs hn
      have hinv : (s.call c).1.Inv := by
        cases c with
        | submit package => exact hs.submitCommitment package
        | disqualify j => exact hs.disqualify j
      have hn' : (s.call c).1.numParticipants = n :=
        (congrArg (fun p => p.2.2) (params_call s c)).trans hn
      rw [Calls.run_cons, ih _ hinv hn', hs.mem_disqualified_call, hn, List.mem_cons, or_assoc,
        ← and_or_left, eq_comm]
  rw [reach, hrun _ (inv_new epoch threshold n) rfl, DkgCall.mem_targets]
  simp [new]

/-- The number of dealers a run has disqualified. -/
lemma length_disqualified_reach (epoch : UInt64) (threshold n : UInt32)
    (calls : List (DkgCall P S)) :
    (reach epoch threshold n calls).disqualified.length = (DkgCall.targets n calls).length :=
  ((List.perm_ext_iff_of_nodup (inv_reach epoch threshold n calls).nodup
    (DkgCall.nodup_targets n calls)).mpr fun _ => mem_disqualified_reach).length_eq

/-! ### What a derivation needs -/

/-- Whichever derivation succeeds, at least `threshold` dealers are still qualified. -/
structure KeyMeetsThreshold (s : DkgState P) : Prop where
  groupKey : ∀ key, s.deriveGroupKey = .ok key →
    s.threshold.toNat ≤ s.qualifiedDealers.length
  verificationShare : ∀ j vshare, s.deriveVerificationShare j = .ok vshare →
    s.threshold.toNat ≤ s.qualifiedDealers.length
  allVerificationShares : ∀ map, s.deriveAllVerificationShares = .ok map →
    s.threshold.toNat ≤ s.qualifiedDealers.length
  agreedRound1 : ∀ agreed, s.agreedRound1 = .ok agreed →
    s.threshold.toNat ≤ s.qualifiedDealers.length

omit [Sha2] in
lemma isComplete_of_deriveVerificationShare {s : DkgState P} {j : UInt32} {vshare : P}
    (h : s.deriveVerificationShare j = .ok vshare) : s.isComplete = true := by
  obtain ⟨_, -, h⟩ := Outcome.bind_eq_ok_iff.mp h
  obtain ⟨_, hc, -⟩ := Outcome.bind_eq_ok_iff.mp h
  exact requireComplete_eq_ok_iff.mp hc

lemma Inv.isComplete_of_deriveAllVerificationShares {s : DkgState P} (h : s.Inv)
    {map : List (UInt32 × P)} (hmap : s.deriveAllVerificationShares = .ok map) :
    s.isComplete = true := by
  by_cases h1 : 1 ∈ participants s.numParticipants
  · obtain ⟨p, -, hp⟩ := Outcome.exists_of_mapM_eq_ok hmap h1
    obtain ⟨vshare, hv, -⟩ := Outcome.bind_eq_ok_iff.mp hp
    exact isComplete_of_deriveVerificationShare hv
  · -- without participants there is nobody to wait for
    have hn : s.numParticipants.toNat = 0 := by
      rw [mem_participants, UInt32.le_iff_toNat_le] at h1
      simpa using h1
    have hle := h.subperm_participants.length_le
    rw [length_participants, List.length_append, hn] at hle
    rw [isComplete_iff, hn]
    omega

/-- A derivation succeeds in complete states only, and in these the group key does. -/
theorem Inv.keyMeetsThreshold_iff {s : DkgState P} (h : s.Inv) :
    s.KeyMeetsThreshold ↔
      (s.isComplete = true → s.threshold.toNat ≤ s.qualifiedDealers.length) := by
  constructor
  · intro hkey hc
    exact hkey.groupKey _ (h.deriveGroupKey_eq hc)
  · intro hle
    refine ⟨?_, ?_, ?_, ?_⟩
    · intro key hkey
      obtain ⟨_, hc, -⟩ := Outcome.bind_eq_ok_iff.mp hkey
      exact hle (requireComplete_eq_ok_iff.mp hc)
    · intro j vshare hv
      exact hle (isComplete_of_deriveVerificationShare hv)
    · intro map hmap
      exact hle (h.isComplete_of_deriveAllVerificationShares hmap)
    · intro agreed ha
      exact hle (h.agreedRound1_eq_ok_iff.mp ha).1

/-- The threshold is met in a reached state exactly when the participants named for
disqualification so far leave that many, or the state does not derive a key at all. -/
theorem keyMeetsThreshold_reach_iff (epoch : UInt64) (threshold n : UInt32)
    (calls : List (DkgCall P S)) :
    (reach epoch threshold n calls).KeyMeetsThreshold ↔
      ((reach epoch threshold n calls).isComplete = true →
        threshold.toNat + (DkgCall.targets n calls).length ≤ n.toNat) := by
  have hparams := params_reach (P := P) epoch threshold n calls
  have hthr : (reach epoch threshold n calls).threshold = threshold :=
    congrArg (fun p => p.2.1) hparams
  have hn : (reach epoch threshold n calls).numParticipants = n :=
    congrArg (fun p => p.2.2) hparams
  rw [(inv_reach epoch threshold n calls).keyMeetsThreshold_iff]
  refine imp_congr_right fun hc => ?_
  have hsum := isComplete_iff.mp hc
  rw [length_disqualified_reach, hn] at hsum
  rw [hthr]
  omega

/-- **A run whose disqualifications leave at least `threshold` participants derives no key
below the threshold, at any point; and any other run does so wherever it is complete.** -/
theorem keyMeetsThreshold_reach (epoch : UInt64) (threshold n : UInt32)
    (calls : List (DkgCall P S)) :
    (∀ k, (reach epoch threshold n (calls.take k)).KeyMeetsThreshold ↔
      ((reach epoch threshold n (calls.take k)).isComplete = true →
        threshold.toNat + (DkgCall.targets n (calls.take k)).length ≤ n.toNat)) ∧
    (threshold.toNat + (DkgCall.targets n calls).length ≤ n.toNat →
      ∀ k, (reach epoch threshold n (calls.take k)).KeyMeetsThreshold) := by
  refine ⟨fun k => keyMeetsThreshold_reach_iff epoch threshold n _, fun hleft k => ?_⟩
  refine (keyMeetsThreshold_reach_iff epoch threshold n _).mpr fun _ => ?_
  exact (Nat.add_le_add_left (DkgCall.length_targets_take_le n calls k) _).trans hleft

end DkgState

end Runs

/-! ### A key below the threshold -/

namespace Reference

/-- Dealer 1 submits its package, and dealer 2 is disqualified. -/
def abortedCalls : List (DkgCall Residue Residue) := [.submit (linePackage 1 5 1), .disqualify 2]

lemma reach_submitted :
    DkgState.reach 7 2 2 (abortedCalls.take 1)
      = ⟨7, 2, 2, [some (linePackage 1 5 1).commitment, none], []⟩ := by
  have hok : DkgState.InOrder 7 2 [linePackage 1 5 1] := by
    simp only [DkgState.InOrder, List.zipIdx_cons, List.zipIdx_nil, List.forall_mem_cons]
    exact ⟨⟨rfl, Round1Package.verify_ofPolynomial _ _ _ _ _ _, rfl⟩, by simp⟩
  have hcalls : abortedCalls.take 1 = [linePackage 1 5 1].map .submit := rfl
  have hn : [linePackage 1 5 1].length ≤ (2 : UInt32).toNat := by decide
  rw [hcalls, DkgState.reach_submit_all hn hok]
  rfl

lemma reach_abortedCalls :
    DkgState.reach 7 2 2 abortedCalls
      = ⟨7, 2, 2, [some (linePackage 1 5 1).commitment, none], [2]⟩ := by
  have hsplit : abortedCalls = abortedCalls.take 1 ++ [.disqualify 2] := rfl
  rw [hsplit, DkgState.reach_concat, reach_submitted]
  rfl

/-- Dealers 1 and 2 submit their packages, and dealer 3, who does not, is disqualified. -/
def remainingCalls : List (DkgCall Residue Residue) := packages.map .submit ++ [.disqualify 3]

lemma reach_remainingCalls :
    DkgState.reach 7 2 3 remainingCalls
      = ⟨7, 2, 3, [some (linePackage 1 5 1).commitment, some (linePackage 2 6 2).commitment, none],
        [3]⟩ := by
  have hn : packages.length ≤ (3 : UInt32).toNat := by decide
  rw [remainingCalls, DkgState.reach_concat, DkgState.reach_submit_all hn inOrder_packages]
  rfl

end Reference

open Reference in
/-- Two of three participants with the threshold 2 derive a key after the third is disqualified. -/
theorem keyMeetsThreshold_remaining :
    (DkgState.reach 7 2 3 remainingCalls).disqualified = [3] ∧
    (DkgState.reach 7 2 3 remainingCalls).isComplete = true ∧
    (DkgState.reach 7 2 3 remainingCalls).KeyMeetsThreshold := by
  refine ⟨?_, ?_, (DkgState.keyMeetsThreshold_reach 7 2 3 remainingCalls).2 (by decide) 3⟩
  · rw [reach_remainingCalls]
  · rw [reach_remainingCalls]
    rfl

open Reference in
/-- Of two participants with the threshold 2, one submits and the other is disqualified.
That call reports that the ceremony is aborted, and yet the state derives a key, from one
dealer. -/
theorem key_from_one_dealer_of_two :
    ((DkgState.reach 7 2 2 (abortedCalls.take 1)).disqualify 2).2 = .err (.dkgAborted 1 2) ∧
    (DkgState.reach 7 2 2 abortedCalls).qualifiedDealers = [1] ∧
    (DkgState.reach 7 2 2 abortedCalls).deriveGroupKey
      = .ok ((5 : Residue) • (generator : Residue)) ∧
    ¬(DkgState.reach 7 2 2 abortedCalls).KeyMeetsThreshold := by
  have hkey : (DkgState.reach 7 2 2 abortedCalls).deriveGroupKey
      = .ok ((5 : Residue) • (generator : Residue)) := by
    rw [reach_abortedCalls]
    change Outcome.ok (0 + (5 : Residue) • (generator : Residue)) = _
    rw [zero_add]
  refine ⟨?_, ?_, hkey, fun h => ?_⟩
  · rw [reach_submitted]
    rfl
  · rw [reach_abortedCalls]
    rfl
  · have hle := h.groupKey _ hkey
    rw [reach_abortedCalls] at hle
    exact absurd hle (by decide)

end Frostito
