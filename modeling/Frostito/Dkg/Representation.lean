import Frostito.Dkg.Threshold
import Frostito.Lib.Sorted
import Frostito.Reference.Backend

/-!
# The representation of the round state

What the rest of the ceremony relies on without checking: where a commitment sits and what
was verified about it, that a disqualified dealer has none, that the counts add up, and that
a call that fails leaves no trace.  All of it holds in every reachable state, except that a
recorded commitment has `threshold` coefficients only when a `u32` counts them.
-/

namespace Frostito

section Representation

variable {S P : Type} [CurveScalar S] [CurvePoint P S] [Sha2]

namespace DkgState

/-- What the rest of the ceremony relies on in a state of the ceremony `epoch`, `threshold`,
`n`. -/
structure WellFormed (epoch : UInt64) (threshold n : UInt32) (s : DkgState P) : Prop where
  length_commitments : s.commitments.length = n.toNat
  slot : ∀ (k : ℕ) (c : DealerCommitment P), s.commitments[k]? = some (some c) →
    c.dealerIndex.toNat = k + 1 ∧ c.coefficients.length = threshold.toNat ∧
      ∃ proof : ProofOfKnowledge P S, (⟨c, proof⟩ : Round1Package P S).verify epoch = .ok ()
  disqualified_ascending : s.disqualified.Pairwise (· < ·)
  disqualified_range : ∀ i ∈ s.disqualified, 1 ≤ i ∧ i ≤ n
  disqualified_empty : ∀ i ∈ s.disqualified, s.commitments[i.toNat - 1]? = some none
  count_le : s.commitmentCount + s.disqualified.length ≤ n.toNat
  qualifiedDealers_ascending : s.qualifiedDealers.Pairwise (· < ·)
  disjoint : ∀ i ∈ s.qualifiedDealers, i ∉ s.disqualified
  requireComplete_ne_panic : s.requireComplete ≠ .panic
  deriveVerificationShare_ne_panic : ∀ j, s.deriveVerificationShare j ≠ .panic
  disqualify_ne_panic : ∀ i, (s.disqualify i).2 ≠ .panic
  /-- A submission that returns `Ok(false)` or an error changes nothing. -/
  submit_unchanged : ∀ package : Round1Package P S,
    (s.submitCommitment package).2 ≠ .ok true → (s.submitCommitment package).1 = s
  /-- A disqualification that returns an error other than `DkgAborted` changes nothing. -/
  disqualify_unchanged : ∀ i e, (s.disqualify i).2 = .err e →
    (∀ qualified need, e ≠ .dkgAborted qualified need) → (s.disqualify i).1 = s

variable {s : DkgState P}

lemma submitCommitment_unchanged {package : Round1Package P S}
    (h : (s.submitCommitment package).2 ≠ .ok true) : (s.submitCommitment package).1 = s := by
  rcases s.submitCommitment_cases package with ⟨idx, -, hrecord⟩ | ⟨hsame, -⟩
  · exact absurd (congrArg Prod.snd hrecord) h
  · exact hsame

/-- Past the range check the only error is `DkgAborted`. -/
lemma Inv.disqualify_unchanged (h : s.Inv) {i : UInt32} {e : Error}
    (herr : (s.disqualify i).2 = .err e)
    (he : ∀ qualified need, e ≠ .dkgAborted qualified need) : (s.disqualify i).1 = s := by
  rcases h.disqualify_eq i with ⟨-, hs⟩ | ⟨-, hs⟩
  · rw [hs] at herr
    obtain ⟨-, rfl⟩ := Outcome.refuse_eq_err_iff.mp herr
    exact absurd rfl (he _ _)
  · rw [hs]

lemma Inv.disqualify_ne_panic (h : s.Inv) (i : UInt32) : (s.disqualify i).2 ≠ .panic := by
  rcases h.disqualify_eq i with ⟨-, hs⟩ | ⟨-, hs⟩
  all_goals rw [hs]
  · exact Outcome.refuse_ne_panic _ _
  · simp

lemma Inv.requireComplete_ne_panic (h : s.Inv) : s.requireComplete ≠ .panic := by
  unfold requireComplete
  split
  · simp
  · rw [Outcome.checkedSub, if_pos h.length_disqualified_le, Outcome.ok_bind]
    simp

lemma Inv.deriveVerificationShare_ne_panic (h : s.Inv) (j : UInt32) :
    s.deriveVerificationShare j ≠ .panic := by
  by_cases hj : j = 0
  · rw [deriveVerificationShare, Outcome.refuse_of_pos hj, Outcome.err_bind]
    simp
  · by_cases hc : s.isComplete = true
    · rw [deriveVerificationShare_eq hc hj]
      simp
    · rw [deriveVerificationShare, Outcome.refuse_of_neg hj, Outcome.ok_bind]
      refine Outcome.bind_ne_panic h.requireComplete_ne_panic fun _ hok => ?_
      exact absurd (requireComplete_eq_ok_iff.mp hok) hc

/-- A disqualified dealer's slot is empty. -/
lemma Inv.slot_of_disqualified (h : s.Inv) {i : UInt32} (hi : i ∈ s.disqualified) :
    s.commitments[i.toNat - 1]? = some none := by
  obtain ⟨h0, hle⟩ := mem_participants.mp (h.disqualified_mem i hi)
  have hpos := toNat_ne_zero_iff.mpr h0
  rw [UInt32.le_iff_toNat_le] at hle
  have hlt : i.toNat - 1 < s.commitments.length := by
    rw [h.length_commitments]
    omega
  rw [List.getElem?_eq_getElem hlt]
  cases hslot : s.commitments[i.toNat - 1] with
  | none => rfl
  | some c =>
    have hget : s.commitments[i.toNat - 1]? = some (some c) := by
      rw [List.getElem?_eq_getElem hlt, hslot]
    have hc := List.reduceOption_mem_iff.mpr (List.mem_of_getElem? hget)
    have hkey := h.indexed _ c hget
    have h0' := toNat_ne_zero_iff.mpr (h.accepted c hc).ne_zero
    rw [slotKey] at hkey
    have heq : c.dealerIndex = i := UInt32.toNat_inj.mp (by omega)
    exact absurd (heq ▸ hi) (h.accepted c hc).notMem_disqualified

/-- A state of the ceremony is well formed when its commitments have as many coefficients as
the threshold. -/
lemma Inv.wellFormed (h : s.Inv)
    (hlen : ∀ c ∈ s.commitments.reduceOption, c.coefficients.length = s.threshold.toNat) :
    WellFormed s.epoch s.threshold s.numParticipants s where
  length_commitments := h.length_commitments
  slot k c hk := by
    have hc := List.reduceOption_mem_iff.mpr (List.mem_of_getElem? hk)
    have hkey := h.indexed k c hk
    have h0 := toNat_ne_zero_iff.mpr (h.accepted c hc).ne_zero
    rw [slotKey] at hkey
    exact ⟨by omega, hlen c hc, (h.accepted c hc).proof⟩
  disqualified_ascending := by
    refine (h.sorted.and h.nodup).imp fun {a b} hab => ?_
    exact UInt32.lt_of_le_of_ne hab.1 hab.2
  disqualified_range i hi := by
    obtain ⟨h0, hle⟩ := mem_participants.mp (h.disqualified_mem i hi)
    refine ⟨UInt32.le_iff_toNat_le.mpr ?_, hle⟩
    exact Nat.one_le_iff_ne_zero.mpr (toNat_ne_zero_iff.mpr h0)
  disqualified_empty _ := h.slot_of_disqualified
  count_le := by
    have hle := h.subperm_participants.length_le
    rwa [List.length_append, length_qualifiedDealers, length_participants] at hle
  qualifiedDealers_ascending := List.pairwise_map.mpr h.pairwise_commitments
  disjoint i hi := by
    obtain ⟨c, hc, rfl⟩ := List.mem_map.mp hi
    exact (h.accepted c hc).notMem_disqualified
  requireComplete_ne_panic := h.requireComplete_ne_panic
  deriveVerificationShare_ne_panic := h.deriveVerificationShare_ne_panic
  disqualify_ne_panic := h.disqualify_ne_panic
  submit_unchanged _ := submitCommitment_unchanged
  disqualify_unchanged _ _ := h.disqualify_unchanged

/-! ### Runs -/

/-- Whenever a package is recorded, a `u32` counts its coefficients. -/
def CountsCoefficients (epoch : UInt64) (threshold n : UInt32) (calls : List (DkgCall P S)) :
    Prop :=
  ∀ before package after, calls = before ++ .submit package :: after →
    (∃ idx, (reach epoch threshold n before).Records idx package) →
    package.commitment.coefficients.length < 2 ^ 32

variable {epoch : UInt64} {threshold n : UInt32} {calls : List (DkgCall P S)}

/-- A run that counts the coefficients holds no commitment with more of them. -/
lemma CountsCoefficients.length_lt (h : CountsCoefficients epoch threshold n calls) :
    ∀ c ∈ (reach epoch threshold n calls).commitments.reduceOption,
      c.coefficients.length < 2 ^ 32 := by
  induction calls using List.reverseRecOn with
  | nil => simp [reach, new]
  | append_singleton before last ih =>
    have hbefore := ih fun b package after heq => h b package (after ++ [last]) (by simp [heq])
    intro c hc
    rw [reach, Calls.run_append, ← reach, Calls.run_cons, Calls.run_nil] at hc
    cases last with
    | submit package =>
      rcases submitCommitment_cases (reach epoch threshold n before) package with
        ⟨idx, hrec, hs⟩ | ⟨hs, -⟩
      · rw [call, hs] at hc
        rcases Slots.mem_reduceOption_set hc with heq | hc
        · rw [← Option.some.inj heq]
          exact h before package [] rfl ⟨idx, hrec⟩
        · exact hbefore c hc
      · rw [call, hs] at hc
        exact hbefore c hc
    | disqualify i =>
      rcases disqualify_cases (reach epoch threshold n before) i with ⟨idx, -, -, hs⟩ | ⟨-, hs⟩
      · rw [call, hs] at hc
        rcases Slots.mem_reduceOption_set hc with heq | hc
        · exact absurd heq (by simp)
        · exact hbefore c hc
      · rw [call, hs] at hc
        exact hbefore c hc

/-- **The representation invariant.**  Every state of a run is well formed, and dealers stay
disqualified along it, exactly when the run counts the coefficients of what it records. -/
theorem wellFormed_iff (epoch : UInt64) (threshold n : UInt32) (calls : List (DkgCall P S)) :
    ((∀ k, WellFormed epoch threshold n (reach epoch threshold n (calls.take k))) ∧
      ∀ k k', k ≤ k' → (reach epoch threshold n (calls.take k)).disqualified
        ⊆ (reach epoch threshold n (calls.take k')).disqualified) ↔
    CountsCoefficients epoch threshold n calls := by
  constructor
  · rintro ⟨hwell, -⟩ before package after rfl ⟨idx, hrec⟩
    have hstate : reach epoch threshold n ((before ++ .submit package :: after).take
        (before.length + 1))
        = (reach epoch threshold n before).record idx package.commitment := by
      rw [List.take_length_add_append, List.take_succ_cons, List.take_zero, reach,
        Calls.run_append, ← reach, Calls.run_cons, Calls.run_nil, call, hrec.submitCommitment_eq]
    have hslot := (hwell (before.length + 1)).slot idx package.commitment (by
      rw [hstate, record, List.getElem?_set_self hrec.lt_length])
    rw [hslot.2.1]
    exact threshold.toNat_lt
  · intro hcount
    refine ⟨fun k => ?_, fun k k' hle i hi => ?_⟩
    · have hcount' : CountsCoefficients epoch threshold n (calls.take k) := by
        intro before package after heq
        refine hcount before package (after ++ calls.drop k) ?_
        rw [← List.cons_append, ← List.append_assoc, ← heq, List.take_append_drop]
      have hinv := inv_reach epoch threshold n (calls.take k)
      obtain ⟨hepoch, hthr, hn⟩ := reach_params epoch threshold n (calls.take k)
      have hwell := hinv.wellFormed fun c hc => by
        rw [← (hinv.accepted c hc).threshold_eq, DealerCommitment.threshold,
          UInt32.toNat_ofNat_of_lt' (hcount'.length_lt c hc)]
      rwa [hepoch, hthr, hn] at hwell
    · rw [mem_disqualified_reach, DkgCall.mem_targets] at hi ⊢
      have htake : calls.take k = (calls.take k').take k := by
        rw [List.take_take, min_eq_left hle]
      rw [htake] at hi
      exact ⟨hi.1, List.mem_of_mem_take hi.2⟩

end DkgState

end Representation

/-! ### A commitment with trailing zeros -/

section Padded

open Reference

/-- The package of the only dealer for the constant `5`, with `m` zeros behind it. -/
def paddedPackage (m : ℕ) (h : m + 1 < 2 ^ 58) : Round1Package Residue Residue :=
  .ofPolynomial 1 7 ((5 : ℕ) : Residue) (List.replicate m 0) (by simpa using h) (Stream'.const 1)

lemma length_paddedPackage {m : ℕ} (h : m + 1 < 2 ^ 58) :
    (paddedPackage m h).commitment.coefficients.length = m + 1 := by
  rw [paddedPackage, Round1Package.ofPolynomial, List.length_map, List.length_cons,
    List.length_replicate]

/-- With `2 ^ 32` zeros it is recorded for the threshold 1. -/
theorem padded_not_wellFormed :
    ¬∀ (epoch : UInt64) (threshold n : UInt32) (calls : List (DkgCall Residue Residue)),
      DkgState.WellFormed epoch threshold n (DkgState.reach epoch threshold n calls) := by
  intro hall
  have hlong : ∀ m h, 2 ^ 32 ≤ m → UInt32.ofNat (m + 1) = 1 →
      ¬DkgState.WellFormed 7 1 1 (DkgState.reach 7 1 1 [.submit (paddedPackage m h)]) := by
    intro m h hm hthr hwell
    have hrec : DkgState.Records (DkgState.new 7 1 1) 0 (paddedPackage m h) := by
      refine ⟨Round1Package.verify_ofPolynomial _ _ _ _ _ _, List.not_mem_nil,
        show slotOf 1 = some 0 by decide, ?_, rfl⟩
      rw [DealerCommitment.threshold, length_paddedPackage, hthr]
      rfl
    rw [DkgState.reach, Calls.run_cons, Calls.run_nil, DkgState.call,
      hrec.submitCommitment_eq] at hwell
    have hslot := (hwell.slot 0 (paddedPackage m h).commitment rfl).2.1
    rw [length_paddedPackage] at hslot
    have hone : (1 : UInt32).toNat = 1 := rfl
    omega
  exact hlong (2 ^ 32) (by norm_num) le_rfl rfl (hall 7 1 1 _)

end Padded

end Frostito
