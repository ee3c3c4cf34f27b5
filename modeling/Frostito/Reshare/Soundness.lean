import Frostito.Reference.Lines
import Frostito.Reference.Padded
import Frostito.Reshare.Combination

/-!
# What an aggregator can be relied on for

Whatever is delivered, an aggregator keeps one sub-share and one commitment for each dealer
it heard, and refuses a delivery without a trace.  When every dealer has delivered, its
`finalize` finishes with the combination, or says that the combination is not the expected
key.  It can do neither when a commitment has `2 ^ 32` coefficients or more: the threshold
is the length cut down to 32 bits, and the sum over the coefficients overruns it.
-/

namespace Frostito.Reshare

section Soundness

variable {S P : Type} [CurveScalar S] [CurvePoint P S]

namespace Aggregator

/-- The Lagrange combination of the stored constant terms. -/
def constantTerm (a : Aggregator P S) : P :=
  (a.dealerSet.map fun d => (lagrangeCoeff a.dealerSet d : S) • (a.coefficientsOf d).headD 0).sum

/-- What `finalize` does for an expected key. -/
structure Finalizes (a : Aggregator P S) (key : P) : Prop where
  ne_panic : a.finalize key ≠ .panic
  ne_invalidResponse : a.finalize key ≠ .err .invalidResponse
  insufficient_iff : a.finalize key =
      .err (.insufficientContributions a.subshares.length a.dealerSet.length) ↔
    a.missingDealers ≠ []
  invalidCommitment_iff : a.missingDealers = [] →
    (a.finalize key = .err .invalidCommitment ↔ a.constantTerm ≠ key)
  finishes : a.missingDealers = [] → a.constantTerm = key →
    ∃ share p, a.finalize key = .ok (share, p) ∧ p.groupKey = .ok key ∧
      p.evaluateAt a.playerIndex = .ok (share • generator) ∧
      ∀ c ∈ a.commitments, p.coefficients.length = c.threshold.toNat

/-- What an aggregator can be relied on for. -/
structure Sound (a : Aggregator P S) : Prop where
  indices_eq : a.subshares.map Prod.fst = a.commitments.map DealerCommitment.dealerIndex
  nodup : (a.subshares.map Prod.fst).Nodup
  subset : a.subshares.map Prod.fst ⊆ a.dealerSet
  threshold_eq : ∀ c ∈ a.commitments, ∀ c' ∈ a.commitments, c.threshold = c'.threshold
  /-- An error or `Ok(false)` leaves the aggregator unchanged. -/
  unchanged : ∀ (s : SubShare S) (c : DealerCommitment P),
    (a.addSubshare s c).2 ≠ .ok true → (a.addSubshare s c).1 = a
  finalizes : ∀ key, a.Finalizes key

/-- Once every dealer has delivered, no commitment has more coefficients than a `u32`
counts. -/
def CountsCoefficients (a : Aggregator P S) : Prop :=
  a.missingDealers = [] → ∀ c ∈ a.commitments, c.coefficients.length < 2 ^ 32

/-! ### Deliveries -/

/-- What every delivered commitment satisfies, every stored one does. -/
lemma forall_commitments_run {Q : DealerCommitment P → Prop} {a : Aggregator P S}
    (ha : ∀ c ∈ a.commitments, Q c) {deliveries : List (SubShare S × DealerCommitment P)}
    (h : ∀ m ∈ deliveries, Q m.2) :
    ∀ c ∈ (Calls.run deliver a deliveries).commitments, Q c := by
  refine Calls.run_invariant (I := fun a : Aggregator P S => ∀ c ∈ a.commitments, Q c) ha
    fun m hm a hold => ?_
  rcases a.addSubshare_cases m.1 m.2 with ⟨-, hadd⟩ | ⟨hsame, -⟩
  · rw [deliver, hadd]
    exact List.forall_mem_append.mpr ⟨hold, List.forall_mem_singleton.mpr (h m hm)⟩
  · rw [deliver, hsame]
    exact hold

/-! ### Before every dealer has delivered -/

omit [CurvePoint P S] in
lemma lagrange_of_incomplete {a : Aggregator P S}
    (h : a.subshares.length ≠ a.dealerSet.length) :
    a.lagrange = .err (.insufficientContributions a.subshares.length a.dealerSet.length) := by
  have hguard : a.isComplete = false := by simpa [isComplete] using h
  rw [lagrange, Outcome.refuse_of_pos hguard, Outcome.err_bind]

lemma finalize_of_incomplete {a : Aggregator P S}
    (h : a.subshares.length ≠ a.dealerSet.length) (key : P) :
    a.finalize key
      = .err (.insufficientContributions a.subshares.length a.dealerSet.length) := by
  rw [finalize, polynomial, lagrange_of_incomplete h, Outcome.err_bind, Outcome.err_bind]

end Aggregator

variable {j : UInt32} {dealerSet : List UInt32} {a : Aggregator P S}

/-- No dealer is missing exactly when the aggregator is complete. -/
lemma Inv.missingDealers_eq_nil_iff (h : Inv j dealerSet a) :
    a.missingDealers = [] ↔ a.subshares.length = a.dealerSet.length := by
  obtain ⟨received, hr⟩ := h.holds
  have hheard : a.missingDealers = [] ↔ a.dealerSet ⊆ a.subshares.map Prod.fst := by
    simp [Aggregator.missingDealers, List.filter_eq_nil_iff, List.subset_def]
  rw [hheard]
  constructor
  · intro hall
    have hle := (List.subperm_of_subset hr.nodup_indices hr.indices_subset).length_le
    have hge := (List.subperm_of_subset h.validIndices.nodup hall).length_le
    rw [List.length_map] at hle hge
    exact le_antisymm hle hge
  · intro hcomplete
    rw [hr.indices_eq]
    exact (hr.perm_dealerSet hcomplete).symm.subset

/-! ### When every dealer has delivered -/

omit [CurveScalar S] [CurvePoint P S] in
lemma Aggregator.dealerIndex_of_commitmentOf {d : UInt32} {c : DealerCommitment P}
    (h : a.commitmentOf d = .ok c) : c.dealerIndex = d := by
  rw [commitmentOf, Outcome.expectSome_eq_ok_iff] at h
  simpa using List.find?_some h

section Complete

variable (h : Inv j dealerSet a) (hcomplete : a.subshares.length = a.dealerSet.length)
include h hcomplete

/-- What was accepted from a dealer is one of the stored commitments. -/
lemma Inv.exists_stored {d : UInt32} (hd : d ∈ a.dealerSet) :
    ∃ c ∈ a.commitments, a.commitmentOf d = .ok c ∧ a.coefficientsOf d = c.coefficients ∧
      c.threshold = a.newThreshold := by
  obtain ⟨⟨c, hc, hthr⟩, -⟩ := h.lookup hcomplete hd
  refine ⟨c, ?_, hc, by rw [Aggregator.coefficientsOf, hc], hthr⟩
  rw [Aggregator.commitmentOf, Outcome.expectSome_eq_ok_iff] at hc
  exact List.mem_of_find?_eq_some hc

/-- Every stored commitment was accepted from a dealer of the set. -/
lemma Inv.exists_dealer {c : DealerCommitment P} (hc : c ∈ a.commitments) :
    ∃ d ∈ a.dealerSet, a.coefficientsOf d = c.coefficients ∧ c.threshold = a.newThreshold := by
  obtain ⟨received, hr⟩ := h.holds
  rw [hr.commitments_eq] at hc
  obtain ⟨r, hrm, rfl⟩ := List.mem_map.mp hc
  have hfind := (hr.find hrm).2
  obtain ⟨c, -, hc, hcoeffs, hthr⟩ := h.exists_stored hcomplete (hr.mem r hrm)
  rw [hfind, Outcome.ok.injEq] at hc
  exact ⟨r.1.dealerIndex, hr.mem r hrm, by rw [hcoeffs, hc], by rw [hc, hthr]⟩

/-- Deriving the polynomial returns no error. -/
lemma Inv.polynomial_ne_err (hinj : Function.Injective (fromU32 : UInt32 → S)) (e : Error) :
    a.polynomial ≠ .err e := by
  rw [Aggregator.polynomial, (h.lagrange_eq_ok_iff hinj).mpr ⟨hcomplete, rfl⟩, Outcome.ok_bind]
  intro he
  rcases Outcome.bind_eq_err_iff.mp he with he | ⟨first, -, he⟩
  · exact Outcome.expectSome_ne_err _ _ he
  rcases Outcome.bind_eq_err_iff.mp he with he | ⟨coefficients, -, he⟩
  · refine Outcome.foldlM_ne_err (fun p _ acc he => ?_) _ he
    rcases Outcome.bind_eq_err_iff.mp he with he | ⟨commitment, -, he⟩
    · exact Outcome.expectSome_ne_err _ _ he
    · exact Aggregator.accumulate_ne_err _ _ _ _ he
  · exact absurd he (by simp)

/-- A commitment with more coefficients than a `u32` counts overruns the sum. -/
theorem Inv.finalize_eq_panic (hinj : Function.Injective (fromU32 : UInt32 → S))
    {c : DealerCommitment P} (hc : c ∈ a.commitments)
    (hlong : 2 ^ 32 ≤ c.coefficients.length) (key : P) : a.finalize key = .panic := by
  have hpoly : a.polynomial = .panic := by
    refine Outcome.eq_panic (fun p hp => ?_) (h.polynomial_ne_err hcomplete hinj)
    obtain ⟨-, hle, -⟩ := (h.polynomial_eq_ok_iff hinj).mp hp
    obtain ⟨d, hd, hcoeffs, -⟩ := h.exists_dealer hcomplete hc
    have hlen := hle d hd
    rw [hcoeffs] at hlen
    have hthr : a.newThreshold.toNat < 2 ^ 32 := a.newThreshold.toNat_lt
    omega
  rw [Aggregator.finalize, hpoly, Outcome.panic_bind]

variable (hcount : ∀ c ∈ a.commitments, c.coefficients.length < 2 ^ 32)
include hcount

/-- The threshold counts the coefficients. -/
lemma Inv.length_coefficientsOf {d : UInt32} (hd : d ∈ a.dealerSet) :
    (a.coefficientsOf d).length = a.newThreshold.toNat := by
  obtain ⟨c, hc, -, hcoeffs, hthr⟩ := h.exists_stored hcomplete hd
  rw [← hthr, hcoeffs, DealerCommitment.threshold, UInt32.toNat_ofNat_of_lt' (hcount c hc)]

/-- Without empty commitments, the combination starts with the constant term. -/
lemma Inv.head?_combination (hne : ∀ c ∈ a.commitments, c.coefficients ≠ []) :
    a.combination.head? = some a.constantTerm := by
  obtain ⟨d, hd⟩ := List.exists_mem_of_ne_nil _ h.validIndices.ne_nil
  obtain ⟨c, hc, -, hcoeffs, -⟩ := h.exists_stored hcomplete hd
  have hpos : 0 < a.newThreshold.toNat := by
    rw [← h.length_coefficientsOf hcomplete hcount hd, hcoeffs]
    exact List.length_pos_iff.mpr (hne c hc)
  have hcons : a.combination ≠ [] := by
    rw [← List.length_pos_iff, Aggregator.combination, Horner.length_combine]
    exact hpos
  obtain ⟨key, rest, hcs⟩ := List.exists_cons_of_ne_nil hcons
  have hkey : a.combination.headD 0 = a.constantTerm := Sharing.headD_combine hpos _ _ _
  rw [hcs, List.headD_cons] at hkey
  rw [hcs, List.head?_cons, hkey]

/-- **A complete aggregator that counts its coefficients** finishes when the constant term
is the expected key, and otherwise says that it is not. -/
theorem Inv.finalize_eq (hinj : Function.Injective (fromU32 : UInt32 → S))
    (hne : ∀ c ∈ a.commitments, c.coefficients ≠ []) (key : P) :
    a.finalize key = if a.constantTerm = key then
      .ok ((a.dealerSet.map fun d => lagrangeCoeff a.dealerSet d * a.valueOf d).sum,
        ⟨a.combination⟩)
    else .err .invalidCommitment := by
  have hhead := h.head?_combination hcomplete hcount hne
  have hle : ∀ d ∈ a.dealerSet, (a.coefficientsOf d).length ≤ a.newThreshold.toNat :=
    fun d hd => (h.length_coefficientsOf hcomplete hcount hd).le
  split
  · next hkey =>
    refine (h.finalize_eq_ok_iff hinj).mpr ⟨hcomplete, hle, rfl, ?_, rfl⟩
    rw [hhead, hkey]
  · next hkey =>
    have hpoly : a.polynomial = .ok ⟨a.combination⟩ :=
      (h.polynomial_eq_ok_iff hinj).mpr ⟨hcomplete, hle, rfl⟩
    rw [Aggregator.finalize, hpoly, Outcome.ok_bind, SharePolynomial.groupKey, hhead,
      Outcome.expectSome_some, Outcome.ok_bind, Outcome.refuse_of_pos hkey, Outcome.err_bind]

end Complete

/-- What `finalize` does, unless a commitment overruns the threshold. -/
lemma Inv.finalizes (h : Inv j dealerSet a) (hinj : Function.Injective (fromU32 : UInt32 → S))
    (hne : ∀ c ∈ a.commitments, c.coefficients ≠ []) (hcount : a.CountsCoefficients) (key : P) :
    a.Finalizes key := by
  by_cases hmissing : a.missingDealers = []
  · have hcomplete := h.missingDealers_eq_nil_iff.mp hmissing
    have hfin := h.finalize_eq hcomplete (hcount hmissing) hinj hne key
    have hthr : ∀ c ∈ a.commitments, a.newThreshold = c.threshold := by
      intro c hc
      obtain ⟨-, -, -, hthr⟩ := h.exists_dealer hcomplete hc
      exact hthr.symm
    by_cases hkey : a.constantTerm = key
    · rw [if_pos hkey] at hfin
      refine ⟨by simp [hfin], by simp [hfin], by simp [hfin, hmissing],
        fun _ => by simp [hfin, hkey], fun _ _ => ⟨_, _, hfin, ?_, ?_, ?_⟩⟩
      · rw [SharePolynomial.groupKey, h.head?_combination hcomplete (hcount hmissing) hne, hkey,
          Outcome.expectSome_some]
      · have hshare := h.isShare_of_finalize hinj hfin
        rw [h.playerIndex_eq, SharePolynomial.evaluateAt, Outcome.refuse_of_neg h.player_ne_zero,
          Outcome.ok_bind, hshare]
      · intro c hc
        rw [Aggregator.combination, Horner.length_combine, hthr c hc]
    · rw [if_neg hkey] at hfin
      exact ⟨by simp [hfin], by simp [hfin], by simp [hfin, hmissing],
        fun _ => by simp [hfin, hkey], fun _ hsame => absurd hsame hkey⟩
  · have hfin := Aggregator.finalize_of_incomplete
      (fun hcomplete => hmissing (h.missingDealers_eq_nil_iff.mpr hcomplete)) key
    exact ⟨by simp [hfin], by simp [hfin], by simp [hfin, hmissing],
      fun hnil => absurd hnil hmissing, fun hnil => absurd hnil hmissing⟩

/-- An aggregator is sound exactly when its threshold counts the coefficients. -/
lemma Inv.sound_iff (h : Inv j dealerSet a) (hinj : Function.Injective (fromU32 : UInt32 → S))
    (hne : ∀ c ∈ a.commitments, c.coefficients ≠ []) : a.Sound ↔ a.CountsCoefficients := by
  constructor
  · intro hsound hmissing c hc
    by_contra hlong
    have hcomplete := h.missingDealers_eq_nil_iff.mp hmissing
    exact (hsound.finalizes 0).ne_panic
      (h.finalize_eq_panic hcomplete hinj hc (not_lt.mp hlong) 0)
  · intro hcount
    obtain ⟨received, hr⟩ := h.holds
    refine ⟨?_, hr.nodup_indices, hr.indices_subset, ?_,
      fun s c => Aggregator.addSubshare_unchanged, h.finalizes hinj hne hcount⟩
    · rw [hr.indices_eq, hr.commitments_eq, List.map_map]
      rfl
    · rw [hr.commitments_eq]
      intro c hc c' hc'
      obtain ⟨r, hrm, rfl⟩ := List.mem_map.mp hc
      obtain ⟨r', hrm', rfl⟩ := List.mem_map.mp hc'
      exact hr.threshold r hrm r' hrm'

/-- **Soundness of the aggregator.**  Whatever is delivered, no commitment empty, the
aggregator is sound in the state it reaches exactly when its threshold counts the
coefficients there; and it is sound throughout a run in which no commitment has `2 ^ 32`
coefficients or more. -/
theorem sound_run_iff [PrimeOrder P] {a₀ : Aggregator P S}
    (hnew : Aggregator.new j dealerSet = .ok a₀)
    {deliveries : List (SubShare S × DealerCommitment P)}
    (hne : ∀ m ∈ deliveries, m.2.coefficients ≠ []) :
    (∀ n, (Calls.run deliver a₀ (deliveries.take n)).Sound ↔
      (Calls.run deliver a₀ (deliveries.take n)).CountsCoefficients) ∧
    ((∀ m ∈ deliveries, m.2.coefficients.length < 2 ^ 32) →
      ∀ n, (Calls.run deliver a₀ (deliveries.take n)).Sound) := by
  obtain ⟨-, -, rfl⟩ := Aggregator.new_eq_ok_iff.mp hnew
  have hiff : ∀ n, (Calls.run deliver _ (deliveries.take n)).Sound ↔
      (Calls.run deliver _ (deliveries.take n)).CountsCoefficients := fun n =>
    (inv_run (inv_new hnew) _).sound_iff (fromU32_injective P)
      (Aggregator.forall_commitments_run (by simp) fun m hm => hne m (List.mem_of_mem_take hm))
  refine ⟨hiff, fun hcount n => (hiff n).mpr fun _ => ?_⟩
  exact Aggregator.forall_commitments_run (by simp) fun m hm => hcount m (List.mem_of_mem_take hm)

end Soundness

/-! ### A commitment with trailing zeros -/

section Padded

open Reference

lemma new_onlyDealer :
    Aggregator.new 1 [1] = .ok (⟨1, [1], [], []⟩ : Aggregator Residue Residue) :=
  Aggregator.new_eq_ok_iff.mpr ⟨by decide, ⟨by simp, by decide, by simp⟩, rfl⟩

lemma run_padded (m : ℕ) (h : m + 1 < 2 ^ 58) :
    Calls.run deliver (⟨1, [1], [], []⟩ : Aggregator Residue Residue) [paddedDelivery 1 m h]
      = ⟨1, [1], [(1, ((5 : ℕ) : Residue))], [padded 1 m h]⟩ := by
  have hacc : (⟨1, [1], [], []⟩ : Aggregator Residue Residue).Accepts
      (paddedDelivery 1 m h).1 (padded 1 m h) :=
    ⟨rfl, rfl, show (1 : UInt32) ≠ 0 by decide, List.mem_cons_self, rfl, List.not_mem_nil,
      verifySubshare_padded h (by decide)⟩
  rw [Calls.run_cons, Calls.run_nil, deliver]
  exact congrArg Prod.fst hacc.addSubshare_eq

/-- With `2 ^ 32` zeros behind it the commitment counts as one coefficient, and `finalize`
panics. -/
theorem padded_not_sound :
    ¬∀ (j : UInt32) (dealerSet : List UInt32) (a₀ : Aggregator Residue Residue)
      (deliveries : List (SubShare Residue × DealerCommitment Residue)),
      Aggregator.new j dealerSet = .ok a₀ → (∀ m ∈ deliveries, m.2.coefficients ≠ []) →
      (Calls.run deliver a₀ deliveries).Sound := by
  intro hall
  have hpanics : ∀ m h, 2 ^ 32 ≤ m →
      ¬(Calls.run deliver (⟨1, [1], [], []⟩ : Aggregator Residue Residue)
        [paddedDelivery 1 m h]).Sound := by
    intro m h hlong hsound
    have hinv := inv_run (inv_new new_onlyDealer) [paddedDelivery 1 m h]
    rw [run_padded] at hinv hsound
    refine (hsound.finalizes 0).ne_panic ?_
    refine hinv.finalize_eq_panic rfl (fromU32_injective Residue) List.mem_cons_self ?_ 0
    rw [length_padded]
    exact hlong.trans (Nat.le_succ m)
  refine hpanics (2 ^ 32) (by norm_num) le_rfl (hall 1 [1] _ _ new_onlyDealer ?_)
  exact List.forall_mem_singleton.mpr (padded_ne_nil (by norm_num))

end Padded

/-! ### Two dealers of lines -/

section Lines

open Reference

/-- What reaches player 1: the sub-share of dealer 1, a wrong one of dealer 2, and its right one. -/
def lineDeliveries : List (SubShare Residue × DealerCommitment Residue) :=
  [lineDelivery 1 1 14 2, (⟨2, 1, 0⟩, lineCommitment 2 17 1), lineDelivery 2 1 17 1]

lemma forall_lineDeliveries {Q : DealerCommitment Residue → Prop}
    (h : ∀ (i : UInt32) (a b : ℕ), Q (lineCommitment i a b)) : ∀ m ∈ lineDeliveries, Q m.2 :=
  List.forall_mem_cons.mpr ⟨h 1 14 2, List.forall_mem_cons.mpr ⟨h 2 17 1,
    List.forall_mem_singleton.mpr (h 2 17 1)⟩⟩

/-- The two dealers are heard, soundly. -/
theorem lines_sound :
    (Calls.run deliver twoDealers lineDeliveries).Sound ∧
    (Calls.run deliver twoDealers lineDeliveries).missingDealers = [] := by
  have hne := forall_lineDeliveries (Q := fun c => c.coefficients ≠ []) fun _ _ _ =>
    List.cons_ne_nil _ _
  have hcount := forall_lineDeliveries (Q := fun c => c.coefficients.length < 2 ^ 32)
    fun _ _ _ => show 2 < 2 ^ 32 by norm_num
  exact ⟨(sound_run_iff new_twoDealers hne).2 hcount 3, by decide +kernel⟩

end Lines

end Frostito.Reshare
