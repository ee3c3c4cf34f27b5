import Frostito.Reshare.Aggregator

/-!
# What a complete aggregator computes

The polynomial an aggregator derives is the coefficientwise combination of the commitments
it accepted, weighted with the Lagrange coefficients of the dealer set, and its share is the
combination of the values with the same weights.  The share therefore always lies on the
polynomial: `finalize` returns exactly when every dealer has delivered, no commitment
overruns the common threshold, and the constant term is the expected key.
-/

namespace Frostito.Reshare

variable {S P : Type} [CurveScalar S] [CurvePoint P S]

namespace Aggregator

/-- The coefficients accepted from a dealer. -/
def coefficientsOf (a : Aggregator P S) (d : UInt32) : List P :=
  match a.commitmentOf d with
  | .ok c => c.coefficients
  | _ => []

/-- The value accepted from a dealer. -/
def valueOf (a : Aggregator P S) (d : UInt32) : S :=
  match a.subshareOf d with
  | .ok value => value
  | _ => 0

/-- The threshold of the first commitment accepted, which is everybody's. -/
def newThreshold (a : Aggregator P S) : UInt32 :=
  (a.commitments.head?.map DealerCommitment.threshold).getD 0

/-- The Lagrange-weighted combination of the accepted commitments. -/
def combination (a : Aggregator P S) : List P :=
  Horner.combine a.newThreshold.toNat a.dealerSet (lagrangeCoeff a.dealerSet : UInt32 → S)
    a.coefficientsOf

/-! ### The accumulating loop -/

/-- One round of the loop adds the scaled commitment coefficientwise. -/
lemma accumulate_eq_ok {lambda : S} {acc cs acc' : List P}
    (h : accumulate lambda acc cs = .ok acc') :
    cs.length ≤ acc.length ∧ acc'.length = acc.length ∧
      ∀ k, acc'.getD k 0 = acc.getD k 0 + lambda • cs.getD k 0 := by
  induction cs generalizing acc acc' with
  | nil =>
    have hacc : acc' = acc := by cases acc <;> simpa [accumulate, eq_comm] using h
    simp [hacc]
  | cons c cs ih =>
    cases acc with
    | nil => exact absurd h (by simp [accumulate])
    | cons a acc =>
      obtain ⟨rest, hrest, hacc⟩ := Outcome.bind_eq_ok_iff.mp h
      obtain ⟨hle, hlen, hget⟩ := ih hrest
      rw [← Outcome.ok.inj hacc]
      refine ⟨by simpa using hle, by simpa using hlen, fun k => ?_⟩
      cases k with
      | zero => rfl
      | succ k => exact hget k

/-- A commitment no longer than the accumulator does not overrun it. -/
lemma exists_accumulate_eq_ok (lambda : S) {acc cs : List P} (h : cs.length ≤ acc.length) :
    ∃ acc', accumulate lambda acc cs = .ok acc' := by
  induction cs generalizing acc with
  | nil => exact ⟨acc, by cases acc <;> rfl⟩
  | cons c cs ih =>
    cases acc with
    | nil => exact absurd h (by simp)
    | cons a acc =>
      obtain ⟨rest, hrest⟩ := ih (by simpa using h)
      exact ⟨(a + lambda • c) :: rest, by rw [accumulate, hrest, Outcome.ok_bind]⟩

lemma accumulate_ne_err (lambda : S) (acc cs : List P) (e : Error) :
    accumulate lambda acc cs ≠ .err e := by
  induction cs generalizing acc with
  | nil => cases acc <;> simp [accumulate]
  | cons c cs ih =>
    cases acc with
    | nil => simp [accumulate]
    | cons a acc =>
      rw [accumulate, Ne, Outcome.bind_eq_err_iff]
      rintro (hrest | ⟨rest, -, hok⟩)
      · exact ih acc hrest
      · exact absurd hok (by simp)

section Loop

variable (a : Aggregator P S)

/-- The body of the loop over the dealers. -/
def accumulateDealer (coefficients : List P) (p : UInt32 × S) : Outcome Error (List P) := do
  let commitment ← a.commitmentOf p.1
  accumulate p.2 coefficients commitment.coefficients

variable {a}

lemma accumulateDealer_eq {p : UInt32 × S} {c : DealerCommitment P}
    (hc : a.commitmentOf p.1 = .ok c) (acc : List P) :
    a.accumulateDealer acc p = accumulate p.2 acc (a.coefficientsOf p.1) := by
  rw [accumulateDealer, coefficientsOf, hc, Outcome.ok_bind]

/-- The loop over the dealers sums the scaled commitments coefficientwise. -/
lemma foldlM_accumulate_eq_ok {ps : List (UInt32 × S)}
    (hps : ∀ p ∈ ps, ∃ c, a.commitmentOf p.1 = .ok c) {acc acc' : List P}
    (h : ps.foldlM a.accumulateDealer acc = .ok acc') :
    (∀ p ∈ ps, (a.coefficientsOf p.1).length ≤ acc.length) ∧ acc'.length = acc.length ∧
      ∀ k, acc'.getD k 0
        = acc.getD k 0 + (ps.map fun p => p.2 • (a.coefficientsOf p.1).getD k 0).sum := by
  induction ps generalizing acc with
  | nil =>
    rw [List.foldlM_nil, Outcome.pure_eq, Outcome.ok.injEq] at h
    simp [h]
  | cons p ps ih =>
    obtain ⟨c, hc⟩ := hps p List.mem_cons_self
    obtain ⟨mid, hmid, hrest⟩ := Outcome.bind_eq_ok_iff.mp h
    rw [accumulateDealer_eq hc] at hmid
    obtain ⟨hle, hlen, hget⟩ := accumulate_eq_ok hmid
    obtain ⟨hles, hlens, hgets⟩ := ih (fun q hq => hps q (List.mem_cons_of_mem _ hq)) hrest
    refine ⟨?_, hlens.trans hlen, fun k => ?_⟩
    · intro q hq
      rcases List.mem_cons.mp hq with rfl | hq
      · exact hle
      · exact hlen ▸ hles q hq
    · rw [hgets k, hget k, List.map_cons, List.sum_cons, add_assoc]

lemma exists_foldlM_accumulate_eq_ok {ps : List (UInt32 × S)}
    (hps : ∀ p ∈ ps, ∃ c, a.commitmentOf p.1 = .ok c) (acc : List P)
    (hle : ∀ p ∈ ps, (a.coefficientsOf p.1).length ≤ acc.length) :
    ∃ acc', ps.foldlM a.accumulateDealer acc = .ok acc' := by
  induction ps generalizing acc with
  | nil => exact ⟨acc, rfl⟩
  | cons p ps ih =>
    obtain ⟨c, hc⟩ := hps p List.mem_cons_self
    obtain ⟨mid, hmid⟩ := exists_accumulate_eq_ok p.2 (hle p List.mem_cons_self)
    obtain ⟨-, hlen, -⟩ := accumulate_eq_ok hmid
    obtain ⟨acc', hacc'⟩ := ih (fun q hq => hps q (List.mem_cons_of_mem _ hq)) mid
      fun q hq => hlen ▸ hle q (List.mem_cons_of_mem _ hq)
    exact ⟨acc', by rw [List.foldlM_cons, accumulateDealer_eq hc, hmid, Outcome.ok_bind, hacc']⟩

end Loop

end Aggregator

/-! ### A complete aggregator -/

variable {j : UInt32} {dealerSet : List UInt32} {a : Aggregator P S}

/-- What a complete aggregator finds for a dealer of its set. -/
lemma Inv.lookup (h : Inv j dealerSet a)
    (hcomplete : a.subshares.length = a.dealerSet.length) {d : UInt32} (hd : d ∈ a.dealerSet) :
    (∃ c, a.commitmentOf d = .ok c ∧ c.threshold = a.newThreshold) ∧
      a.subshareOf d = .ok (a.valueOf d) ∧
      Sharing.IsShare (generator : P) (a.coefficientsOf d) (fromU32 j) (a.valueOf d) := by
  obtain ⟨received, hr⟩ := h.holds
  obtain ⟨r, hrm, rfl⟩ := List.mem_map.mp ((hr.perm_dealerSet hcomplete).mem_iff.mpr hd)
  obtain ⟨hvalue, hcommit⟩ := hr.find hrm
  refine ⟨⟨r.1, hcommit, ?_⟩, ?_, ?_⟩
  · obtain ⟨r₀, rest, rfl⟩ := List.exists_cons_of_ne_nil (List.ne_nil_of_mem hrm)
    rw [hr.threshold r hrm r₀ List.mem_cons_self, Aggregator.newThreshold, hr.commitments_eq]
    rfl
  · rw [Aggregator.valueOf, hvalue]
  · rw [Aggregator.coefficientsOf, Aggregator.valueOf, hvalue, hcommit, ← h.playerIndex_eq]
    exact hr.share r hrm

lemma Inv.commitments_ne_nil (h : Inv j dealerSet a)
    (hcomplete : a.subshares.length = a.dealerSet.length) :
    ∃ first, a.commitments.head? = some first ∧ first.threshold = a.newThreshold := by
  have hne : a.commitments ≠ [] := by
    obtain ⟨received, hr⟩ := h.holds
    rw [hr.subshares_eq, List.length_map] at hcomplete
    rw [hr.commitments_eq]
    intro hnil
    rw [List.map_eq_nil_iff] at hnil
    rw [hnil, List.length_nil] at hcomplete
    exact h.validIndices.ne_nil (List.length_eq_zero_iff.mp hcomplete.symm)
  obtain ⟨first, rest, hcs⟩ := List.exists_cons_of_ne_nil hne
  refine ⟨first, by rw [hcs, List.head?_cons], ?_⟩
  rw [Aggregator.newThreshold, hcs]
  rfl

section Injective

variable (hinj : Function.Injective (fromU32 : UInt32 → S))
include hinj

lemma Inv.lagrange_eq_ok_iff (h : Inv j dealerSet a) {lambdas : List S} :
    a.lagrange = .ok lambdas ↔ a.subshares.length = a.dealerSet.length ∧
      lambdas = a.dealerSet.map (lagrangeCoeff a.dealerSet) := by
  have hguard : a.isComplete ≠ false ↔ a.subshares.length = a.dealerSet.length := by
    simp [Aggregator.isComplete]
  simp only [Aggregator.lagrange, Outcome.bind_eq_ok_iff, Outcome.refuse_eq_ok_iff,
    computeLagrangeCoefficients_eq_ok_iff hinj]
  constructor
  · rintro ⟨_, hc, -, hl⟩
    exact ⟨hguard.mp hc, hl⟩
  · rintro ⟨hc, hl⟩
    exact ⟨(), hguard.mpr hc, h.validIndices, hl⟩

omit hinj in
/-- What the loop leaves of a zero accumulator as long as the threshold is the combination. -/
lemma Aggregator.eq_combination {coefficients : List P}
    (hlen : coefficients.length = (List.replicate a.newThreshold.toNat (0 : P)).length)
    (hget : ∀ k, coefficients.getD k 0 = (List.replicate a.newThreshold.toNat (0 : P)).getD k 0 +
      ((a.dealerSet.map fun d => (d, (lagrangeCoeff a.dealerSet d : S))).map fun p =>
        p.2 • (a.coefficientsOf p.1).getD k 0).sum) :
    coefficients = a.combination := by
  rw [List.length_replicate] at hlen
  refine List.ext_getElem (by rw [hlen, combination, Horner.length_combine]) fun k hk hk' => ?_
  have hk0 : k < a.newThreshold.toNat := hlen ▸ hk
  have hgetk := hget k
  rw [List.getD_eq_getElem _ _ hk, List.getD_eq_getElem _ _ (by simpa using hk0),
    List.getElem_replicate, zero_add, List.map_map] at hgetk
  rw [hgetk, ← List.getD_eq_getElem _ 0 hk', combination, Horner.getD_combine _ _ _ _ hk0]
  rfl

/-- **The polynomial of a complete aggregator is the combination of the commitments**, and
deriving it fails only when one of them is longer than the common threshold. -/
theorem Inv.polynomial_eq_ok_iff (h : Inv j dealerSet a) {p : SharePolynomial P} :
    a.polynomial = .ok p ↔ a.subshares.length = a.dealerSet.length ∧
      (∀ d ∈ a.dealerSet, (a.coefficientsOf d).length ≤ a.newThreshold.toNat) ∧
      p.coefficients = a.combination := by
  have hlook : a.subshares.length = a.dealerSet.length →
      ∀ q ∈ a.dealerSet.map fun d => (d, (lagrangeCoeff a.dealerSet d : S)),
        ∃ c, a.commitmentOf q.1 = .ok c := by
    intro hc q hq
    obtain ⟨d, hd, rfl⟩ := List.mem_map.mp hq
    obtain ⟨⟨c, hcd, -⟩, -⟩ := h.lookup hc hd
    exact ⟨c, hcd⟩
  simp only [Aggregator.polynomial, Outcome.bind_eq_ok_iff, h.lagrange_eq_ok_iff hinj]
  constructor
  · rintro ⟨_, ⟨hc, rfl⟩, first, hfirst, coefficients, hfold, hp⟩
    obtain ⟨first', hfirst', hthr⟩ := h.commitments_ne_nil hc
    rw [Outcome.expectSome_eq_ok_iff, hfirst', Option.some.injEq] at hfirst
    rw [zip_map_self, ← hfirst, hthr] at hfold
    obtain ⟨hle, hlen, hget⟩ := Aggregator.foldlM_accumulate_eq_ok (hlook hc) hfold
    refine ⟨hc, fun d hd => ?_, ?_⟩
    · simpa using hle _ (List.mem_map_of_mem hd)
    · rw [← Outcome.ok.inj hp]
      exact Aggregator.eq_combination hlen hget
  · rintro ⟨hc, hle, hp⟩
    obtain ⟨first, hfirst, hthr⟩ := h.commitments_ne_nil hc
    -- the accumulator is as long as the threshold, so no commitment overruns it
    obtain ⟨coefficients, hfold⟩ := Aggregator.exists_foldlM_accumulate_eq_ok (hlook hc)
      (List.replicate a.newThreshold.toNat 0) (by
        intro q hq
        obtain ⟨d, hd, rfl⟩ := List.mem_map.mp hq
        simpa using hle d hd)
    obtain ⟨-, hlen, hget⟩ := Aggregator.foldlM_accumulate_eq_ok (hlook hc) hfold
    refine ⟨_, ⟨hc, rfl⟩, first, Outcome.expectSome_eq_ok_iff.mpr hfirst, coefficients, ?_, ?_⟩
    · rw [zip_map_self, hthr]
      exact hfold
    · rw [Aggregator.eq_combination hlen hget, ← hp]

/-- The share of a complete aggregator is the combination of the values. -/
theorem Inv.aggregate_eq (h : Inv j dealerSet a)
    (hcomplete : a.subshares.length = a.dealerSet.length) :
    a.aggregate
      = .ok (a.dealerSet.map fun d => lagrangeCoeff a.dealerSet d * a.valueOf d).sum := by
  have hstep : ∀ p ∈ a.dealerSet.zip (a.dealerSet.map (lagrangeCoeff a.dealerSet)),
      ∀ share : S, (do return share + p.2 * (← a.subshareOf p.1) : Outcome Error S)
        = .ok (share + p.2 * a.valueOf p.1) := by
    intro p hp share
    obtain ⟨-, hvalue, -⟩ := h.lookup hcomplete (List.of_mem_zip hp).1
    rw [hvalue]
    rfl
  rw [Aggregator.aggregate, (h.lagrange_eq_ok_iff hinj).mpr ⟨hcomplete, rfl⟩, Outcome.ok_bind,
    Outcome.foldlM_eq_ok_foldl hstep, zip_map_self, List.foldl_map, List.sum_eq_foldl,
    List.foldl_map]

/-- **When a player finishes, and with what.**  The share it computes always lies on the
polynomial, so the last check of `finalize` never fails. -/
theorem Inv.finalize_eq_ok_iff (h : Inv j dealerSet a) {key : P} {share : S}
    {p : SharePolynomial P} :
    a.finalize key = .ok (share, p) ↔ a.subshares.length = a.dealerSet.length ∧
      (∀ d ∈ a.dealerSet, (a.coefficientsOf d).length ≤ a.newThreshold.toNat) ∧
      p.coefficients = a.combination ∧ p.coefficients.head? = some key ∧
      share = (a.dealerSet.map fun d => lagrangeCoeff a.dealerSet d * a.valueOf d).sum := by
  -- values and coefficients are combined with the same weights
  have hvalid : ∀ q : SharePolynomial P, a.subshares.length = a.dealerSet.length →
      (∀ d ∈ a.dealerSet, (a.coefficientsOf d).length ≤ a.newThreshold.toNat) →
      q.coefficients = a.combination →
      q.verifyShare a.playerIndex
        (a.dealerSet.map fun d => lagrangeCoeff a.dealerSet d * a.valueOf d).sum = .ok true := by
    intro q hc hle hq
    rw [h.playerIndex_eq, SharePolynomial.verifyShare_eq h.player_ne_zero, hq,
      Outcome.ok.injEq, decide_eq_true_eq]
    exact Sharing.IsShare.combine hle fun d hd => (h.lookup hc hd).2.2
  simp only [Aggregator.finalize, Outcome.bind_eq_ok_iff, Outcome.refuse_eq_ok_iff,
    h.polynomial_eq_ok_iff hinj, SharePolynomial.groupKey, Outcome.expectSome_eq_ok_iff,
    not_not, Outcome.ok.injEq, Prod.mk.injEq]
  constructor
  · rintro ⟨q, ⟨hc, hle, hq⟩, _, hkey, _, rfl, share', hshare', _, -, _, -, rfl, rfl⟩
    rw [h.aggregate_eq hinj hc, Outcome.ok.injEq] at hshare'
    exact ⟨hc, hle, hq, hkey, hshare'.symm⟩
  · rintro ⟨hc, hle, hp, hkey, rfl⟩
    exact ⟨p, ⟨hc, hle, hp⟩, key, hkey, (), rfl, _, h.aggregate_eq hinj hc, true,
      hvalid p hc hle hp, (), by simp, rfl, rfl⟩

/-- The share of a finished player lies on its polynomial. -/
theorem Inv.isShare_of_finalize (h : Inv j dealerSet a) {key : P} {share : S}
    {p : SharePolynomial P} (hfin : a.finalize key = .ok (share, p)) :
    Sharing.IsShare (generator : P) p.coefficients (fromU32 j) share := by
  obtain ⟨hc, hle, hp, -, rfl⟩ := (h.finalize_eq_ok_iff hinj).mp hfin
  rw [hp]
  exact Sharing.IsShare.combine hle fun d hd => (h.lookup hc hd).2.2

end Injective

end Frostito.Reshare
