import Frostito.Nested.Interleaved
import Frostito.Reshare.Aggregator

/-!
# The three sharers

Key generation, resharing and the split of an evaluation share a scalar in the same way: the
coefficients of a polynomial, of which the constant term is the secret, are drawn, and a
player receives the value at its index.  Their evaluations, written out separately and by two
schemes, all compute the value of the polynomial, in the scalars and in the exponent, and the
threshold is exact: one player less than the threshold learns nothing about the secret.
-/

namespace Frostito

variable {S P : Type} [CurveScalar S] [CurvePoint P S]

/-! ### The evaluations -/

/-- `f(x) = Σ_k c_k · x^k`. -/
def polynomialAt (coefficients : List S) (x : S) : S :=
  ∑ k : Fin coefficients.length, coefficients[k] * x ^ (k : ℕ)

omit [CurvePoint P S] in
lemma horner_eq_polynomialAt (x : S) (cs : List S) : Horner.horner x cs = polynomialAt cs x := by
  rw [Horner.horner_eq_sum x le_rfl, Finset.sum_range, polynomialAt]
  refine Finset.sum_congr rfl fun k _ => ?_
  rw [List.getD_eq_getElem cs 0 k.isLt, smul_eq_mul, mul_comm]
  rfl

/-- The committed coefficients evaluate to the multiple of the generator. -/
lemma horner_committed (x : S) (cs : List S) :
    Horner.horner x (cs.map fun a => a • (generator : P)) = polynomialAt cs x • generator := by
  rw [Horner.horner_map_smul, horner_eq_polynomialAt]

/-- In a group of prime order the share of a committed polynomial is unique. -/
lemma isShare_committed_iff [PrimeOrder P] {x s : S} {cs : List S} :
    Sharing.IsShare (generator : P) (cs.map fun a => a • generator) x s ↔
      s = polynomialAt cs x := by
  rw [Sharing.IsShare, horner_committed]
  exact smul_generator_injective.eq_iff

lemma DealerCommitment.coefficients_of_fromPolynomial {i : UInt32} {cs : List S}
    {c : DealerCommitment P} (h : DealerCommitment.fromPolynomial i cs = .ok c) :
    c.coefficients = cs.map fun a => a • generator := by
  simp only [fromPolynomial, Outcome.bind_eq_ok_iff, Outcome.refuse_eq_ok_iff] at h
  obtain ⟨-, -, -, -, h⟩ := h
  split at h
  · rw [← Outcome.ok.inj h]
  · exact absurd h (by simp)

/-- **All evaluations of a polynomial agree, and Feldman verification is exact.** -/
theorem evaluations_agree [PrimeOrder P] (coefficients : List S) :
    (∀ j : UInt32, j ≠ 0 →
      -- the scalar evaluations
      (∀ d : Dkg.Dealer P S, d.index ≠ 0 → d.polynomial = coefficients →
        d.generateSubshare j = .ok ⟨d.index, j, polynomialAt coefficients (fromU32 j)⟩) ∧
      (∀ d : Reshare.Dealer P S, d.index ≠ 0 → d.polynomial = coefficients →
        d.generateSubshare j = .ok ⟨d.index, j, polynomialAt coefficients (fromU32 j)⟩) ∧
      (∀ (evaluation : S) (innerN innerT : UInt32) (rng : Rng S), j ≤ innerN →
        coefficients = evaluation :: rng.take (innerT.toNat - 1) →
        ∃ (shares : List (UInt32 × S)) (c : DealerCommitment P) (rng' : Rng S),
          splitEvaluationForInner evaluation innerN innerT rng = .ok ((shares, c), rng') ∧
          ∀ y, (j, y) ∈ shares ↔ y = polynomialAt coefficients (fromU32 j)) ∧
      (∀ share : InnerShare S, share.coefficientShares = coefficients →
        share.evalAt j = polynomialAt coefficients (fromU32 j)) ∧
      -- the evaluations in the exponent
      (∀ c : DealerCommitment P, c.coefficients = coefficients.map (fun a => a • generator) →
        c.evaluateAt j = .ok (polynomialAt coefficients (fromU32 j) • (generator : P))) ∧
      (∀ p : Reshare.SharePolynomial P, p.coefficients = coefficients.map (fun a => a • generator) →
        p.evaluateAt j = .ok (polynomialAt coefficients (fromU32 j) • (generator : P)))) ∧
    -- the commitment to a polynomial accepts its values and nothing else
    (∀ i : UInt32, i ≠ 0 → coefficients ≠ [] → coefficients.length < 2 ^ 58 →
      ∃ c : DealerCommitment P, DealerCommitment.fromPolynomial i coefficients = .ok c) ∧
    (∀ (i : UInt32) (c : DealerCommitment P),
      DealerCommitment.fromPolynomial i coefficients = .ok c →
      ∀ (j : UInt32) (s : S), c.verifySubshare j s = true ↔
        j ≠ 0 ∧ s = polynomialAt coefficients (fromU32 j)) ∧
    ∀ p : Reshare.SharePolynomial P, p.coefficients = coefficients.map (fun a => a • generator) →
      ∀ (j : UInt32) (s : S), p.verifyShare j s
        = .ok (decide (j ≠ 0 ∧ s = polynomialAt coefficients (fromU32 j))) := by
  refine ⟨fun j hj => ⟨?_, ?_, ?_, ?_, ?_, ?_⟩, ?_, ?_, ?_⟩
  · rintro d hd rfl
    rw [Dkg.Dealer.generateSubshare_eq_ok hd hj, horner_eq_polynomialAt]
  · rintro d hd rfl
    rw [Reshare.Dealer.generateSubshare_eq_ok hd hj, horner_eq_polynomialAt]
  · rintro evaluation innerN innerT rng hjn rfl
    obtain ⟨c, -, hsplit⟩ :=
      splitEvaluationForInner_eq (P := P) evaluation innerN innerT rng
    refine ⟨_, c, _, hsplit, fun y => ?_⟩
    have hmem : j ∈ participants innerN := mem_participants.mpr ⟨hj, hjn⟩
    simp [hmem, horner_eq_polynomialAt, eq_comm]
  · rintro share rfl
    rw [InnerShare.evalAt, evalPowers_eq_horner, horner_eq_polynomialAt]
  · intro c hc
    rw [DealerCommitment.evaluateAt_of_ne_zero c hj, hc, horner_committed]
  · intro p hp
    rw [Reshare.SharePolynomial.evaluateAt, Outcome.refuse_of_neg hj, Outcome.ok_bind, hp,
      horner_committed]
  · intro i hi hne hlen
    obtain ⟨hfits, hc⟩ := DealerCommitment.fromPolynomial_eq_ok (P := P) hi hne hlen
    exact ⟨_, hc⟩
  · intro i c hc j s
    rw [DealerCommitment.verifySubshare_iff, DealerCommitment.coefficients_of_fromPolynomial hc,
      isShare_committed_iff]
  · intro p hp j s
    by_cases hj : j = 0
    · simp [Reshare.SharePolynomial.verifyShare, hj]
    · rw [Reshare.SharePolynomial.verifyShare_eq hj, hp]
      simp [isShare_committed_iff, hj]

open Reference in
theorem evaluations_agree_two : ∃ c : DealerCommitment Residue,
    DealerCommitment.fromPolynomial 3 [((4 : ℕ) : Residue), ((9 : ℕ) : Residue)] = .ok c ∧
    ∀ (j : UInt32) (s : Residue), c.verifySubshare j s = true ↔
      j ≠ 0 ∧ s = polynomialAt [((4 : ℕ) : Residue), ((9 : ℕ) : Residue)] (fromU32 j) := by
  obtain ⟨-, hcommit, hverify, -⟩ :=
    evaluations_agree (P := Residue) [((4 : ℕ) : Residue), ((9 : ℕ) : Residue)]
  obtain ⟨c, hc⟩ := hcommit 3 (by decide) (List.cons_ne_nil _ _) (by decide)
  exact ⟨c, hc, hverify 3 c hc⟩

/-! ### The threshold -/

/-- Sub-shares of distinct players. -/
structure Observation (Player : UInt32 → Prop) (observed : List (UInt32 × S)) : Prop where
  nodup : (observed.map Prod.fst).Nodup
  player : ∀ p ∈ observed, Player p.1

/-- The threshold `t` of a sharer that draws `draws` coefficients is exact.  `Deals rng secret
observed` says that a run with the generator `rng` shares `secret` and sends the observed
players the observed values. -/
structure ExactThreshold (Player : UInt32 → Prop) (t draws : ℕ)
    (Deals : Rng S → S → List (UInt32 × S) → Prop) : Prop where
  /-- One sub-share less leaves exactly one choice of the draws to every secret. -/
  existsUnique : ∀ observed, Observation Player observed → observed.length + 1 = t →
    ∀ (secret : S) (rest : Rng S),
      ∃! drawn : List S, drawn.length = draws ∧ Deals (drawn ++ₛ rest) secret observed
  /-- As many sub-shares as the threshold determine the secret. -/
  determined : ∀ observed, Observation Player observed → observed.length = t →
    ∀ (secret secret' : S) (rng rng' : Rng S),
      Deals rng secret observed → Deals rng' secret' observed → secret = secret'

/-- A run of `dkg::Dealer::new` with this secret and these sub-shares of the observed
players. -/
def Dkg.Dealer.Shares (P : Type) [CurvePoint P S] (index threshold : UInt32) (rng : Rng S)
    (secret : S) (observed : List (UInt32 × S)) : Prop :=
  ∃ (d : Dkg.Dealer P S) (rng' : Rng S), Dkg.Dealer.new index threshold rng = .ok (d, rng') ∧
    d.polynomial.head? = some secret ∧
    ∀ p ∈ observed, d.generateSubshare p.1 = .ok ⟨index, p.1, p.2⟩

/-- A run of `reshare::Dealer::new` on this share with these sub-shares of the observed
players. -/
def Reshare.Dealer.Shares (P : Type) [CurvePoint P S] (index threshold : UInt32) (rng : Rng S)
    (share : S) (observed : List (UInt32 × S)) : Prop :=
  ∃ (d : Reshare.Dealer P S) (rng' : Rng S),
    Reshare.Dealer.new index share threshold rng = .ok (d, rng') ∧
    d.polynomial.head? = some share ∧
    ∀ p ∈ observed, d.generateSubshare p.1 = .ok ⟨index, p.1, p.2⟩

/-- A split of this evaluation with these pieces of the observed holders. -/
def SplitShares (P : Type) [CurvePoint P S] (innerN innerT : UInt32) (rng : Rng S)
    (evaluation : S) (observed : List (UInt32 × S)) : Prop :=
  ∃ (shares : List (UInt32 × S)) (c : DealerCommitment P) (rng' : Rng S),
    splitEvaluationForInner evaluation innerN innerT rng = .ok ((shares, c), rng') ∧
    c.coefficients.head? = some (evaluation • generator) ∧
    ∀ p ∈ observed, p ∈ shares

section Shares

variable {observed : List (UInt32 × S)}

/-- A run of `dkg::Dealer::new` in terms of the coefficients drawn. -/
lemma Dkg.Dealer.shares_iff {index threshold : UInt32} (hi : index ≠ 0) (ht : threshold ≠ 0)
    (hplayer : ∀ p ∈ observed, p.1 ≠ 0) (rng : Rng S) (secret : S) :
    Dkg.Dealer.Shares P index threshold rng secret observed ↔
      (rng.take threshold.toNat).head? = some secret ∧
      ∀ p ∈ observed, Horner.horner (fromU32 p.1 : S) (rng.take threshold.toNat) = p.2 := by
  obtain ⟨d, hnew, -, hindex, hpoly⟩ := Dkg.Dealer.new_eq_ok (P := P) hi ht rng
  have hvalue : ∀ p ∈ observed, d.generateSubshare p.1 = .ok ⟨index, p.1, p.2⟩ ↔
      Horner.horner (fromU32 p.1 : S) (rng.take threshold.toNat) = p.2 := by
    intro p hp
    rw [Dkg.Dealer.generateSubshare_eq_ok (hindex ▸ hi) (hplayer p hp), hpoly, hindex]
    simp
  rw [Dkg.Dealer.Shares, hnew]
  constructor
  · rintro ⟨d', rng', hd', hhead, hobserved⟩
    obtain ⟨rfl, -⟩ := Prod.mk.inj (Outcome.ok.inj hd')
    exact ⟨hpoly ▸ hhead, fun p hp => (hvalue p hp).mp (hobserved p hp)⟩
  · rintro ⟨hhead, hobserved⟩
    exact ⟨d, _, rfl, hpoly.symm ▸ hhead, fun p hp => (hvalue p hp).mpr (hobserved p hp)⟩

/-- A run of `reshare::Dealer::new` in terms of the coefficients drawn. -/
lemma Reshare.Dealer.shares_iff {index threshold : UInt32} (hi : index ≠ 0) (ht : threshold ≠ 0)
    (hplayer : ∀ p ∈ observed, p.1 ≠ 0) (rng : Rng S) (share : S) :
    Reshare.Dealer.Shares P index threshold rng share observed ↔
      ∀ p ∈ observed,
        Horner.horner (fromU32 p.1 : S) (share :: rng.take (threshold.toNat - 1)) = p.2 := by
  obtain ⟨d, rng', hnew, -⟩ := Reshare.Dealer.new_eq_ok (P := P) hi ht share rng
  obtain ⟨hindex, hpoly⟩ := Reshare.Dealer.polynomial_of_new hnew
  have hvalue : ∀ p ∈ observed, d.generateSubshare p.1 = .ok ⟨index, p.1, p.2⟩ ↔
      Horner.horner (fromU32 p.1 : S) (share :: rng.take (threshold.toNat - 1)) = p.2 := by
    intro p hp
    rw [Reshare.Dealer.generateSubshare_eq_ok (hindex ▸ hi) (hplayer p hp), hpoly, hindex]
    simp
  rw [Reshare.Dealer.Shares, hnew]
  constructor
  · rintro ⟨d', rng'', hd', -, hobserved⟩ p hp
    obtain ⟨rfl, -⟩ := Prod.mk.inj (Outcome.ok.inj hd')
    exact (hvalue p hp).mp (hobserved p hp)
  · intro hobserved
    exact ⟨d, _, rfl, by rw [hpoly, List.head?_cons],
      fun p hp => (hvalue p hp).mpr (hobserved p hp)⟩

/-- A split in terms of the coefficients drawn. -/
lemma splitShares_iff {innerN : UInt32} (innerT : UInt32)
    (hplayer : ∀ p ∈ observed, p.1 ∈ participants innerN) (rng : Rng S) (evaluation : S) :
    SplitShares P innerN innerT rng evaluation observed ↔
      ∀ p ∈ observed,
        Horner.horner (fromU32 p.1 : S) (evaluation :: rng.take (innerT.toNat - 1)) = p.2 := by
  obtain ⟨c, hc, hsplit⟩ := splitEvaluationForInner_eq (P := P) evaluation innerN innerT rng
  have hvalue : ∀ p ∈ observed, p ∈ ((participants innerN).map fun k =>
      (k, Horner.horner (fromU32 k : S) (evaluation :: rng.take (innerT.toNat - 1)))) ↔
      Horner.horner (fromU32 p.1 : S) (evaluation :: rng.take (innerT.toNat - 1)) = p.2 := by
    rintro ⟨j, y⟩ hp
    have hj : j ∈ participants innerN := hplayer (j, y) hp
    simp [hj]
  rw [SplitShares, hsplit]
  constructor
  · rintro ⟨shares, c', rng', h, -, hobserved⟩ p hp
    obtain ⟨rfl, -⟩ := Prod.mk.inj (Prod.mk.inj (Outcome.ok.inj h)).1
    exact (hvalue p hp).mp (hobserved p hp)
  · intro hobserved
    exact ⟨_, c, _, rfl, by rw [hc]; rfl, fun p hp => (hvalue p hp).mpr (hobserved p hp)⟩

end Shares

/-! ### What the observed sub-shares leave open -/

/-- Draws in front of a generator are drawn first. -/
lemma take_drawn_append {α : Type} {drawn : List α} {n : ℕ} (h : drawn.length = n)
    (rest : Stream' α) :
    (drawn ++ₛ rest).take n = drawn := by
  rw [Stream'.take_append_of_le_length _ _ _ h.ge, ← h, List.take_length]

section Exact

variable (hinj : Function.Injective (fromU32 : UInt32 → S)) {Player : UInt32 → Prop}
  (hplayer : ∀ j, Player j → j ≠ 0) {t : ℕ} {Deals : Rng S → S → List (UInt32 × S) → Prop}
include hinj

/-- The observed sub-shares as values at distinct points. -/
lemma Observation.nodup_points {observed : List (UInt32 × S)} (h : Observation Player observed) :
    ((observed.map fun p => ((fromU32 p.1 : S), p.2)).map Prod.fst).Nodup := by
  rw [List.map_map]
  have hnodes := h.nodup.map hinj
  rwa [List.map_map] at hnodes

/-- As many values determine the constant term of polynomials with no more coefficients. -/
lemma Observation.headD_eq {observed : List (UInt32 × S)} (h : Observation Player observed)
    {cs cs' : List S} (hlen : cs.length ≤ observed.length) (hlen' : cs'.length ≤ observed.length)
    (hcs : ∀ p ∈ observed, Horner.horner (fromU32 p.1 : S) cs = p.2)
    (hcs' : ∀ p ∈ observed, Horner.horner (fromU32 p.1 : S) cs' = p.2) :
    cs.headD 0 = cs'.headD 0 := by
  refine Interpolation.headD_eq_of_horner_eq (h.nodup_points hinj) (by simpa) (by simpa) ?_
  intro x hx
  rw [List.map_map] at hx
  obtain ⟨p, hp, rfl⟩ := List.mem_map.mp hx
  exact (hcs p hp).trans (hcs' p hp).symm

include hplayer

lemma Observation.zero_notMem_points {observed : List (UInt32 × S)}
    (h : Observation Player observed) :
    (0 : S) ∉ (observed.map fun p => ((fromU32 p.1 : S), p.2)).map Prod.fst := by
  rw [List.map_map]
  intro h0
  obtain ⟨p, hp, hp0⟩ := List.mem_map.mp h0
  exact hplayer p.1 (h.player p hp) (hinj (hp0.trans fromU32_zero.symm))

/-- A sharer that draws all its coefficients. -/
lemma exactThreshold_of_take (ht : t ≠ 0)
    (hdeals : ∀ rng secret observed, Observation Player observed →
      (Deals rng secret observed ↔ (rng.take t).head? = some secret ∧
        ∀ p ∈ observed, Horner.horner (fromU32 p.1 : S) (rng.take t) = p.2)) :
    ExactThreshold Player t t Deals where
  existsUnique observed hobserved hlen secret rest := by
    -- the secret is one more value, at zero
    have hpoints : (((0, secret) :: observed.map fun p => ((fromU32 p.1 : S), p.2)).map
        Prod.fst).Nodup := List.nodup_cons.mpr
      ⟨hobserved.zero_notMem_points hinj hplayer, hobserved.nodup_points hinj⟩
    refine (existsUnique_congr fun drawn => ?_).mpr (Interpolation.existsUnique_horner hpoints)
    rw [List.length_cons, List.length_map, hlen]
    refine and_congr_right fun hdrawn => ?_
    rw [hdeals _ _ _ hobserved, take_drawn_append hdrawn, List.forall_mem_cons,
      List.forall_mem_map, Horner.horner_zero]
    refine and_congr_left fun _ => ?_
    obtain ⟨c, cs, rfl⟩ := List.exists_cons_of_length_pos (hdrawn ▸ Nat.pos_of_ne_zero ht)
    simp
  determined observed hobserved hlen secret secret' rng rng' h h' := by
    rw [hdeals _ _ _ hobserved] at h h'
    have hhead := hobserved.headD_eq hinj (by simp [hlen]) (by simp [hlen]) h.2 h'.2
    simpa [List.headD_eq_head?_getD, h.1, h'.1] using hhead

/-- A sharer that is given the constant term and draws the other coefficients. -/
lemma exactThreshold_of_cons (ht : t ≠ 0)
    (hdeals : ∀ rng secret observed, Observation Player observed →
      (Deals rng secret observed ↔
        ∀ p ∈ observed, Horner.horner (fromU32 p.1 : S) (secret :: rng.take (t - 1)) = p.2)) :
    ExactThreshold Player t (t - 1) Deals where
  existsUnique observed hobserved hlen secret rest := by
    refine (existsUnique_congr fun drawn => ?_).mpr (Interpolation.existsUnique_horner_cons
      (hobserved.nodup_points hinj) (hobserved.zero_notMem_points hinj hplayer) secret)
    rw [List.length_map, ← hlen, Nat.add_sub_cancel]
    refine and_congr_right fun hdrawn => ?_
    rw [hdeals _ _ _ hobserved, ← hlen, Nat.add_sub_cancel, take_drawn_append hdrawn,
      List.forall_mem_map]
  determined observed hobserved hlen secret secret' rng rng' h h' := by
    rw [hdeals _ _ _ hobserved] at h h'
    have hcount : ∀ (a : S) (r : Rng S), (a :: r.take (t - 1)).length ≤ observed.length := by
      intro a r
      rw [List.length_cons, Stream'.length_take]
      omega
    exact hobserved.headD_eq hinj (hcount _ _) (hcount _ _) h h'

end Exact

/-- **The sharing threshold is exact**, for each of the three sharers. -/
theorem sharing_threshold_exact [PrimeOrder P] {threshold : UInt32} (ht : threshold ≠ 0) :
    (∀ index : UInt32, index ≠ 0 →
      ExactThreshold (· ≠ 0) threshold.toNat threshold.toNat
        (Dkg.Dealer.Shares P index threshold)) ∧
    (∀ index : UInt32, index ≠ 0 →
      ExactThreshold (· ≠ 0) threshold.toNat (threshold.toNat - 1)
        (Reshare.Dealer.Shares P index threshold)) ∧
    ∀ innerN : UInt32,
      ExactThreshold (· ∈ participants innerN) threshold.toNat (threshold.toNat - 1)
        (SplitShares P innerN threshold) := by
  have hinj := fromU32_injective P
  have ht' := toNat_ne_zero_iff.mpr ht
  refine ⟨fun index hi => ?_, fun index hi => ?_, fun innerN => ?_⟩
  · exact exactThreshold_of_take hinj (fun _ => id) ht' fun rng secret observed hobserved =>
      Dkg.Dealer.shares_iff hi ht hobserved.player rng secret
  · exact exactThreshold_of_cons hinj (fun _ => id) ht' fun rng secret observed hobserved =>
      Reshare.Dealer.shares_iff hi ht hobserved.player rng secret
  · exact exactThreshold_of_cons hinj (fun _ hj => (mem_participants.mp hj).1) ht'
      fun rng secret observed hobserved =>
        splitShares_iff threshold hobserved.player rng secret

open Reference in
theorem sharing_threshold_exact_two : ∃! drawn : List Residue, drawn.length = 2 ∧
    Dkg.Dealer.Shares Residue 1 2 (drawn ++ₛ fun n => (n : Residue)) ((7 : ℕ) : Residue)
      [(3, ((5 : ℕ) : Residue))] :=
  ((sharing_threshold_exact (P := Residue) (show (2 : UInt32) ≠ 0 by decide)).1 1
    (by decide)).existsUnique [(3, ((5 : ℕ) : Residue))] ⟨by simp, by simp⟩ rfl _ _

end Frostito
