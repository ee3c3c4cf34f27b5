import Frostito.Lib.Batching
import Frostito.Reference.Padded

/-!
# Batch verification of sub-shares

The randomised check of many sub-shares at once.  Sub-shares are paired with commitments by
the index of the dealer.  The equation that is checked is the weighted sum of the defects of
the single checks, so the batch accepts what all single checks accept, and one choice of the
weights in `q` hides a bad sub-share, however many there are.
-/

namespace Frostito

variable {S P : Type} [CurveScalar S] [CurvePoint P S]

/-- The commitment a sub-share is paired with: the first that names its dealer. -/
def pairedCommitment (commitments : List (DealerCommitment P)) (subshare : SubShare S) :
    Option (DealerCommitment P) :=
  commitments.find? fun c => c.dealerIndex = subshare.dealerIndex

/-- One round of the loop, on the exponent and the point accumulated so far; `none` is the
early `return false`. -/
def batchStep (playerIndex : UInt32) (commitments : List (DealerCommitment P))
    (acc : S × P) (item : SubShare S × S) : Option (S × P) :=
  if item.1.playerIndex ≠ playerIndex then none else
  match pairedCommitment commitments item.1 with
  | none => none
  | some commitment =>
    match commitment.evaluateAt playerIndex with
    | .ok eval => some (acc.1 + item.2 * item.1.value, acc.2 + item.2 • eval)
    | _ => none

/-- Batch verify multiple sub-shares against their commitments. -/
def batchVerifySubshares (playerIndex : UInt32) (subshares : List (SubShare S))
    (commitments : List (DealerCommitment P)) (rng : Rng S) : Bool × Rng S :=
  if subshares.length ≠ commitments.length ∨ subshares = [] then (false, rng) else
  let (weights, rng) := rng.randoms subshares.length
  match (subshares.zip weights).foldlM (batchStep playerIndex commitments) (0, 0) with
  | none => (false, rng)
  | some (lhsExponent, rhs) => (decide (lhsExponent • generator = rhs), rng)

/-! ### One sub-share -/

/-- How far a sub-share is from what its commitment says, in the exponent. -/
def defect (playerIndex : UInt32) (commitments : List (DealerCommitment P))
    (subshare : SubShare S) : P :=
  subshare.value • generator -
    ((pairedCommitment commitments subshare).map fun c =>
      Horner.horner (fromU32 playerIndex : S) c.coefficients).getD 0

variable {j : UInt32} {commitments : List (DealerCommitment P)} {s : SubShare S}

lemma defect_eq_zero_iff (hj : j ≠ 0) {c : DealerCommitment P}
    (hpair : pairedCommitment commitments s = some c) :
    defect j commitments s = 0 ↔ c.verifySubshare j s.value = true := by
  rw [defect, hpair, Option.map_some, Option.getD_some, sub_eq_zero,
    DealerCommitment.verifySubshare_iff, and_iff_right hj, Sharing.IsShare]

omit [CurveScalar S] [CurvePoint P S] in
/-- A dealer that some commitment names has a first commitment that names it. -/
lemma exists_pairedCommitment_iff :
    (∃ c, pairedCommitment commitments s = some c) ↔
      ∃ c ∈ commitments, c.dealerIndex = s.dealerIndex := by
  rw [pairedCommitment, ← Option.isSome_iff_exists, List.find?_isSome]
  simp only [decide_eq_true_eq]

/-- The step adds the weighted defect to the difference of the two sides. -/
lemma batchStep_spec (hj : j ≠ 0) (hplayer : s.playerIndex = j) {c : DealerCommitment P}
    (hpair : pairedCommitment commitments s = some c) (acc : S × P) (w : S) :
    ∃ acc' : S × P, batchStep j commitments acc (s, w) = some acc' ∧
      acc'.1 • generator - acc'.2
        = acc.1 • generator - acc.2 + w • defect j commitments s := by
  refine ⟨(acc.1 + w * s.value,
    acc.2 + w • Horner.horner (fromU32 j : S) c.coefficients), ?_, ?_⟩
  · simp only [batchStep, hplayer, hpair, c.evaluateAt_of_ne_zero hj, ne_eq, not_true_eq_false,
      if_false]
  · rw [defect, hpair, Option.map_some, Option.getD_some, add_smul, smul_sub, mul_smul,
      add_sub_add_comm]

/-- A sub-share of another player, or of a dealer that no commitment names, ends the loop. -/
lemma batchStep_eq_none
    (h : s.playerIndex ≠ j ∨ ∀ c ∈ commitments, c.dealerIndex ≠ s.dealerIndex) (acc : S × P)
    (w : S) : batchStep j commitments acc (s, w) = none := by
  by_cases hplayer : s.playerIndex = j
  · have hunnamed : pairedCommitment commitments s = none := by
      rw [pairedCommitment, List.find?_eq_none]
      intro c hc
      simpa using h.resolve_left (not_not_intro hplayer) c hc
    simp only [batchStep, hplayer, hunnamed, ne_eq, not_true_eq_false, if_false]
  · rw [batchStep, if_pos hplayer]

/-! ### The loop -/

/-- Sub-shares the loop gets through: each is the player's and its dealer has a commitment. -/
def Paired (j : UInt32) (commitments : List (DealerCommitment P)) (s : SubShare S) : Prop :=
  s.playerIndex = j ∧ ∃ c, pairedCommitment commitments s = some c

lemma foldlM_batchStep_spec (hj : j ≠ 0) {subshares : List (SubShare S)}
    (hpaired : ∀ s ∈ subshares, Paired j commitments s) {weights : List S}
    (hlen : weights.length = subshares.length) (acc : S × P) :
    ∃ acc' : S × P,
      (subshares.zip weights).foldlM (batchStep j commitments) acc = some acc' ∧
      acc'.1 • generator - acc'.2 = acc.1 • generator - acc.2 +
        (List.zipWith (fun w s => w • defect j commitments s) weights subshares).sum := by
  induction subshares generalizing weights acc with
  | nil =>
    obtain rfl := List.eq_nil_of_length_eq_zero hlen
    exact ⟨acc, rfl, by simp⟩
  | cons s subshares ih =>
    obtain ⟨w, weights, rfl⟩ := List.exists_cons_of_length_eq_add_one hlen
    obtain ⟨⟨hplayer, c, hpair⟩, hpaired⟩ := List.forall_mem_cons.mp hpaired
    obtain ⟨acc₁, hstep, hdiff₁⟩ := batchStep_spec hj hplayer hpair acc w
    obtain ⟨acc₂, hloop, hdiff₂⟩ := ih hpaired (Nat.succ_injective hlen) acc₁
    refine ⟨acc₂, ?_, ?_⟩
    · rw [List.zip_cons_cons, List.foldlM_cons, hstep]
      exact hloop
    · rw [hdiff₂, hdiff₁, List.zipWith_cons_cons, List.sum_cons, add_assoc]

/-- A loop fails as soon as one of its items makes the step fail in every state. -/
lemma foldlM_eq_none_of_mem {α β : Type} {step : α → β → Option α} {items : List β} {b : β}
    (hb : b ∈ items) (hstep : ∀ a, step a b = none) (a : α) : items.foldlM step a = none := by
  induction items generalizing a with
  | nil => exact absurd hb List.not_mem_nil
  | cons b' items ih =>
    rw [List.foldlM_cons]
    rcases List.mem_cons.mp hb with rfl | hb
    · rw [hstep]
      rfl
    · cases step a b' with
      | none => rfl
      | some a' => exact ih hb a'

/-- What the batch checks of paired sub-shares, on the weights it draws. -/
lemma batchVerifySubshares_iff (hj : j ≠ 0) {subshares : List (SubShare S)}
    (hne : subshares ≠ []) (hlen : subshares.length = commitments.length)
    (hpaired : ∀ s ∈ subshares, Paired j commitments s) (rng : Rng S) :
    (batchVerifySubshares j subshares commitments rng).1 = true ↔
      Batching.Passes (fun i => defect j commitments (subshares.get i)) fun i => rng.get i := by
  obtain ⟨⟨a, b⟩, hloop, hdiff⟩ := foldlM_batchStep_spec hj hpaired
    (Stream'.length_take subshares.length rng) (0, 0)
  have hcheck : ¬(subshares.length ≠ commitments.length ∨ subshares = []) := by
    rintro (h | h)
    · exact h hlen
    · exact hne h
  have hsum : List.zipWith (fun w s => w • defect j commitments s) (rng.take subshares.length)
      subshares = List.ofFn fun i => rng.get i • defect j commitments (subshares.get i) := by
    refine List.ext_getElem (by simp) fun i hi hi' => ?_
    simp
  rw [zero_smul, sub_zero, zero_add, hsum, List.sum_ofFn] at hdiff
  simp only [batchVerifySubshares, if_neg hcheck, Rng.randoms, hloop, decide_eq_true_eq]
  rw [Batching.Passes, ← hdiff, sub_eq_zero]

omit [CurveScalar S] in
/-- A vector of weights is what a generator draws that starts with them. -/
lemma get_ofFn_append {n : ℕ} (w : Fin n → S) (rest : Rng S) :
    (fun i : Fin n => (List.ofFn w ++ₛ rest).get i) = w := by
  funext i
  rw [Stream'.get_append_left i (List.ofFn w) rest (by simp), List.getElem_ofFn]

/-- Inputs the batch refuses whatever it draws. -/
lemma batchVerifySubshares_eq_false {subshares : List (SubShare S)}
    (h : subshares.length ≠ commitments.length ∨ subshares = [] ∨
      ∃ s ∈ subshares, s.playerIndex ≠ j ∨ ∀ c ∈ commitments, c.dealerIndex ≠ s.dealerIndex)
    (rng : Rng S) : (batchVerifySubshares j subshares commitments rng).1 = false := by
  by_cases hcheck : subshares.length ≠ commitments.length ∨ subshares = []
  · rw [batchVerifySubshares, if_pos hcheck]
  · obtain ⟨s, hs, hbad⟩ := (h.resolve_left (not_or.mp hcheck).1).resolve_left
      (not_or.mp hcheck).2
    obtain ⟨i, hi, rfl⟩ := List.getElem_of_mem hs
    -- the sub-share meets some weight, and no accumulated state lets it through
    have hmem : (subshares[i], rng.get i) ∈ subshares.zip (rng.take subshares.length) := by
      rw [List.mem_iff_getElem]
      exact ⟨i, by simpa using hi, by simp⟩
    have hnone := foldlM_eq_none_of_mem hmem (fun acc => batchStep_eq_none hbad acc _)
      ((0, 0) : S × P)
    simp only [batchVerifySubshares, if_neg hcheck, Rng.randoms, hnone]

/-- **Batch verification matches the single checks.** -/
theorem batch_matches_single [PrimeOrder P] (j : UInt32) (subshares : List (SubShare S))
    (commitments : List (DealerCommitment P)) :
    (j ≠ 0 → subshares ≠ [] → subshares.length = commitments.length →
      (∀ s ∈ subshares, s.playerIndex = j) →
      (∀ s ∈ subshares, ∃ c ∈ commitments, c.dealerIndex = s.dealerIndex) →
      ((∀ s ∈ subshares, ∃ c, pairedCommitment commitments s = some c ∧
          c.verifySubshare j s.value = true) →
        ∀ rng, (batchVerifySubshares j subshares commitments rng).1 = true) ∧
      ((∃ s ∈ subshares, ∃ c, pairedCommitment commitments s = some c ∧
          c.verifySubshare j s.value = false) →
        Nat.card (Fin subshares.length → S) = Nat.card P ^ subshares.length ∧
        ∀ rest, Nat.card {w : Fin subshares.length → S //
            (batchVerifySubshares j subshares commitments (List.ofFn w ++ₛ rest)).1 = true}
          = Nat.card P ^ (subshares.length - 1))) ∧
    ((subshares.length ≠ commitments.length ∨ subshares = [] ∨
        (∃ s ∈ subshares, s.playerIndex ≠ j) ∨
        ∃ s ∈ subshares, ∀ c ∈ commitments, c.dealerIndex ≠ s.dealerIndex) →
      ∀ rng, (batchVerifySubshares j subshares commitments rng).1 = false) := by
  have hcard : Nat.card S = Nat.card P := PrimeOrder.card_scalar
  refine ⟨fun hj hne hlen hplayer hnamed => ?_, fun h rng => ?_⟩
  · have hpaired : ∀ s ∈ subshares, Paired j commitments s := fun s hs =>
      ⟨hplayer s hs, exists_pairedCommitment_iff.mpr (hnamed s hs)⟩
    refine ⟨fun hall rng => ?_, fun hbad => ⟨?_, fun rest => ?_⟩⟩
    · rw [batchVerifySubshares_iff hj hne hlen hpaired]
      refine Batching.passes_of_forall_eq_zero (fun i => ?_) _
      obtain ⟨c, hpair, hverify⟩ := hall _ (List.get_mem subshares i)
      exact (defect_eq_zero_iff hj hpair).mpr hverify
    · rw [Nat.card_fun, Nat.card_fin, hcard]
    · obtain ⟨s, hs, c, hpair, hverify⟩ := hbad
      obtain ⟨i, rfl⟩ := List.mem_iff_get.mp hs
      have hdefect : ∃ i, (fun i => defect j commitments (subshares.get i)) i ≠ 0 := by
        refine ⟨i, fun h0 => ?_⟩
        rw [(defect_eq_zero_iff hj hpair).mp h0] at hverify
        exact absurd hverify (by decide)
      have hgen : Function.Bijective fun x : S => x • (generator : P) :=
        ⟨smul_generator_injective, exists_smul_generator_eq⟩
      have hcount := Batching.card_passes hgen hdefect
      rw [Fintype.card_fin, hcard] at hcount
      rw [← hcount]
      refine Nat.card_congr (Equiv.subtypeEquivRight fun w => ?_)
      rw [batchVerifySubshares_iff hj hne hlen hpaired, get_ofFn_append]
  · refine batchVerifySubshares_eq_false ?_ rng
    rcases h with h | h | ⟨s, hs, h⟩ | ⟨s, hs, h⟩
    · exact .inl h
    · exact .inr (.inl h)
    · exact .inr (.inr ⟨s, hs, .inl h⟩)
    · exact .inr (.inr ⟨s, hs, .inr h⟩)

section Two

open Reference

/-- What dealer `i` sends player 1, the value chosen freely. -/
def sentTo1 (i : UInt32) (value : Residue) : SubShare Residue := ⟨i, 1, value⟩

/-- Both commitments are to the constant `5`, in the other order than the sub-shares. -/
def twoCommitments : List (DealerCommitment Residue) :=
  [padded 2 0 fits_zero, padded 1 0 fits_zero]

/-- Nothing but the constant verifies. -/
lemma verifySubshare_padded_zero (i : UInt32) :
    (padded i 0 fits_zero).verifySubshare 1 0 = false := by
  by_contra h
  have hzero := (DealerCommitment.verifySubshare_iff.mp (Bool.not_eq_false _ ▸ h)).2
  have hfive := (DealerCommitment.verifySubshare_iff.mp
    (verifySubshare_padded (i := i) fits_zero (j := 1) (by decide))).2
  have heq : ((0 : ℕ) : Residue) = ((5 : ℕ) : Residue) := by
    rw [Nat.cast_zero]
    exact smul_generator_injective (P := Residue) (hzero.trans hfive.symm)
  have hlt : 5 < Nat.card Residue := by
    rw [Nat.card_zmod]
    exact lt_trans (by norm_num) lt_order
  exact absurd (natCast_inj_of_lt Residue (by omega) hlt heq) (by decide)

lemma forall_mem_two {α : Type} {p : α → Prop} {a b : α} (ha : p a) (hb : p b) :
    ∀ x ∈ [a, b], p x :=
  List.forall_mem_cons.mpr ⟨ha, List.forall_mem_singleton.mpr hb⟩

/-- Good sub-shares pass, a bad one passes with one weight vector in `q`, and a foreign one
with none. -/
theorem batch_matches_single_two :
    (∀ rng, (batchVerifySubshares 1 [sentTo1 1 ((5 : ℕ) : Residue),
      sentTo1 2 ((5 : ℕ) : Residue)] twoCommitments rng).1 = true) ∧
    (∀ rest, Nat.card {w : Fin 2 → Residue // (batchVerifySubshares 1
        [sentTo1 1 ((5 : ℕ) : Residue), sentTo1 2 0] twoCommitments
          (List.ofFn w ++ₛ rest)).1 = true} = Nat.card Residue ^ 1) ∧
    ∀ rng, (batchVerifySubshares 2 [sentTo1 1 ((5 : ℕ) : Residue), sentTo1 2 0]
      twoCommitments rng).1 = false := by
  refine ⟨((batch_matches_single 1 _ twoCommitments).1 (by decide) (List.cons_ne_nil _ _) rfl
      ?_ ?_).1 ?_,
    (((batch_matches_single 1 [sentTo1 1 ((5 : ℕ) : Residue), sentTo1 2 0] twoCommitments).1
      (by decide) (List.cons_ne_nil _ _) rfl ?_ ?_).2 ?_).2,
    (batch_matches_single 2 _ twoCommitments).2
      (.inr (.inr (.inl ⟨_, List.mem_cons_self, by decide⟩)))⟩
  · exact forall_mem_two rfl rfl
  · exact forall_mem_two ⟨_, List.mem_cons_of_mem _ List.mem_cons_self, rfl⟩
      ⟨_, List.mem_cons_self, rfl⟩
  · exact forall_mem_two ⟨_, rfl, verifySubshare_padded fits_zero (by decide)⟩
      ⟨_, rfl, verifySubshare_padded fits_zero (by decide)⟩
  · exact forall_mem_two rfl rfl
  · exact forall_mem_two ⟨_, List.mem_cons_of_mem _ List.mem_cons_self, rfl⟩
      ⟨_, List.mem_cons_self, rfl⟩
  · exact ⟨_, List.mem_cons_of_mem _ List.mem_cons_self, _, rfl, verifySubshare_padded_zero 2⟩

end Two

end Frostito
