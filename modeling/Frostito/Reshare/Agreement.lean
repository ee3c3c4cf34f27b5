import Frostito.Reference.Backend
import Frostito.Reshare.Delivery

/-!
# Two players of one resharing

The commitments a player holds came to it together with the sub-shares, and nothing compares
them with the ones another player received.  Two players that both finish hold polynomials
with one constant term, and they hold one polynomial exactly when what the dealers told them
differently cancels under the Lagrange coefficients of the dealer set.  A single dealer that
equivocates never cancels.
-/

namespace Frostito.Reshare

section Agreement

variable {S P : Type} [CurveScalar S] [CurvePoint P S]

/-- A player that finished: its aggregator was built for the dealer set, received whatever
was delivered to it, and `finalize` returned the share and the polynomial. -/
structure Finished (dealerSet : List UInt32) (key : P) (j : UInt32) (a : Aggregator P S)
    (share : S) (p : SharePolynomial P) : Prop where
  run : ∃ a₀ deliveries, Aggregator.new j dealerSet = .ok a₀ ∧ a = Calls.run deliver a₀ deliveries
  finalize_eq : a.finalize key = .ok (share, p)

namespace Aggregator

/-- The dealers of the set from which two players accepted different commitments. -/
def equivocators (a b : Aggregator P S) : List UInt32 :=
  a.dealerSet.filter fun d => a.coefficientsOf d ≠ b.coefficientsOf d

/-- The two players accepted commitments of one threshold, and what the equivocating dealers
told them differently cancels, coefficient by coefficient. -/
def EquivocationsCancel (a b : Aggregator P S) : Prop :=
  a.newThreshold = b.newThreshold ∧
    ∀ k, ((a.equivocators b).map fun d =>
      (lagrangeCoeff a.dealerSet d : S)
        • ((a.coefficientsOf d).getD k 0 - (b.coefficientsOf d).getD k 0)).sum = 0

/-- Dealers that told both players the same contribute nothing to the differences. -/
lemma sum_equivocators (a b : Aggregator P S) (k : ℕ) :
    ((a.equivocators b).map fun d => (lagrangeCoeff a.dealerSet d : S)
        • ((a.coefficientsOf d).getD k 0 - (b.coefficientsOf d).getD k 0)).sum
      = (a.dealerSet.map fun d => (lagrangeCoeff a.dealerSet d : S)
        • ((a.coefficientsOf d).getD k 0 - (b.coefficientsOf d).getD k 0)).sum := by
  have hsplit := List.sum_map_filter_add_sum_map_filter_not
    (fun d => a.coefficientsOf d ≠ b.coefficientsOf d)
    (fun d => (lagrangeCoeff a.dealerSet d : S)
      • ((a.coefficientsOf d).getD k 0 - (b.coefficientsOf d).getD k 0)) a.dealerSet
  rw [← hsplit, equivocators, left_eq_add]
  refine List.sum_eq_zero fun x hx => ?_
  obtain ⟨d, hd, rfl⟩ := List.mem_map.mp hx
  have hsame : a.coefficientsOf d = b.coefficientsOf d := by
    simpa using (List.mem_filter.mp hd).2
  rw [hsame, sub_self, smul_zero]

/-- Combinations of commitments that do not overrun their thresholds are equal exactly when
the equivocations cancel. -/
lemma combination_eq_iff {a b : Aggregator P S} (hset : a.dealerSet = b.dealerSet)
    (ha : ∀ d ∈ a.dealerSet, (a.coefficientsOf d).length ≤ a.newThreshold.toNat)
    (hb : ∀ d ∈ b.dealerSet, (b.coefficientsOf d).length ≤ b.newThreshold.toNat) :
    a.combination = b.combination ↔ a.EquivocationsCancel b := by
  have hcombine : ∀ hthr : a.newThreshold = b.newThreshold,
      a.combination = b.combination ↔ ∀ k, ((a.equivocators b).map fun d =>
        (lagrangeCoeff a.dealerSet d : S)
          • ((a.coefficientsOf d).getD k 0 - (b.coefficientsOf d).getD k 0)).sum = 0 := by
    intro hthr
    simp only [sum_equivocators]
    rw [combination, combination, ← hset, ← hthr]
    exact Horner.combine_eq_combine_iff _ ha (hset ▸ hthr ▸ hb)
  constructor
  · intro heq
    -- a combination has as many coefficients as the threshold says
    have hlen := congrArg List.length heq
    rw [combination, combination, Horner.length_combine, Horner.length_combine] at hlen
    have hthr := UInt32.toNat_inj.mp hlen
    exact ⟨hthr, (hcombine hthr).mp heq⟩
  · rintro ⟨hthr, hcancel⟩
    exact (hcombine hthr).mpr hcancel

/-- One equivocating dealer does not cancel. -/
theorem not_equivocationsCancel_of_single [PrimeOrder P] {a b : Aggregator P S} {d : UInt32}
    (h0 : 0 ∉ a.dealerSet) (h : a.equivocators b = [d])
    (hlen : (a.coefficientsOf d).length = (b.coefficientsOf d).length) :
    ¬a.EquivocationsCancel b := by
  rintro ⟨-, hcancel⟩
  -- the weight of the one dealer is not zero, so the difference it stands before is
  have hweight : (lagrangeCoeff a.dealerSet d : S) ≠ 0 :=
    lagrangeCoeff_ne_zero (fromU32_injective P) h0 d
  have hmem : d ∈ a.equivocators b := h ▸ List.mem_singleton_self d
  have hne : a.coefficientsOf d ≠ b.coefficientsOf d := by
    simpa using (List.mem_filter.mp hmem).2
  refine hne (List.ext_getElem hlen fun k hk hk' => ?_)
  have hk0 := hcancel k
  rw [h, List.map_singleton, List.sum_singleton] at hk0
  rw [← List.getD_eq_getElem _ 0 hk, ← List.getD_eq_getElem _ 0 hk']
  exact sub_eq_zero.mp ((smul_eq_zero.mp hk0).resolve_left hweight)

end Aggregator

variable {dealerSet : List UInt32} {key : P} {j : UInt32} {a : Aggregator P S} {share : S}
  {p : SharePolynomial P}

lemma Finished.inv (h : Finished dealerSet key j a share p) : Inv j dealerSet a := by
  obtain ⟨a₀, deliveries, hnew, rfl⟩ := h.run
  exact inv_run (inv_new hnew) deliveries

/-- The shares of players that finished with one polynomial combine to the discrete logarithm
of the key. -/
lemma reconstruct_of_finished [PrimeOrder P] (hkey : p.coefficients.head? = some key)
    {players : List UInt32} (hnd : players.Nodup)
    (hmany : p.coefficients.length ≤ players.length) {share : UInt32 → S}
    (hfin : ∀ j ∈ players, ∃ a, Finished dealerSet key j a (share j) p) :
    ∃ secret, reconstruct (players.map fun j => (j, share j)) = .ok secret ∧
      secret • generator = key := by
  have hinj := fromU32_injective P
  obtain ⟨cs, hcs⟩ : ∃ cs, p.coefficients = key :: cs := List.head?_eq_some_iff.mp hkey
  have hindices : ValidIndices players := by
    refine ⟨?_, fun h0 => ?_, hnd⟩
    · rintro rfl
      simp [hcs] at hmany
    · obtain ⟨a, ha⟩ := hfin 0 h0
      exact ha.inv.player_ne_zero rfl
  have hshare : ∀ j ∈ players,
      Sharing.IsShare (generator : P) p.coefficients (fromU32 j) (share j) := by
    intro j hj
    obtain ⟨a, ha⟩ := hfin j hj
    exact ha.inv.isShare_of_finalize hinj ha.finalize_eq
  obtain ⟨secret, hsecret, hsmul⟩ := reconstruct_of_isShare hinj hindices hmany hshare
  exact ⟨secret, hsecret, by rw [hsmul, hcs, List.headD_cons]⟩

/-- **When two players finish with one polynomial.**  They do exactly when the equivocations
of the dealers cancel; and the shares of as many players as a polynomial has coefficients,
if they all finished with that polynomial, combine to the discrete logarithm of the key. -/
theorem polynomial_eq_iff_equivocationsCancel [PrimeOrder P] {j₁ j₂ : UInt32}
    {a₁ a₂ : Aggregator P S} {share₁ share₂ : S} {p₁ p₂ : SharePolynomial P}
    (h₁ : Finished dealerSet key j₁ a₁ share₁ p₁)
    (h₂ : Finished dealerSet key j₂ a₂ share₂ p₂) :
    (p₁ = p₂ ↔ a₁.EquivocationsCancel a₂) ∧
    ∀ (players : List UInt32) (share : UInt32 → S), players.Nodup →
      p₁.coefficients.length ≤ players.length →
      (∀ j ∈ players, ∃ a, Finished dealerSet key j a (share j) p₁) →
      ∃ secret, reconstruct (players.map fun j => (j, share j)) = .ok secret ∧
        secret • generator = key := by
  have hinj := fromU32_injective P
  obtain ⟨-, hle₁, hp₁, hkey, -⟩ := (h₁.inv.finalize_eq_ok_iff hinj).mp h₁.finalize_eq
  obtain ⟨-, hle₂, hp₂, -, -⟩ := (h₂.inv.finalize_eq_ok_iff hinj).mp h₂.finalize_eq
  have hset : a₁.dealerSet = a₂.dealerSet :=
    h₁.inv.dealerSet_eq.trans h₂.inv.dealerSet_eq.symm
  have hcoeffs : p₁ = p₂ ↔ p₁.coefficients = p₂.coefficients := by
    cases p₁
    cases p₂
    rw [SharePolynomial.mk.injEq]
  refine ⟨?_, fun players share hnd hmany hfin => reconstruct_of_finished hkey hnd hmany hfin⟩
  rw [hcoeffs, hp₁, hp₂]
  exact Aggregator.combination_eq_iff hset hle₁ hle₂

end Agreement

/-! ### An equivocating dealer -/

section Equivocation

open Reference

/-- A commitment of the only dealer, of the key `5`. -/
def onlyDealer (slope : ℕ) : DealerCommitment Residue := ⟨1, [((5 : ℕ) : Residue), slope], by simp⟩

/-- The commitment to `5 + x` that it sends player 1. -/
def toFirst : DealerCommitment Residue := onlyDealer 1

/-- The commitment to `5 + 2x` that it sends player 2. -/
def toSecond : DealerCommitment Residue := onlyDealer 2

/-- The aggregator of player `j` after the only dealer delivered. -/
def afterDelivery (j : UInt32) (c : DealerCommitment Residue) (value : Residue) :
    Aggregator Residue Residue :=
  Calls.run deliver ⟨j, [1], [], []⟩ ([1].map (fromDealer j (fun _ => c) fun _ => value))

/-- The polynomial of the only dealer is returned as it was received. -/
lemma finished_afterDelivery {j : UInt32} (hj : j ≠ 0) {c : DealerCommitment Residue}
    {value : Residue} (hindex : c.dealerIndex = 1) (hlen : c.coefficients.length = 2)
    (hkey : c.coefficients.head? = some 5) (hverify : c.verifySubshare j value = true) :
    Finished [1] 5 j (afterDelivery j c value) value ⟨c.coefficients⟩ := by
  have hvalid : ValidIndices [1] := ⟨by simp, by decide, by simp⟩
  have hnew : Aggregator.new j [1] = .ok (⟨j, [1], [], []⟩ : Aggregator Residue Residue) :=
    Aggregator.new_eq_ok_iff.mpr ⟨hj, hvalid, rfl⟩
  have hone : (lagrangeCoeff [1] 1 : Residue) = 1 := by
    simp [lagrangeCoeff, nodes, Interpolation.weight]
  have hcombined : combined (S := Residue) [1] 2 (fun _ => c) = ⟨c.coefficients⟩ := by
    obtain ⟨c₀, c₁, hcs⟩ := List.length_eq_two.mp hlen
    simp [combined, Horner.combine, hcs, hone, List.range_succ]
  have hconsistent : Consistent j [1] 2 (fun _ => c) fun _ => value := by
    refine ⟨?_, ?_, ?_⟩
    all_goals
      intro d hd
      obtain rfl := List.mem_singleton.mp hd
    exacts [hindex, hlen, hverify]
  refine ⟨⟨_, _, hnew, rfl⟩, ?_⟩
  have harrival : ∀ d : UInt32, d ∈ [1] ↔ d ∈ [1] := fun _ => Iff.rfl
  have hkey' : (combined (S := Residue) [1] 2 fun _ => c).coefficients.head? = some 5 := by
    rw [hcombined]
    exact hkey
  have hfin := hconsistent.finalize_eq (fromU32_injective Residue) hnew harrival hkey'
  have hvalue : (([1].insertionSort (· ≤ ·)).map fun d : UInt32 =>
      (lagrangeCoeff ([1].insertionSort (· ≤ ·)) d : Residue) * value).sum = value := by
    simp [hone]
  rwa [hcombined, hvalue] at hfin

lemma finished_toFirst : Finished [1] 5 1 (afterDelivery 1 toFirst 6) 6 ⟨[5, 1]⟩ := by
  have hx : (fromU32 1 : Residue) = 1 := rfl
  have hvalue : Horner.horner (1 : Residue) ([5, 1] : List Residue) = 6 := by
    simp only [Horner.horner_cons, Horner.horner_nil, smul_eq_mul]
    norm_num
  refine finished_afterDelivery (by decide) rfl rfl rfl
    (DealerCommitment.verifySubshare_iff.mpr ⟨by decide, ?_⟩)
  rw [hx, toFirst, ← hvalue]
  exact Sharing.isShare_map_smul 1 [5, 1]

lemma finished_toSecond : Finished [1] 5 2 (afterDelivery 2 toSecond 9) 9 ⟨[5, 2]⟩ := by
  have hx : (fromU32 2 : Residue) = 2 := rfl
  have hvalue : Horner.horner (2 : Residue) ([5, 2] : List Residue) = 9 := by
    simp only [Horner.horner_cons, Horner.horner_nil, smul_eq_mul]
    norm_num
  refine finished_afterDelivery (by decide) rfl rfl rfl
    (DealerCommitment.verifySubshare_iff.mpr ⟨by decide, ?_⟩)
  rw [hx, toSecond, ← hvalue]
  exact Sharing.isShare_map_smul 2 [5, 2]

/-- Two honest players, one dealer, one expected key: both finish, with different
polynomials. -/
theorem finished_with_different_polynomials :
    ¬∀ (j₁ j₂ : UInt32) (a₁ a₂ : Aggregator Residue Residue) (share₁ share₂ : Residue)
      (p₁ p₂ : SharePolynomial Residue), Finished [1] 5 j₁ a₁ share₁ p₁ →
      Finished [1] 5 j₂ a₂ share₂ p₂ → p₁ = p₂ := by
  intro h
  have heq := h 1 2 _ _ _ _ _ _ finished_toFirst finished_toSecond
  rw [SharePolynomial.mk.injEq] at heq
  exact absurd heq (by decide)

/-- The two polynomials differ, so the equivocation does not cancel. -/
theorem not_equivocationsCancel_afterDelivery :
    ¬(afterDelivery 1 toFirst 6).EquivocationsCancel (afterDelivery 2 toSecond 9) := by
  intro hcancel
  have heq := (polynomial_eq_iff_equivocationsCancel finished_toFirst finished_toSecond).1.mpr
    hcancel
  rw [SharePolynomial.mk.injEq] at heq
  exact absurd heq (by decide)

end Equivocation

end Frostito.Reshare
