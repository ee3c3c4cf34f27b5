import Frostito.Dkg.State

/-!
# The dealer of key generation

A dealer draws a random polynomial, broadcasts its commitment with a proof of knowledge of
the constant term, and sends every player the value at the player's index.  What an honest
dealer sends always passes the recipients' checks.
-/

namespace Frostito.Dkg

/-- DKG dealer: generates random polynomial and sub-shares. -/
structure Dealer (P S : Type) where
  index : UInt32
  polynomial : List S
  commitment : DealerCommitment P

variable {S P : Type} [CurveScalar S] [CurvePoint P S]

namespace Dealer

/-- Create a new DKG dealer with a random secret. -/
def new (index threshold : UInt32) (rng : Rng S) : Outcome Error (Dealer P S × Rng S) := do
  .refuse (index = 0) .invalidIndex
  .refuse (threshold = 0) (.thresholdMismatch 1 0)
  let (polynomial, rng) := rng.randoms threshold.toNat
  let commitment ← DealerCommitment.fromPolynomial index polynomial
  .ok (⟨index, polynomial, commitment⟩, rng)

/-- This dealer's round-1 broadcast: Feldman commitment plus a Schnorr proof of knowledge
of the constant term. -/
def round1Package [Sha2] (d : Dealer P S) (epoch : UInt64) (rng : Rng S) :
    Outcome Error (Round1Package P S × Rng S) := do
  let a0 ← .expectSome d.polynomial.head?
  let (proof, rng) := ProofOfKnowledge.prove d.index epoch a0 rng
  .ok (⟨d.commitment, proof⟩, rng)

/-- Generate sub-share for player `j`: `f_i(j)`. -/
def generateSubshare (d : Dealer P S) (playerIndex : UInt32) : Outcome Error (SubShare S) := do
  .refuse (playerIndex = 0) .invalidIndex
  SubShare.new d.index playerIndex (Horner.horner (fromU32 playerIndex : S) d.polynomial)

/-- Generate sub-shares for all players `1..=n`. -/
def generateSubshares (d : Dealer P S) (numPlayers : UInt32) :
    Outcome Error (List (SubShare S)) :=
  (participants numPlayers).mapM d.generateSubshare

/-- What a dealer built by `new` carries. -/
structure Honest (d : Dealer P S) : Prop where
  index_ne_zero : d.index ≠ 0
  polynomial_ne_nil : d.polynomial ≠ []
  dealerIndex_eq : d.commitment.dealerIndex = d.index
  coefficients_eq : d.commitment.coefficients = d.polynomial.map fun a => a • generator

lemma new_eq_ok {index threshold : UInt32} (hi : index ≠ 0) (ht : threshold ≠ 0) (rng : Rng S) :
    ∃ d : Dealer P S, new index threshold rng = .ok (d, rng.drop threshold.toNat) ∧
      d.Honest ∧ d.index = index ∧ d.polynomial = rng.take threshold.toNat := by
  have hne : rng.take threshold.toNat ≠ [] := by
    rw [← List.length_pos_iff, Stream'.length_take]
    exact Nat.pos_of_ne_zero (toNat_ne_zero_iff.mpr ht)
  have hlt : (rng.take threshold.toNat).length < 2 ^ 58 := by
    have hthr : threshold.toNat < 2 ^ 32 := threshold.toNat_lt
    rw [Stream'.length_take]
    omega
  obtain ⟨hfits, hcommit⟩ := DealerCommitment.fromPolynomial_eq_ok (P := P) hi hne hlt
  refine ⟨⟨index, rng.take threshold.toNat, ⟨index, _, hfits⟩⟩, ?_,
    ⟨hi, hne, rfl, rfl⟩, rfl, rfl⟩
  rw [new, Outcome.refuse_of_neg hi, Outcome.ok_bind, Outcome.refuse_of_neg ht, Outcome.ok_bind]
  simp only [Rng.randoms]
  rw [hcommit, Outcome.ok_bind]

variable {d : Dealer P S}

/-- An honest dealer's package verifies in the epoch it was made for. -/
theorem Honest.verify_round1Package [Sha2] (h : d.Honest) (epoch : UInt64) (rng : Rng S) :
    ∃ package rng', d.round1Package epoch rng = .ok (package, rng') ∧
      package.commitment = d.commitment ∧ package.verify epoch = .ok () := by
  obtain ⟨a0, as, hpoly⟩ := List.exists_cons_of_ne_nil h.polynomial_ne_nil
  have hhead : d.polynomial.head? = some a0 := by rw [hpoly, List.head?_cons]
  refine ⟨⟨d.commitment, (ProofOfKnowledge.prove d.index epoch a0 rng).1⟩,
    (ProofOfKnowledge.prove (P := P) d.index epoch a0 rng).2, ?_, rfl, ?_⟩
  · rw [round1Package, hhead, Outcome.expectSome_some, Outcome.ok_bind]
  · refine Round1Package.verify_eq_ok_iff.mpr ⟨a0 • generator, ?_, ?_⟩
    · rw [h.coefficients_eq, hpoly, List.map_cons, List.head?_cons]
    · rw [h.dealerIndex_eq]
      exact ProofOfKnowledge.verifyIn_proveIn dkgPokDomain d.index epoch a0 rng

omit [CurvePoint P S] in
/-- A sub-share is for the player it was asked for. -/
lemma playerIndex_of_generateSubshare {j : UInt32} {s : SubShare S}
    (h : d.generateSubshare j = .ok s) : s.playerIndex = j := by
  simp only [generateSubshare, SubShare.new, Outcome.bind_eq_ok_iff] at h
  obtain ⟨-, -, -, -, hs⟩ := h
  rw [← Outcome.ok.inj hs]

omit [CurvePoint P S] in
lemma generateSubshare_eq_ok (hi : d.index ≠ 0) {j : UInt32} (hj : j ≠ 0) :
    d.generateSubshare j = .ok ⟨d.index, j, Horner.horner (fromU32 j : S) d.polynomial⟩ := by
  rw [generateSubshare, Outcome.refuse_of_neg hj, Outcome.ok_bind, SubShare.new_eq_ok hi hj]

lemma Honest.verifySubshare_eq (h : d.Honest) {j : UInt32} (hj : j ≠ 0) :
    d.commitment.verifySubshare j (Horner.horner (fromU32 j : S) d.polynomial) = true := by
  refine DealerCommitment.verifySubshare_iff.mpr ⟨hj, ?_⟩
  rw [h.coefficients_eq]
  exact Sharing.isShare_map_smul _ _

/-- An honest dealer's sub-shares verify against its commitment. -/
theorem Honest.verify_generateSubshare (h : d.Honest) {j : UInt32} (hj : j ≠ 0) :
    ∃ s, d.generateSubshare j = .ok s ∧ s.dealerIndex = d.index ∧ s.playerIndex = j ∧
      d.commitment.verifySubshare j s.value = true :=
  ⟨_, generateSubshare_eq_ok h.index_ne_zero hj, rfl, rfl, h.verifySubshare_eq hj⟩

end Dealer

end Frostito.Dkg
