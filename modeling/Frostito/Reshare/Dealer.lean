import Frostito.Dkg.Proof
import Frostito.Index

/-!
# The dealer of resharing

An old custodian shares its standing share among the new ones: the share is the constant
term of a random polynomial, and every new player is sent the value at its index.
-/

namespace Frostito.Reshare

/-- Dealer generates sub-shares for new custodians. -/
structure Dealer (P S : Type) where
  index : UInt32
  /-- Polynomial coefficients `[a_0 = share, a_1, ..]`. -/
  polynomial : List S
  /-- Cached commitment. -/
  commitment : DealerCommitment P

variable {S P : Type} [CurveScalar S] [CurvePoint P S]

namespace Dealer

/-- Create dealer from existing share. -/
def new (index : UInt32) (share : S) (newThreshold : UInt32) (rng : Rng S) :
    Outcome Error (Dealer P S × Rng S) := do
  .refuse (index = 0) .invalidIndex
  .refuse (newThreshold = 0) (.thresholdMismatch 1 0)
  let (coefficients, rng) := rng.randoms (newThreshold.toNat - 1)
  let polynomial := share :: coefficients
  let commitment ← DealerCommitment.fromPolynomial index polynomial
  .ok (⟨index, polynomial, commitment⟩, rng)

/-- Generate sub-share for a specific player. -/
def generateSubshare (d : Dealer P S) (playerIndex : UInt32) : Outcome Error (SubShare S) := do
  .refuse (playerIndex = 0) .invalidIndex
  SubShare.new d.index playerIndex (Horner.horner (fromU32 playerIndex : S) d.polynomial)

/-- Generate all sub-shares for players `1..=num_players`. -/
def generateSubshares (d : Dealer P S) (numPlayers : UInt32) :
    Outcome Error (List (SubShare S)) :=
  (participants numPlayers).mapM fun j => .expect (d.generateSubshare j)

/-- Prove this dealer still holds the share it is redistributing. -/
def provePossession [Sha2] (d : Dealer P S) (epoch : UInt64) (rng : Rng S) :
    Outcome Error (ProofOfKnowledge P S × Rng S) := do
  let a0 ← .expectSome d.polynomial.head?
  .ok (ProofOfKnowledge.proveIn resharePokDomain d.index epoch a0 rng)

/-- A dealer built by `new` from the share `share`. -/
structure Deals (d : Dealer P S) (index : UInt32) (share : S) (newThreshold : UInt32) : Prop where
  index_eq : d.index = index
  index_ne_zero : index ≠ 0
  head?_polynomial : d.polynomial.head? = some share
  length_polynomial : d.polynomial.length = newThreshold.toNat
  dealerIndex_eq : d.commitment.dealerIndex = index
  coefficients_eq : d.commitment.coefficients = d.polynomial.map fun a => a • generator

lemma new_eq_ok {index newThreshold : UInt32} (hi : index ≠ 0) (ht : newThreshold ≠ 0)
    (share : S) (rng : Rng S) :
    ∃ (d : Dealer P S) (rng' : Rng S), new index share newThreshold rng = .ok (d, rng') ∧
      d.Deals index share newThreshold := by
  have hpos := toNat_ne_zero_iff.mpr ht
  have hlen : (share :: rng.take (newThreshold.toNat - 1)).length = newThreshold.toNat := by
    rw [List.length_cons, Stream'.length_take]
    omega
  have hlt : (share :: rng.take (newThreshold.toNat - 1)).length < 2 ^ 58 := by
    have hthr : newThreshold.toNat < 2 ^ 32 := newThreshold.toNat_lt
    omega
  obtain ⟨hfits, hcommit⟩ :=
    DealerCommitment.fromPolynomial_eq_ok (P := P) hi (List.cons_ne_nil _ _) hlt
  refine ⟨⟨index, share :: rng.take (newThreshold.toNat - 1), ⟨index, _, hfits⟩⟩,
    rng.drop (newThreshold.toNat - 1), ?_, ⟨rfl, hi, rfl, hlen, rfl, rfl⟩⟩
  rw [new, Outcome.refuse_of_neg hi, Outcome.ok_bind, Outcome.refuse_of_neg ht, Outcome.ok_bind]
  simp only [Rng.randoms]
  rw [hcommit, Outcome.ok_bind]

variable {d : Dealer P S} {i t : UInt32} {share : S}

/-- The polynomial of a new dealer: the share, and one draw for each further coefficient. -/
lemma polynomial_of_new {index newThreshold : UInt32} {rng rng' : Rng S}
    (h : new index share newThreshold rng = .ok (d, rng')) :
    d.index = index ∧ d.polynomial = share :: rng.take (newThreshold.toNat - 1) := by
  simp only [new, Rng.randoms, Outcome.bind_eq_ok_iff] at h
  obtain ⟨-, -, -, -, c, -, h⟩ := h
  obtain ⟨rfl, -⟩ := Prod.mk.inj (Outcome.ok.inj h)
  exact ⟨rfl, rfl⟩

omit [CurvePoint P S] in
lemma generateSubshare_eq_ok (hi : d.index ≠ 0) {j : UInt32} (hj : j ≠ 0) :
    d.generateSubshare j = .ok ⟨d.index, j, Horner.horner (fromU32 j : S) d.polynomial⟩ := by
  rw [generateSubshare, Outcome.refuse_of_neg hj, Outcome.ok_bind, SubShare.new_eq_ok hi hj]

/-- The constant term of the commitment is the old verification share of the dealer. -/
lemma Deals.headD_coefficients (h : d.Deals i share t) :
    d.commitment.coefficients.headD 0 = share • generator := by
  obtain ⟨a0, as, hpoly⟩ := List.exists_cons_of_ne_nil (l := d.polynomial) (by
    rintro hnil
    have hhead := h.head?_polynomial
    simp [hnil] at hhead)
  have hhead := h.head?_polynomial
  rw [hpoly, List.head?_cons, Option.some.injEq] at hhead
  rw [h.coefficients_eq, hpoly, List.map_cons, List.headD_cons, hhead]

lemma Deals.length_coefficients (h : d.Deals i share t) :
    d.commitment.coefficients.length = t.toNat := by
  rw [h.coefficients_eq, List.length_map, h.length_polynomial]

/-- What the dealer sends a player verifies against its commitment. -/
theorem Deals.generateSubshare_eq (h : d.Deals i share t) {j : UInt32} (hj : j ≠ 0) :
    d.generateSubshare j = .ok ⟨i, j, Horner.horner (fromU32 j : S) d.polynomial⟩ ∧
      d.commitment.verifySubshare j (Horner.horner (fromU32 j : S) d.polynomial) = true := by
  constructor
  · rw [generateSubshare_eq_ok (h.index_eq ▸ h.index_ne_zero) hj, h.index_eq]
  · refine DealerCommitment.verifySubshare_iff.mpr ⟨hj, ?_⟩
    rw [h.coefficients_eq]
    exact Sharing.isShare_map_smul _ _

end Dealer

end Frostito.Reshare
