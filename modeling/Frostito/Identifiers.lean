import Frostito.Reference.Suite
import Frostito.Zf

/-!
# Identifiers that are no share indices

Between an outer package and the shares of the crate there is the index that an identifier is
read as.  The Lagrange coefficient of the nested position is computed for these indices, and the
outer protocol's for the identifiers.  They are the same as long as every identifier is read as
what it is; an identifier that is a share index in the other byte order is not.
-/

namespace Frostito

section Bridge

variable {P S : Type} [CurveScalar S] [CurvePoint P S] {suite : Ciphersuite P S}
  {package : SigningPackage P S} {verifyingKey : P} {nestedIndex : UInt32}

/-- The bridged coefficient is the one the outer protocol uses, and a package with an
identifier that is no share index is refused. -/
structure Faithful (suite : Ciphersuite P S) (package : SigningPackage P S) (verifyingKey : P)
    (nestedIndex : UInt32) : Prop where
  lambda_eq : ∀ params, innerParamsFromZf suite package verifyingKey nestedIndex = .ok params →
    params.outerLambda = package.lagrangeCoefficient (fromU32 nestedIndex)
  refused : (∃ id ∈ package.identifiers, ∀ v, ¬id.IsIndex v) →
    ∃ e, innerParamsFromZf suite package verifyingKey nestedIndex = .err e

/-- The package passes every other check: its identifiers are read as distinct indices with
the nested one among them, and `frost-core` accepts it. -/
def PassesOtherChecks (suite : Ciphersuite P S) (package : SigningPackage P S)
    (verifyingKey : P) (nestedIndex : UInt32) : Prop :=
  ∃ indices, List.Forall₂ (fun id v => id.IsIndex v ∨ id.IsSwapped v) package.identifiers
      indices ∧
    indices.Nodup ∧ nestedIndex ∈ indices ∧
    (outerContext suite package verifyingKey nestedIndex).isSome

/-- **When the bridged coefficient is the outer protocol's.**  A package is handled as it
should be exactly when none of its identifiers has its only nonzero bytes at the wrong end,
or when it fails another check anyway. -/
theorem faithful_iff [PrimeOrder P] (hsuite : suite.EncodesScalars) :
    Faithful suite package verifyingKey nestedIndex ↔
      (∀ id ∈ package.identifiers, ∀ v, ¬id.IsSwapped v) ∨
        ¬PassesOtherChecks suite package verifyingKey nestedIndex := by
  have hinj := fromU32_injective P
  have hread : ∀ indices, package.identifiers.mapM (identifierToIndex suite) = .ok indices ↔
      List.Forall₂ (fun id v => id.IsIndex v ∨ id.IsSwapped v) package.identifiers indices := by
    intro indices
    rw [Outcome.mapM_eq_ok_iff]
    simp only [identifierToIndex_eq_ok_iff hsuite]
  constructor
  · -- a swapped identifier that passes the other checks is accepted and is no index
    intro hfaithful
    by_contra hnot
    obtain ⟨hswapped, hchecks⟩ := not_or.mp hnot
    push Not at hswapped
    obtain ⟨id, hid, v, hv⟩ := hswapped
    obtain ⟨indices, hall, hnd, hmem, hsome⟩ := not_not.mp hchecks
    obtain ⟨⟨rho, c⟩, hcontext⟩ := Option.isSome_iff_exists.mp hsome
    have hok : innerParamsFromZf suite package verifyingKey nestedIndex
        = .ok ⟨rho, c, lagrangeCoeff indices nestedIndex⟩ := (innerParamsFromZf_eq_ok_iff hinj).mpr
      ⟨indices, (hread indices).mpr hall, hnd, hmem, hcontext, rfl⟩
    obtain ⟨e, herr⟩ := hfaithful.refused ⟨id, hid, fun w => hv.not_isIndex P⟩
    rw [hok] at herr
    exact absurd herr (by simp)
  · -- otherwise an accepted package has all its identifiers read as the indices they are
    intro h
    have hok : ∀ params, innerParamsFromZf suite package verifyingKey nestedIndex = .ok params →
        ∃ indices, List.Forall₂ Identifier.IsIndex package.identifiers indices ∧
          params.outerLambda = lagrangeCoeff indices nestedIndex := by
      intro params hparams
      obtain ⟨indices, hmap, hnd, hmem, hcontext, hlambda⟩ :=
        (innerParamsFromZf_eq_ok_iff hinj).mp hparams
      have hall := (hread indices).mp hmap
      have hnone := h.resolve_right (not_not.mpr
        ⟨indices, hall, hnd, hmem, by rw [hcontext, Option.isSome_some]⟩)
      refine ⟨indices, ?_, hlambda⟩
      exact ((List.forall₂_and_left _ _).mpr ⟨hnone, hall⟩).imp fun id v hid =>
        hid.2.resolve_right (hid.1 v)
    refine ⟨fun params hparams => ?_, ?_⟩
    · obtain ⟨indices, hall, hlambda⟩ := hok params hparams
      rw [hlambda, lagrangeCoeff_of_isIndex hall]
    · rintro ⟨id, hid, hno⟩
      refine Outcome.exists_eq_err (fun params hparams => ?_) (innerParamsFromZf_ne_panic hinj)
      obtain ⟨indices, hall, -⟩ := hok params hparams
      obtain ⟨v, -, hv⟩ := Outcome.exists_of_forall₂ hall hid
      exact hno v hv

end Bridge

/-! ### An identifier read in the wrong order -/

section Stray

open Reference

/-- Nothing is wrong with a package of the signers 1 and 2. -/
theorem faithful_outerPackage : Faithful suite outerPackage 5 1 := by
  refine (faithful_iff suite_encodesScalars).mpr (.inl fun id hid v hv => ?_)
  have hcases : id = firstIdentifier ∨ id = secondIdentifier := by
    simpa [SigningPackage.identifiers, outerPackage, outerCommitments] using hid
  rcases hcases with rfl | rfl
  · exact hv.not_isIndex Residue (w := 1) rfl
  · exact hv.not_isIndex Residue (w := 2) rfl

/-- `2 ^ 224`, a scalar below the order and no `u32` value. -/
lemma natCast_stray_ne {n : ℕ} (hn : n < 2 ^ 32) : ((256 ^ 28 : ℕ) : Residue) ≠ n := by
  have hlt : 256 ^ 28 < Nat.card Residue := by
    rw [Nat.card_zmod]
    unfold order
    norm_num
  intro h
  have heq := natCast_inj_of_lt Residue hlt (lt_trans (by omega) hlt) h
  omega

/-- The identifier `2 ^ 224`. -/
def strayIdentifier : Identifier Residue where
  val := ((256 ^ 28 : ℕ) : Residue)
  ne_zero := by simpa using natCast_stray_ne (n := 0) (by norm_num)

/-- The outer package with the identifier `2 ^ 224` for the second signer. -/
def strayPackage : SigningPackage Residue Residue where
  signingCommitments := outerCommitments strayIdentifier
  nodup := by
    have hne : strayIdentifier.val ≠ firstIdentifier.val := by
      simpa [strayIdentifier, firstIdentifier] using natCast_stray_ne (n := 1) (by norm_num)
    simpa [outerCommitments, Identifier.ext_iff] using hne.symm
  message := "m".toUTF8.toList

lemma isSome_outerContext_strayPackage : (outerContext suite strayPackage 5 1).isSome := by
  decide +kernel

lemma isSwapped_strayIdentifier : strayIdentifier.IsSwapped 16777216 := by
  have hswap : Framing.swapBytes 4 (16777216 : UInt32).toNat = 1 := by decide
  rw [Identifier.IsSwapped, hswap, one_mul, Nat.card_zmod]
  exact ⟨by unfold order; norm_num, rfl⟩

/-- The identifier `2 ^ 224` is read as the index `16777216`, and the coefficient of signer 1
is computed for that one. -/
theorem stray_identifier_accepted :
    ∃ params, innerParamsFromZf suite strayPackage 5 1 = .ok params ∧
      params.outerLambda ≠ strayPackage.lagrangeCoefficient (fromU32 1) := by
  obtain ⟨⟨rho, c⟩, hcontext⟩ := Option.isSome_iff_exists.mp isSome_outerContext_strayPackage
  have hread : strayPackage.identifiers.mapM (identifierToIndex suite) = .ok [1, 16777216] := by
    refine Outcome.mapM_eq_ok_iff.mpr (.cons ?_ (.cons ?_ .nil))
    · exact (identifierToIndex_eq_ok_iff suite_encodesScalars).mpr (.inl rfl)
    · exact (identifierToIndex_eq_ok_iff suite_encodesScalars).mpr
        (.inr isSwapped_strayIdentifier)
  refine ⟨⟨rho, c, lagrangeCoeff [1, 16777216] 1⟩,
    (innerParamsFromZf_eq_ok_iff (fromU32_injective Residue)).mpr
      ⟨_, hread, by decide, by decide, hcontext, rfl⟩, ?_⟩
  intro heq
  rw [strayPackage.lagrangeCoefficient_eq] at heq
  have hone : (fromU32 1 : Residue) = 1 := by simp [fromU32]
  have hnodes : (nodes [1, 16777216] : Finset Residue) = {1, fromU32 16777216} := by
    simp [nodes, hone]
  have hvals : (strayPackage.identifiers.map Identifier.val).toFinset
      = {(1 : Residue), strayIdentifier.val} := by
    simp [SigningPackage.identifiers, strayPackage, outerCommitments, firstIdentifier]
  rw [lagrangeCoeff, hnodes, hvals, hone] at heq
  -- two nodes with one weight would be one node
  have hread_ne : (1 : Residue) ≠ fromU32 16777216 :=
    hone ▸ (fromU32_injective Residue).ne (by decide)
  have hstray_ne : (1 : Residue) ≠ strayIdentifier.val := by
    simpa [strayIdentifier] using (natCast_stray_ne (n := 1) (by norm_num)).symm
  exact natCast_stray_ne (n := 16777216) (by norm_num)
    (Interpolation.weight_pair_inj one_ne_zero hread_ne hstray_ne heq).symm

end Stray

end Frostito
