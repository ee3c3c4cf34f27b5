import Frostito.Index
import Frostito.Nested.Package

/-!
# Driving the nested protocol from an outer signing package

The identifiers of an outer package are scalars, and the crate numbers its shares with `u32`
values.  An identifier is turned into an index by its encoding, which is read in either
order: as the small integer it is, or, when only its four highest bytes are not zero, as
those bytes in reverse.  Either reading gives an index, but only the first is the
identifier.
-/

namespace Frostito

/-- The outer context of one signing round. -/
@[ext] structure InnerSigningParams (S : Type) where
  /-- The outer binding factor `ρ` of the nested position. -/
  outerBinding : S
  /-- The outer challenge `c`. -/
  outerChallenge : S
  /-- The outer Lagrange coefficient `λ` of the nested position. -/
  outerLambda : S

/-- The index that the encoding of an identifier spells, in one of the two byte orders. -/
def indexOfBytes (b : Bytes) : Outcome Error UInt32 := do
  .refuse (b.length < 4) .invalidIndex
  let little := (b.drop 4).all (· == 0)
  let big := (b.take (b.length - 4)).all (· == 0)
  let v ← match little, big with
    | true, _ => .ok (UInt32.ofNat (Framing.ofLeBytes (b.take 4)))
    | false, true => .ok (UInt32.ofNat (Framing.ofBeBytes (b.drop (b.length - 4))))
    | false, false => .err .invalidIndex
  .refuse (v = 0) .invalidIndex
  .ok v

section

variable {P S : Type} [CurveScalar S]

/-- The crate's share index, from an identifier of the outer protocol. -/
def identifierToIndex (suite : Ciphersuite P S) (id : Identifier S) : Outcome Error UInt32 :=
  indexOfBytes (suite.serialize id.val)

/-- The outer context an inner holder needs, recomputed from the signing package. -/
def innerParamsFromZf (suite : Ciphersuite P S) (package : SigningPackage P S)
    (verifyingKey : P) (nestedIndex : UInt32) : Outcome Error (InnerSigningParams S) := do
  let indices ← package.identifiers.mapM (identifierToIndex suite)
  let indices := indices.insertionSort (· ≤ ·)
  let pos ← .okOr (position indices nestedIndex) .invalidIndex
  let lagrange ← computeLagrangeCoefficients indices
  let nestedId ← .okOr (Identifier.ofIndex nestedIndex) .invalidIndex
  let factors ← .okOr (suite.bindingFactorList package verifyingKey []) .invalidCommitment
  let factor ← .okOr (lookup factors nestedId) .invalidIndex
  let rho ← .okOr (suite.deserialize (suite.serialize factor)) .invalidResponse
  let r ← .okOr (suite.groupCommitment package factors) .invalidCommitment
  let c ← .okOr (suite.challenge r verifyingKey package.message) .invalidCommitment
  let lambda ← .expectSome lagrange[pos]?
  .ok ⟨rho, c, lambda⟩

end

/-! ### What an encoding spells -/

/-- The number `n`, not zero, is read as the index `v`: it is `v`, or its four highest bytes
are the bytes of `v` in the other order and all others are zero. -/
def ReadAs (n : ℕ) (v : UInt32) : Prop :=
  v ≠ 0 ∧ (n = v.toNat ∨ n = Framing.swapBytes 4 v.toNat * 256 ^ 28)

lemma all_beq_zero_iff {bs : Bytes} : bs.all (· == 0) = true ↔ Framing.ofLeBytes bs = 0 := by
  rw [Framing.ofLeBytes_eq_zero_iff, List.all_eq_true]
  simp

lemma all_beq_zero_iff' {bs : Bytes} : bs.all (· == 0) = true ↔ Framing.ofBeBytes bs = 0 := by
  rw [Framing.ofBeBytes, Framing.ofLeBytes_eq_zero_iff, List.all_eq_true]
  simp

/-- Reading 32 bytes of which the first four spell `lo` and the last four `hi`. -/
lemma indexOfBytes_eq_ok_iff {b : Bytes} (hlen : b.length = 32) {v : UInt32} :
    indexOfBytes b = .ok v ↔ v ≠ 0 ∧
      (((b.drop 4).all (· == 0) = true ∧ v.toNat = Framing.ofLeBytes (b.take 4)) ∨
        ((b.drop 4).all (· == 0) = false ∧ (b.take 28).all (· == 0) = true ∧
          v.toNat = Framing.ofBeBytes (b.drop 28))) := by
  have hlo : Framing.ofLeBytes (b.take 4) < 2 ^ 32 := by
    have hlt := Framing.ofLeBytes_lt (b.take 4)
    rw [List.length_take, hlen] at hlt
    simpa using hlt
  have hhi : Framing.ofBeBytes (b.drop 28) < 2 ^ 32 := by
    have hlt := Framing.ofLeBytes_lt (b.drop 28).reverse
    rw [List.length_reverse, List.length_drop, hlen] at hlt
    exact hlt
  -- the last check, and what is returned behind it
  have hread : ∀ n < 2 ^ 32, ((do
      .refuse (UInt32.ofNat n = 0) .invalidIndex
      .ok (UInt32.ofNat n)) : Outcome Error UInt32) = .ok v ↔ v ≠ 0 ∧ v.toNat = n := by
    intro n hn
    have hv : UInt32.ofNat n = v ↔ v.toNat = n := by
      rw [← UInt32.toNat_inj, UInt32.toNat_ofNat_of_lt' hn, eq_comm]
    simp only [Outcome.bind_eq_ok_iff, Outcome.refuse_eq_ok_iff, Outcome.ok.injEq, ← hv]
    constructor
    · rintro ⟨_, h0, rfl⟩
      exact ⟨h0, rfl⟩
    · rintro ⟨h0, rfl⟩
      exact ⟨(), h0, rfl⟩
  rw [indexOfBytes, hlen, Outcome.refuse_of_neg (by norm_num), Outcome.ok_bind]
  have h28 : 32 - 4 = 28 := rfl
  rw [h28]
  cases (b.drop 4).all (· == 0) with
  | true => simpa using hread _ hlo
  | false =>
    cases (b.take 28).all (· == 0) with
    | true => simpa using hread _ hhi
    | false => simp

/-- Of two tests that never pass together, it does not matter which is made first. -/
lemma first_or_second_iff {p q r r' : Prop} (h : ¬(p ∧ q)) :
    (p ∧ r) ∨ (¬p ∧ q ∧ r') ↔ (p ∧ r) ∨ (q ∧ r') := by
  refine or_congr_right ⟨fun h' => h'.2, fun h' => ⟨fun hp => h ⟨hp, h'.1⟩, h'⟩⟩

/-- The low bytes of a number spell `v` and the others are zero exactly when it is `v`. -/
lemma low_eq_iff {n : ℕ} {v : UInt32} :
    n / 256 ^ 4 = 0 ∧ v.toNat = n % 256 ^ 4 ↔ n = v.toNat := by
  have hv : v.toNat < 256 ^ 4 := v.toNat_lt
  omega

/-- The four highest of 32 bytes spell `v` in the other order and the others are zero. -/
lemma high_eq_iff {n : ℕ} (hn : n < 256 ^ 32) {v : UInt32} :
    n % 256 ^ 28 = 0 ∧ v.toNat = Framing.swapBytes 4 (n / 256 ^ 28) ↔
      n = Framing.swapBytes 4 v.toNat * 256 ^ 28 := by
  have hv : v.toNat < 256 ^ 4 := v.toNat_lt
  have hhigh : n / 256 ^ 28 < 256 ^ 4 := by
    rw [Nat.div_lt_iff_lt_mul (by norm_num)]
    exact hn
  constructor
  · rintro ⟨hmod, heq⟩
    rw [heq, Framing.swapBytes_swapBytes hhigh]
    exact (Nat.div_mul_cancel (Nat.dvd_of_mod_eq_zero hmod)).symm
  · intro h
    have hdiv : n / 256 ^ 28 = Framing.swapBytes 4 v.toNat := by
      rw [h, Nat.mul_div_cancel _ (by norm_num)]
    rw [hdiv, Framing.swapBytes_swapBytes hv, h]
    exact ⟨Nat.mul_mod_left _ _, rfl⟩

/-- Either byte order reads a number in the same two ways. -/
theorem indexOfBytes_encoding {n : ℕ} (hn : n < 256 ^ 32) (h0 : n ≠ 0) {b : Bytes}
    (hb : b = Framing.leBytes 32 n ∨ b = Framing.beBytes 32 n) {v : UInt32} :
    indexOfBytes b = .ok v ↔ ReadAs n v := by
  have hlow : n / 256 ^ 4 % 256 ^ 28 = n / 256 ^ 4 := Nat.mod_eq_of_lt (by
    rw [Nat.div_lt_iff_lt_mul (by norm_num)]
    exact hn)
  have hnot : ¬(n / 256 ^ 4 = 0 ∧ n % 256 ^ 28 = 0) := by omega
  rw [indexOfBytes_eq_ok_iff (by rcases hb with rfl | rfl <;> simp), ReadAs,
    ← Bool.not_eq_true, all_beq_zero_iff, ← low_eq_iff, ← high_eq_iff hn]
  refine and_congr_right fun _ => ?_
  rcases hb with rfl | rfl
  · have hdrop : (Framing.leBytes 32 n).drop 4 = Framing.leBytes 28 (n / 256 ^ 4) :=
      Framing.drop_leBytes 4 28 n
    have htake : (Framing.leBytes 32 n).take 4 = Framing.leBytes 4 n :=
      Framing.take_leBytes 4 28 n
    have hdrop' : (Framing.leBytes 32 n).drop 28 = Framing.leBytes 4 (n / 256 ^ 28) :=
      Framing.drop_leBytes 28 4 n
    have htake' : (Framing.leBytes 32 n).take 28 = Framing.leBytes 28 n :=
      Framing.take_leBytes 28 4 n
    rw [hdrop, htake, hdrop', htake', all_beq_zero_iff, Framing.ofLeBytes_leBytes_mod,
      Framing.ofLeBytes_leBytes_mod, Framing.ofLeBytes_leBytes_mod, hlow,
      ← Framing.swapBytes]
    exact first_or_second_iff hnot
  · have hdrop : (Framing.beBytes 32 n).drop 4 = Framing.beBytes 28 n :=
      Framing.drop_beBytes 28 4 n
    have htake : (Framing.beBytes 32 n).take 4 = Framing.beBytes 4 (n / 256 ^ 28) :=
      Framing.take_beBytes 28 4 n
    have hdrop' : (Framing.beBytes 32 n).drop 28 = Framing.beBytes 4 n :=
      Framing.drop_beBytes 4 28 n
    have htake' : (Framing.beBytes 32 n).take 28 = Framing.beBytes 28 (n / 256 ^ 4) :=
      Framing.take_beBytes 4 28 n
    -- the little-endian test, made first, is the one that passes on a swapped number
    rw [hdrop, htake, hdrop', htake', ← all_beq_zero_iff, all_beq_zero_iff', all_beq_zero_iff',
      Framing.ofBeBytes_beBytes_mod, Framing.ofBeBytes_beBytes_mod,
      Framing.ofBeBytes_beBytes_mod, hlow, Framing.ofLeBytes_beBytes,
      first_or_second_iff fun h => hnot h.symm]
    exact or_comm

/-- Bytes spell an index, or are refused. -/
lemma indexOfBytes_cases (b : Bytes) :
    (∃ v ≠ 0, indexOfBytes b = .ok v) ∨ indexOfBytes b = .err .invalidIndex := by
  have hlast : ∀ v : UInt32, (∃ w ≠ 0, (do
      .refuse (v = 0) .invalidIndex
      .ok v : Outcome Error UInt32) = .ok w) ∨ (do
      .refuse (v = 0) .invalidIndex
      .ok v : Outcome Error UInt32) = .err .invalidIndex := by
    intro v
    by_cases h0 : v = 0
    · rw [Outcome.refuse_of_pos h0]
      exact .inr rfl
    · rw [Outcome.refuse_of_neg h0]
      exact .inl ⟨v, h0, rfl⟩
  rw [indexOfBytes]
  by_cases hlen : b.length < 4
  · rw [Outcome.refuse_of_pos hlen]
    exact .inr rfl
  · rw [Outcome.refuse_of_neg hlen, Outcome.ok_bind]
    cases (b.drop 4).all (· == 0) with
    | true => exact hlast _
    | false =>
      cases (b.take (b.length - 4)).all (· == 0) with
      | true => exact hlast _
      | false => exact .inr rfl

lemma ne_zero_of_indexOfBytes {b : Bytes} {v : UInt32} (h : indexOfBytes b = .ok v) : v ≠ 0 := by
  rcases indexOfBytes_cases b with ⟨w, h0, hok⟩ | herr
  · rwa [Outcome.ok.inj (h.symm.trans hok)]
  · rw [herr] at h
    cases h

lemma indexOfBytes_ne_panic (b : Bytes) : indexOfBytes b ≠ .panic := by
  rcases indexOfBytes_cases b with ⟨w, -, hok⟩ | herr
  · simp [hok]
  · simp [herr]

section Bridge

variable {P S : Type} [CurveScalar S]

/-! ### Identifiers and indices -/

namespace Identifier

/-- The identifier is the share index `v`. -/
def IsIndex (id : Identifier S) (v : UInt32) : Prop := id.val = fromU32 v

/-- The identifier is no share index, but the bytes of `v` stand in its four highest bytes in
the other order, and all others are zero. -/
def IsSwapped (id : Identifier S) (v : UInt32) : Prop :=
  Framing.swapBytes 4 v.toNat * 256 ^ 28 < Nat.card S ∧
    id.val = ((Framing.swapBytes 4 v.toNat * 256 ^ 28 : ℕ) : S)

lemma IsIndex.ne_zero {id : Identifier S} {v : UInt32} (h : id.IsIndex v) : v ≠ 0 := by
  rintro rfl
  exact id.ne_zero (h.trans fromU32_zero)

lemma IsSwapped.ne_zero {id : Identifier S} {v : UInt32} (h : id.IsSwapped v) : v ≠ 0 := by
  rintro rfl
  have hzero : Framing.swapBytes 4 (0 : UInt32).toNat = 0 :=
    (Framing.swapBytes_eq_zero_iff (by norm_num)).mpr rfl
  rw [IsSwapped, hzero, Nat.zero_mul, Nat.cast_zero] at h
  exact id.ne_zero h.2

end Identifier

variable [CurvePoint P S] {suite : Ciphersuite P S}

variable (P) in
/-- A swapped identifier is no share index. -/
lemma Identifier.IsSwapped.not_isIndex [PrimeOrder P] {id : Identifier S} {v w : UInt32}
    (h : id.IsSwapped v) : ¬id.IsIndex w := by
  intro hw
  have heq : ((w.toNat : ℕ) : S) = ((Framing.swapBytes 4 v.toNat * 256 ^ 28 : ℕ) : S) :=
    hw.symm.trans h.2
  have hnat := natCast_inj_of_lt P (toNat_lt_card P w) h.1 heq
  have hv : v.toNat < 256 ^ 4 := v.toNat_lt
  have hne : Framing.swapBytes 4 v.toNat ≠ 0 := fun h0 =>
    toNat_ne_zero_iff.mpr h.ne_zero ((Framing.swapBytes_eq_zero_iff hv).mp h0)
  have hlt := w.toNat_lt
  omega

/-- **What identifiers are read as**: the index they are, or the one whose bytes stand in the
wrong place in the wrong order. -/
theorem identifierToIndex_eq_ok_iff [PrimeOrder P] (hsuite : suite.EncodesScalars)
    {id : Identifier S} {v : UInt32} :
    identifierToIndex suite id = .ok v ↔ id.IsIndex v ∨ id.IsSwapped v := by
  obtain ⟨n, hn, hval⟩ := exists_natCast_eq P id.val
  have hn0 : n ≠ 0 := by
    rintro rfl
    exact id.ne_zero (by rw [← hval, Nat.cast_zero])
  have hb : suite.serialize id.val = Framing.leBytes 32 n ∨
      suite.serialize id.val = Framing.beBytes 32 n := by
    rw [← hval]
    exact hsuite.serialize_eq.imp (fun h => h n hn) fun h => h n hn
  have hindex : id.IsIndex v ↔ n = v.toNat := by
    rw [Identifier.IsIndex, ← hval]
    exact ⟨natCast_inj_of_lt P hn (toNat_lt_card P v), fun h => congrArg Nat.cast h⟩
  have hswapped : id.IsSwapped v ↔ n = Framing.swapBytes 4 v.toNat * 256 ^ 28 := by
    rw [Identifier.IsSwapped, ← hval]
    constructor
    · rintro ⟨hlt, heq⟩
      exact natCast_inj_of_lt P hn hlt heq
    · intro heq
      exact ⟨heq ▸ hn, congrArg Nat.cast heq⟩
  rw [identifierToIndex, indexOfBytes_encoding (hn.trans_le hsuite.card_le) hn0 hb, ReadAs,
    ← hindex, ← hswapped, and_iff_right_iff_imp]
  rintro (h | h)
  · exact h.ne_zero
  · exact h.ne_zero

/-! ### The outer context -/

/-- The binding factor of the nested position and the challenge, when `frost-core` accepts the
package. -/
def outerContext (suite : Ciphersuite P S) (package : SigningPackage P S) (verifyingKey : P)
    (nestedIndex : UInt32) : Option (S × S) := do
  let id ← Identifier.ofIndex nestedIndex
  let factors ← suite.bindingFactorList package verifyingKey []
  let factor ← lookup factors id
  let rho ← suite.deserialize (suite.serialize factor)
  let r ← suite.groupCommitment package factors
  let c ← suite.challenge r verifyingKey package.message
  some (rho, c)

variable {package : SigningPackage P S} {verifyingKey : P} {nestedIndex : UInt32}

omit [CurvePoint P S] in
/-- The outer context is computed exactly when the identifiers are read as distinct indices
with the nested one among them, and `frost-core` accepts the package. -/
theorem innerParamsFromZf_eq_ok_iff (hinj : Function.Injective (fromU32 : UInt32 → S))
    {params : InnerSigningParams S} :
    innerParamsFromZf suite package verifyingKey nestedIndex = .ok params ↔
      ∃ indices, package.identifiers.mapM (identifierToIndex suite) = .ok indices ∧
        indices.Nodup ∧ nestedIndex ∈ indices ∧
        outerContext suite package verifyingKey nestedIndex
          = some (params.outerBinding, params.outerChallenge) ∧
        params.outerLambda = lagrangeCoeff indices nestedIndex := by
  -- the indices are sorted before they are used, which changes no check and no coefficient
  have hperm : ∀ indices : List UInt32, (indices.insertionSort (· ≤ ·)).Perm indices :=
    List.perm_insertionSort (· ≤ ·)
  have hcoeff : ∀ indices : List UInt32,
      (lagrangeCoeff (indices.insertionSort (· ≤ ·)) : UInt32 → S) = lagrangeCoeff indices :=
    fun indices => lagrangeCoeff_congr fun _ => (hperm indices).mem_iff
  simp only [innerParamsFromZf, Outcome.bind_eq_ok_iff, Outcome.okOr_eq_ok_iff,
    Outcome.expectSome_eq_ok_iff, computeLagrangeCoefficients_eq_ok_iff hinj, outerContext,
    Option.bind_eq_bind, Option.bind_eq_some_iff, Option.some.injEq, Prod.mk.injEq]
  constructor
  · rintro ⟨indices, hread, pos, hpos, _, ⟨hvalid, rfl⟩, id, hid, factors, hfactors, factor,
      hfactor, rho, hrho, r, hr, c, hc, lambda, hlambda, hparams⟩
    rw [getElem?_map_position hpos, hcoeff, Option.some.injEq] at hlambda
    rw [← Outcome.ok.inj hparams]
    exact ⟨indices, hread, (hperm indices).nodup_iff.mp hvalid.nodup,
      (hperm indices).mem_iff.mp (exists_position_eq_some_iff.mp ⟨pos, hpos⟩),
      ⟨id, hid, factors, hfactors, factor, hfactor, rho, hrho, r, hr, c, hc, rfl, rfl⟩,
      hlambda.symm⟩
  · rintro ⟨indices, hread, hnd, hmem, ⟨id, hid, factors, hfactors, factor, hfactor, rho, hrho,
      r, hr, c, hc, rfl, rfl⟩, hlambda⟩
    -- what bytes are read as is never zero
    have h0 : 0 ∉ indices := by
      intro hzero
      obtain ⟨id', -, hid'⟩ := Outcome.exists_of_mem_of_mapM_eq_ok hread hzero
      exact ne_zero_of_indexOfBytes hid' rfl
    obtain ⟨pos, hpos⟩ := exists_position_eq_some_iff.mpr ((hperm indices).mem_iff.mpr hmem)
    have hvalid : ValidIndices (indices.insertionSort (· ≤ ·)) :=
      ⟨List.ne_nil_of_mem ((hperm indices).mem_iff.mpr hmem),
        fun hz => h0 ((hperm indices).mem_iff.mp hz), (hperm indices).nodup_iff.mpr hnd⟩
    exact ⟨indices, hread, pos, hpos, _, ⟨hvalid, rfl⟩, id, hid, factors, hfactors, factor,
      hfactor, params.outerBinding, hrho, r, hr, params.outerChallenge, hc, params.outerLambda,
      by rw [getElem?_map_position hpos, hcoeff, hlambda], rfl⟩

omit [CurvePoint P S] in
lemma innerParamsFromZf_ne_panic (hinj : Function.Injective (fromU32 : UInt32 → S)) :
    innerParamsFromZf suite package verifyingKey nestedIndex ≠ .panic := by
  refine Outcome.bind_ne_panic (Outcome.mapM_ne_panic fun id _ => indexOfBytes_ne_panic _)
    fun indices _ => ?_
  refine Outcome.okOr_bind_ne_panic fun pos hpos => ?_
  refine Outcome.bind_ne_panic (computeLagrangeCoefficients_ne_panic hinj _)
    fun lagrange hlagrange => ?_
  refine Outcome.okOr_bind_ne_panic fun id _ => ?_
  refine Outcome.okOr_bind_ne_panic fun factors _ => ?_
  refine Outcome.okOr_bind_ne_panic fun factor _ => ?_
  refine Outcome.okOr_bind_ne_panic fun rho _ => ?_
  refine Outcome.okOr_bind_ne_panic fun r _ => ?_
  refine Outcome.okOr_bind_ne_panic fun c _ => ?_
  obtain ⟨-, rfl⟩ := (computeLagrangeCoefficients_eq_ok_iff hinj).mp hlagrange
  rw [getElem?_map_position hpos]
  simp

omit [CurvePoint P S] in
/-- Identifiers that are all share indices give the outer protocol's coefficients. -/
lemma lagrangeCoeff_of_isIndex {indices : List UInt32}
    (h : List.Forall₂ Identifier.IsIndex package.identifiers indices) (i : UInt32) :
    lagrangeCoeff indices i = package.lagrangeCoefficient (fromU32 i) := by
  have hmap : package.identifiers.map Identifier.val = indices.map fromU32 := by
    rw [← List.forall₂_eq_eq_eq, List.forall₂_map_left_iff, List.forall₂_map_right_iff]
    exact h
  rw [package.lagrangeCoefficient_eq, hmap]
  rfl

/-- A package whose identifiers are share indices, accepted by `frost-core`, gives the outer
context with the outer protocol's own coefficient. -/
lemma innerParamsFromZf_eq_ok_of_isIndex [PrimeOrder P] (hsuite : suite.EncodesScalars)
    (hids : ∀ id ∈ package.identifiers, ∃ v, id.IsIndex v)
    (hnested : ∃ id ∈ package.identifiers, id.IsIndex nestedIndex) {rho c : S}
    (hcontext : outerContext suite package verifyingKey nestedIndex = some (rho, c)) :
    innerParamsFromZf suite package verifyingKey nestedIndex
      = .ok ⟨rho, c, package.lagrangeCoefficient (fromU32 nestedIndex)⟩ := by
  have hinj := fromU32_injective P
  choose! index hindex using hids
  have hall : List.Forall₂ Identifier.IsIndex package.identifiers
      (package.identifiers.map index) :=
    List.forall₂_map_right_iff.mpr (List.forall₂_same.mpr hindex)
  have hnd : (package.identifiers.map index).Nodup := by
    have hvals : ∀ id ∈ package.identifiers, ∀ id' ∈ package.identifiers,
        index id = index id' → id = id' := fun id hid id' hid' heq =>
      Identifier.ext ((hindex id hid).trans (heq ▸ (hindex id' hid').symm))
    exact package.nodup.map_on hvals
  obtain ⟨id, hid, hval⟩ := hnested
  have hmem : nestedIndex ∈ package.identifiers.map index := by
    have heq : index id = nestedIndex := hinj ((hindex id hid).symm.trans hval)
    exact heq ▸ List.mem_map_of_mem hid
  refine (innerParamsFromZf_eq_ok_iff hinj).mpr ⟨_, Outcome.mapM_eq_ok_map fun id hid => ?_, hnd,
    hmem, hcontext, (lagrangeCoeff_of_isIndex hall _).symm⟩
  exact (identifierToIndex_eq_ok_iff hsuite).mpr (.inl (hindex id hid))

end Bridge

end Frostito
