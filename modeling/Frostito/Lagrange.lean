import Frostito.Curve
import Frostito.Error
import Frostito.Lib.Interpolation
import Frostito.Lib.Outcome
import Frostito.Lib.Sharing
import Frostito.Lib.Sorted
import Frostito.Reference.Backend

/-!
# Lagrange interpolation coefficient computation

The common denominator technique: with `ξ` the product of the indices, `d_i` the index
times its differences to the others, `ρ_i` the product of the other `d_j` and `d̄` the
product of all of them, the coefficient is `ξ · ρ_i · d̄⁻¹`.  One inversion serves all
coefficients.  The main result is that this is the interpolation weight at zero of every
index, in input order, and that the call fails exactly on lists that are empty, contain
zero or repeat an index.
-/

namespace Frostito

variable {S : Type} [CurveScalar S]

/-- `d_i = i · Π_{j ≠ i} (j - i)`, the positions compared and not the values. -/
def dValue (scalars : List S) (xi : S) (i : ℕ) : S :=
  scalars.zipIdx.foldl (fun d p => if i ≠ p.2 then d * (p.1 - xi) else d) xi

/-- The vector of the `d_i`. -/
def dValues (scalars : List S) : List S :=
  scalars.zipIdx.map fun p => dValue scalars p.1 p.2

/-- Forward pass: at each position, the product of the `d_j` before it. -/
def forwardPass (acc : S) : List S → List S
  | [] => []
  | d :: ds => acc :: forwardPass (acc * d) ds

/-- Backward pass: multiply each entry by the product of the `d_j` after it.  The second
component is the running suffix product. -/
def backwardPass : List (S × S) → List S × S
  | [] => ([], 1)
  | (rho, d) :: rest =>
    let after := backwardPass rest
    (rho * after.2 :: after.1, after.2 * d)

/-- Compute Lagrange interpolation coefficients for a set of indices. -/
def computeLagrangeCoefficients (indices : List UInt32) : Outcome Error (List S) := do
  .refuse (indices.length = 0) .emptyContributions
  indices.forM fun idx => .refuse (idx = 0) .invalidIndex
  match Sorted.firstRepeat (indices.insertionSort (· ≤ ·)) with
  | some dup => .err (.duplicateIndex dup)
  | none =>
    -- the special case of a single element needs no inversion
    if indices.length = 1 then .ok [1] else
    let scalars : List S := indices.map fromU32
    let xi := scalars.foldl (fun acc x => acc * x) 1
    let ds := dValues scalars
    let passes := backwardPass ((forwardPass 1 ds).zip ds)
    let dBar := passes.2
    -- the debug assertion that `d̄` is not zero
    if dBar = 0 then .panic else
    let delta := xi * dBar⁻¹
    .ok (passes.1.map fun rho => delta * rho)

/-- The common denominator `d̄` that a call with these indices inverts. -/
def dBar (indices : List UInt32) : S :=
  let ds : List S := dValues (indices.map fromU32)
  (backwardPass ((forwardPass 1 ds).zip ds)).2

/-- The Lagrange combination of shares: what a quorum would compute from the shares it
holds. -/
def reconstruct (shares : List (UInt32 × S)) : Outcome Error S := do
  let lambdas ← computeLagrangeCoefficients (shares.map Prod.fst)
  .ok ((shares.zip lambdas).foldl (fun acc p => acc + p.2 * p.1.2) 0)

/-- The indices a list of coefficients exists for. -/
structure ValidIndices (indices : List UInt32) : Prop where
  ne_nil : indices ≠ []
  zero_notMem : 0 ∉ indices
  nodup : indices.Nodup

omit [CurveScalar S] in
lemma ValidIndices.perm {indices indices' : List UInt32} (h : ValidIndices indices)
    (hperm : indices.Perm indices') : ValidIndices indices' :=
  ⟨fun hnil => h.ne_nil (hnil ▸ hperm).eq_nil, fun h0 => h.zero_notMem (hperm.mem_iff.mpr h0),
    hperm.nodup_iff.mp h.nodup⟩

/-- The interpolation nodes of a list of indices. -/
def nodes (indices : List UInt32) : Finset S := (indices.map fromU32).toFinset

/-- The Lagrange coefficient of the index `i` in the set `indices`. -/
def lagrangeCoeff (indices : List UInt32) (i : UInt32) : S :=
  Interpolation.weight (nodes indices) (fromU32 i)

/-! ### The two passes -/

/-- Each entry of the two passes is the product of the other entries. -/
lemma forall₂_passes (acc : S) (ds : List S) :
    List.Forall₂ (fun rho d => rho * d = acc * ds.prod)
      (backwardPass ((forwardPass acc ds).zip ds)).1 ds ∧
    (backwardPass ((forwardPass acc ds).zip ds)).2 = ds.prod := by
  induction ds generalizing acc with
  | nil => exact ⟨.nil, rfl⟩
  | cons d ds ih =>
    obtain ⟨hrho, hsuffix⟩ := ih (acc * d)
    rw [forwardPass, List.zip_cons_cons, backwardPass]
    refine ⟨.cons ?_ ?_, ?_⟩
    · rw [hsuffix, List.prod_cons]
      ring
    · refine hrho.imp fun rho d' h => ?_
      rw [h, List.prod_cons]
      ring
    · rw [hsuffix, List.prod_cons]
      ring

/-- The coefficients the two passes lead to are `ξ / d_i`. -/
lemma map_delta_eq_div {ds : List S} (hds : ds.prod ≠ 0) (xi : S) :
    (backwardPass ((forwardPass 1 ds).zip ds)).1.map
      (fun rho => xi * (backwardPass ((forwardPass 1 ds).zip ds)).2⁻¹ * rho)
      = ds.map fun d => xi / d := by
  obtain ⟨hrho, hsuffix⟩ := forall₂_passes 1 ds
  rw [hsuffix, ← List.forall₂_eq_eq_eq, List.forall₂_map_left_iff, List.forall₂_map_right_iff]
  refine hrho.imp fun rho d hprod => ?_
  rw [one_mul] at hprod
  have hne : rho * d ≠ 0 := hprod ▸ hds
  have hrho0 : rho ≠ 0 := left_ne_zero_of_mul hne
  have hd0 : d ≠ 0 := right_ne_zero_of_mul hne
  rw [← hprod]
  field_simp

/-! ### The values `d_i` -/

lemma map_zipIdx_fst {α β : Type} (l : List α) (f : α → β) :
    (l.zipIdx.map fun p => f p.1) = l.map f := by
  conv_rhs => rw [← List.zipIdx_map_fst 0 l]
  rw [List.map_map]
  rfl

lemma dValue_foldl (l : List (S × ℕ)) (xi a : S) (i : ℕ) :
    l.foldl (fun d p => if i ≠ p.2 then d * (p.1 - xi) else d) a
      = a * (l.map fun p => if i ≠ p.2 then p.1 - xi else 1).prod := by
  induction l generalizing a with
  | nil => simp
  | cons p l ih =>
    rw [List.foldl_cons, ih, List.map_cons, List.prod_cons]
    split <;> ring

/-- With distinct scalars, comparing positions is comparing values. -/
lemma dValue_eq {scalars : List S} (hnd : scalars.Nodup) {xi : S} {i : ℕ}
    (hi : (xi, i) ∈ scalars.zipIdx) :
    dValue scalars xi i = xi * ∏ y ∈ scalars.toFinset.erase xi, (y - xi) := by
  have hpos : ∀ p ∈ scalars.zipIdx, (if i ≠ p.2 then p.1 - xi else 1)
      = (fun y => if y = xi then 1 else y - xi) p.1 := by
    rintro ⟨y, j⟩ hj
    have hyj := List.mem_zipIdx_iff_getElem?.mp hj
    have hxi := List.mem_zipIdx_iff_getElem?.mp hi
    by_cases h : i = j
    · subst h
      have hyx : y = xi := by simpa using hyj.symm.trans hxi
      simp [hyx]
    · have hyx : y ≠ xi := by
        rintro rfl
        obtain ⟨hlt, hget⟩ := List.getElem?_eq_some_iff.mp hxi
        obtain ⟨hlt', hget'⟩ := List.getElem?_eq_some_iff.mp hyj
        exact h ((List.Nodup.getElem_inj_iff hnd).mp (hget.trans hget'.symm))
      simp [h, hyx]
  have hmem : xi ∈ scalars.toFinset :=
    List.mem_toFinset.mpr (List.mem_of_getElem? (List.mem_zipIdx_iff_getElem?.mp hi))
  rw [dValue, dValue_foldl, List.map_congr_left hpos,
    map_zipIdx_fst scalars fun y => if y = xi then 1 else y - xi,
    ← List.prod_toFinset _ hnd, ← Finset.mul_prod_erase _ _ hmem]
  rw [if_pos rfl, one_mul]
  congr 1
  exact Finset.prod_congr rfl fun y hy => if_neg (Finset.ne_of_mem_erase hy)

lemma dValues_eq {scalars : List S} (hnd : scalars.Nodup) :
    dValues scalars
      = scalars.map fun x => x * ∏ y ∈ scalars.toFinset.erase x, (y - x) := by
  have h : ∀ p ∈ scalars.zipIdx, dValue scalars p.1 p.2
      = (fun x => x * ∏ y ∈ scalars.toFinset.erase x, (y - x)) p.1 :=
    fun p hp => dValue_eq hnd hp
  rw [dValues, List.map_congr_left h]
  exact map_zipIdx_fst scalars fun x => x * ∏ y ∈ scalars.toFinset.erase x, (y - x)

/-- `ξ / d_i` is the interpolation weight of the `i`-th scalar. -/
lemma xi_div_dValue {scalars : List S} (hnd : scalars.Nodup) (h0 : 0 ∉ scalars) {x : S}
    (hx : x ∈ scalars) :
    scalars.prod / (x * ∏ y ∈ scalars.toFinset.erase x, (y - x))
      = Interpolation.weight scalars.toFinset x := by
  have hx0 : x ≠ 0 := fun h => h0 (h ▸ hx)
  have hprod : scalars.prod = x * ∏ y ∈ scalars.toFinset.erase x, y := by
    rw [Finset.mul_prod_erase _ (fun y => y) (List.mem_toFinset.mpr hx),
      List.prod_toFinset _ hnd, List.map_id']
  rw [hprod, mul_div_mul_left _ _ hx0, Interpolation.weight, Finset.prod_div_distrib]

/-! ### The result of the call -/

lemma firstRepeat_sort_eq_none_iff {indices : List UInt32} :
    Sorted.firstRepeat (indices.insertionSort (· ≤ ·)) = none ↔ indices.Nodup := by
  rw [Sorted.firstRepeat_eq_none_iff (List.pairwise_insertionSort (· ≤ ·) indices)]
  exact (List.perm_insertionSort (· ≤ ·) indices).nodup_iff

/-- The call gets past its checks exactly on a valid list of indices. -/
lemma validIndices_of_eq_ok {indices : List UInt32} {cs : List S}
    (h : computeLagrangeCoefficients indices = .ok cs) : ValidIndices indices := by
  unfold computeLagrangeCoefficients at h
  obtain ⟨_, hne, h⟩ := Outcome.bind_eq_ok_iff.mp h
  obtain ⟨_, hzero, h⟩ := Outcome.bind_eq_ok_iff.mp h
  split at h
  · exact absurd h (by simp)
  · next hrep =>
    refine ⟨?_, ?_, firstRepeat_sort_eq_none_iff.mp hrep⟩
    · simpa using hne
    · intro hmem
      exact Outcome.refuse_eq_ok_iff.mp (Outcome.forM_eq_ok_iff.mp hzero 0 hmem) rfl

/-- Past its checks the call returns the weights, or the one of a single index. -/
lemma computeLagrangeCoefficients_of_valid {indices : List UInt32} (h : ValidIndices indices) :
    computeLagrangeCoefficients (S := S) indices =
      if indices.length = 1 then .ok [1] else
        let ds := dValues (indices.map fromU32 : List S)
        let passes := backwardPass ((forwardPass 1 ds).zip ds)
        if passes.2 = 0 then .panic else
        .ok (passes.1.map fun rho =>
          (indices.map fromU32).foldl (fun acc x => acc * x) 1 * passes.2⁻¹ * rho) := by
  have hzero : (indices.forM fun idx => (.refuse (idx = 0) .invalidIndex : Outcome Error Unit))
      = .ok () := by
    refine Outcome.forM_eq_ok_iff.mpr fun i hi => ?_
    exact Outcome.refuse_of_neg (by rintro rfl; exact h.zero_notMem hi) _
  have hlen : ¬indices.length = 0 := by simpa using h.ne_nil
  rw [computeLagrangeCoefficients, Outcome.refuse_of_neg hlen, Outcome.ok_bind, hzero,
    Outcome.ok_bind, firstRepeat_sort_eq_none_iff.mpr h.nodup]

/-- The coefficients depend on the set of the indices only. -/
lemma lagrangeCoeff_congr {indices indices' : List UInt32}
    (h : ∀ i, i ∈ indices ↔ i ∈ indices') :
    (lagrangeCoeff indices : UInt32 → S) = lagrangeCoeff indices' := by
  have hnodes : (nodes indices : Finset S) = nodes indices' := by
    ext x
    simp [nodes, h]
  funext i
  rw [lagrangeCoeff, lagrangeCoeff, hnodes]

/-- Walking a list in step with what a function makes of it. -/
lemma zip_map_self {α β : Type} (f : α → β) (l : List α) :
    l.zip (l.map f) = l.map fun x => (x, f x) := by
  rw [← List.zip_map', List.map_id']

section Injective

variable (hinj : Function.Injective (fromU32 : UInt32 → S))
include hinj

lemma zero_notMem_map_fromU32 {indices : List UInt32} (h : 0 ∉ indices) :
    (0 : S) ∉ indices.map fromU32 := by
  intro hmem
  obtain ⟨i, hi, h0⟩ := List.mem_map.mp hmem
  rw [← fromU32_zero] at h0
  exact h (hinj h0 ▸ hi)

/-- No share enters a combination with the coefficient zero. -/
lemma lagrangeCoeff_ne_zero {indices : List UInt32} (h : 0 ∉ indices) (i : UInt32) :
    (lagrangeCoeff indices i : S) ≠ 0 :=
  Interpolation.weight_ne_zero fun hmem =>
    zero_notMem_map_fromU32 hinj h (List.mem_toFinset.mp hmem)

/-- `d̄` is the product of the scalars and of their differences, so the inverse exists. -/
lemma prod_dValues_ne_zero {indices : List UInt32} (h : ValidIndices indices) :
    (dValues (indices.map fromU32 : List S)).prod ≠ 0 := by
  have h0 := zero_notMem_map_fromU32 hinj h.zero_notMem
  rw [dValues_eq (h.nodup.map hinj)]
  refine List.prod_ne_zero fun hmem => ?_
  obtain ⟨x, hx, hd⟩ := List.mem_map.mp hmem
  rcases mul_eq_zero.mp hd with hx0 | hdiff
  · exact h0 (hx0 ▸ hx)
  · obtain ⟨y, hy, hyx⟩ := Finset.prod_eq_zero_iff.mp hdiff
    exact Finset.ne_of_mem_erase hy (sub_eq_zero.mp hyx)

/-- **The coefficients of a valid list of indices are their interpolation weights.** -/
theorem computeLagrangeCoefficients_eq {indices : List UInt32} (h : ValidIndices indices) :
    computeLagrangeCoefficients (S := S) indices
      = .ok (indices.map (lagrangeCoeff indices)) := by
  rw [computeLagrangeCoefficients_of_valid h]
  split
  · -- the only coefficient is the empty product
    next h1 =>
    obtain ⟨i, rfl⟩ := List.length_eq_one_iff.mp h1
    simp [lagrangeCoeff, nodes, Interpolation.weight]
  · have hnd : (indices.map fromU32 : List S).Nodup := h.nodup.map hinj
    have h0 := zero_notMem_map_fromU32 hinj h.zero_notMem
    have hfold : (indices.map fromU32).foldl (fun acc x => acc * x) 1
        = (indices.map fromU32 : List S).prod := List.prod_eq_foldl.symm
    have hprod := prod_dValues_ne_zero hinj h
    simp only
    rw [(forall₂_passes 1 _).2, if_neg hprod, hfold]
    have hdelta := map_delta_eq_div hprod (indices.map fromU32).prod
    rw [(forall₂_passes 1 _).2] at hdelta
    rw [hdelta, dValues_eq hnd, List.map_map, List.map_map]
    congr 1
    refine List.map_congr_left fun i hi => ?_
    exact xi_div_dValue hnd h0 (List.mem_map_of_mem hi)

/-- The call succeeds exactly on valid lists of indices, and never panics. -/
theorem computeLagrangeCoefficients_eq_ok_iff {indices : List UInt32} {cs : List S} :
    computeLagrangeCoefficients indices = .ok cs ↔
      ValidIndices indices ∧ cs = indices.map (lagrangeCoeff indices) := by
  constructor
  · intro h
    have hvalid := validIndices_of_eq_ok h
    rw [computeLagrangeCoefficients_eq hinj hvalid] at h
    exact ⟨hvalid, (Outcome.ok.inj h).symm⟩
  · rintro ⟨hvalid, rfl⟩
    exact computeLagrangeCoefficients_eq hinj hvalid

/-- The debug assertion never fails. -/
lemma computeLagrangeCoefficients_ne_panic (indices : List UInt32) :
    computeLagrangeCoefficients (S := S) indices ≠ .panic := by
  by_cases hvalid : ValidIndices indices
  · rw [computeLagrangeCoefficients_eq hinj hvalid]
    simp
  · refine Outcome.refuse_bind_ne_panic fun hne => ?_
    refine Outcome.bind_ne_panic
      (Outcome.forM_ne_panic fun _ _ => Outcome.refuse_ne_panic _ _) fun _ hzero => ?_
    cases hrep : Sorted.firstRepeat (indices.insertionSort (· ≤ ·)) with
    | some dup => simp
    | none =>
      refine absurd ⟨?_, fun h0 => ?_, firstRepeat_sort_eq_none_iff.mp hrep⟩ hvalid
      · simpa using hne
      · exact Outcome.refuse_eq_ok_iff.mp (Outcome.forM_eq_ok_iff.mp hzero 0 h0) rfl

/-- The combination of shares at valid indices. -/
lemma reconstruct_eq {indices : List UInt32} (h : ValidIndices indices) (share : UInt32 → S) :
    reconstruct (indices.map fun j => (j, share j))
      = .ok (indices.map fun j => lagrangeCoeff indices j * share j).sum := by
  have hfst : (indices.map fun j => (j, share j)).map Prod.fst = indices := by
    rw [List.map_map]
    exact List.map_id' indices
  rw [reconstruct, hfst, computeLagrangeCoefficients_eq hinj h, Outcome.ok_bind,
    List.zip_map', List.foldl_map, List.sum_eq_foldl, List.foldl_map]

/-- **As many shares of one sharing as it has coefficients combine to its secret.** -/
theorem reconstruct_of_isShare {M : Type} [AddCommGroup M] [Module S M] {g : M}
    {indices : List UInt32} (h : ValidIndices indices) {cs : List M}
    (hlen : cs.length ≤ indices.length) {share : UInt32 → S}
    (hshare : ∀ j ∈ indices, Sharing.IsShare g cs (fromU32 j) (share j)) :
    ∃ secret, reconstruct (indices.map fun j => (j, share j)) = .ok secret ∧
      secret • g = cs.headD 0 := by
  refine ⟨_, reconstruct_eq hinj h share, ?_⟩
  exact Sharing.reconstruct (h.nodup.map hinj) hlen hshare

/-- The shares of a polynomial no longer than the quorum interpolate to its constant term. -/
lemma sum_lagrangeCoeff_mul {quorum : List UInt32} (hnd : quorum.Nodup) {g : List S}
    (hdeg : g.length ≤ quorum.length) {sigma : UInt32 → S}
    (hsigma : ∀ k ∈ quorum, sigma k = Horner.horner (fromU32 k : S) g) :
    (quorum.map fun k => lagrangeCoeff quorum k * sigma k).sum = Horner.horner (0 : S) g := by
  have hshare : ∀ k ∈ quorum, Sharing.IsShare (1 : S) g (fromU32 k) (sigma k) := by
    intro k hk
    rw [Sharing.IsShare, smul_eq_mul, mul_one, hsigma k hk]
  have hreconstruct := Sharing.reconstruct (hnd.map hinj) hdeg hshare
  rw [smul_eq_mul, mul_one, ← Horner.horner_zero (R := S)] at hreconstruct
  exact hreconstruct

/-! ### The coefficients by position -/

lemma dBar_ne_zero {indices : List UInt32} (h : ValidIndices indices) :
    (dBar indices : S) ≠ 0 := by
  rw [dBar, (forall₂_passes 1 _).2]
  exact prod_dValues_ne_zero hinj h

/-- The scalar at a position of the list of indices. -/
lemma injective_fromU32_getElem {indices : List UInt32} (hnd : indices.Nodup) :
    Function.Injective fun i : Fin indices.length => (fromU32 indices[i] : S) :=
  fun _ _ h => List.nodup_iff_injective_get.mp hnd (hinj h)

omit hinj in
lemma nodes_eq_image (indices : List UInt32) :
    (nodes indices : Finset S)
      = Finset.univ.image fun i : Fin indices.length => (fromU32 indices[i] : S) := by
  ext x
  simp [nodes, List.mem_iff_get]

/-- The coefficients stand in the order of the indices. -/
lemma computeLagrangeCoefficients_eq_ofFn {indices : List UInt32} (h : ValidIndices indices) :
    computeLagrangeCoefficients (S := S) indices
      = .ok (List.ofFn fun i : Fin indices.length => lagrangeCoeff indices indices[i]) := by
  have hmap : (List.ofFn indices.get).map (lagrangeCoeff indices : UInt32 → S)
      = List.ofFn fun i : Fin indices.length => lagrangeCoeff indices indices[i] := List.map_ofFn
  rw [computeLagrangeCoefficients_eq hinj h, ← hmap, List.ofFn_get]

end Injective

/-- **The Lagrange coefficients are correct for every list of indices.** -/
theorem computeLagrangeCoefficients_correct (hprime : (Nat.card S).Prime)
    (hlt : 2 ^ 32 < Nat.card S) (indices : List UInt32) :
    ((∃ cs : List S, computeLagrangeCoefficients indices = .ok cs) ↔
      indices ≠ [] ∧ 0 ∉ indices ∧ indices.Nodup) ∧
    (indices ≠ [] ∧ 0 ∉ indices ∧ indices.Nodup →
      (dBar indices : S) ≠ 0 ∧
      ∃ lambda : Fin indices.length → S,
        computeLagrangeCoefficients indices = .ok (List.ofFn lambda) ∧
        (∀ i, lambda i = ∏ j ∈ Finset.univ.erase i,
          (fromU32 indices[j] / (fromU32 indices[j] - fromU32 indices[i]) : S)) ∧
        (∀ σ : Equiv.Perm (Fin indices.length),
          computeLagrangeCoefficients (List.ofFn fun i => indices[σ i])
            = .ok (List.ofFn fun i => lambda (σ i))) ∧
        ∀ f : Polynomial S, f.degree < indices.length →
          ∑ i, lambda i * f.eval (fromU32 indices[i]) = f.eval 0) := by
  have hinj := fromU32_injective_of_prime_card hprime hlt
  refine ⟨⟨?_, ?_⟩, ?_⟩
  · rintro ⟨cs, hcs⟩
    have hvalid := validIndices_of_eq_ok hcs
    exact ⟨hvalid.ne_nil, hvalid.zero_notMem, hvalid.nodup⟩
  · rintro ⟨hne, h0, hnd⟩
    exact ⟨_, computeLagrangeCoefficients_eq hinj ⟨hne, h0, hnd⟩⟩
  rintro ⟨hne, h0, hnd⟩
  have hvalid : ValidIndices indices := ⟨hne, h0, hnd⟩
  have hpoint := injective_fromU32_getElem hinj hnd
  refine ⟨dBar_ne_zero hinj hvalid, fun i => lagrangeCoeff indices indices[i],
    computeLagrangeCoefficients_eq_ofFn hinj hvalid, ?_, ?_, ?_⟩
  · intro i
    have hweight := Interpolation.weight_image hpoint i
    rwa [← nodes_eq_image] at hweight
  · intro σ
    have hperm : (List.ofFn fun i => indices[σ i]).Perm indices := by
      conv_rhs => rw [← List.ofFn_get indices]
      exact σ.ofFn_comp_perm indices.get
    rw [computeLagrangeCoefficients_eq hinj (hvalid.perm hperm.symm), List.map_ofFn,
      lagrangeCoeff_congr fun _ => hperm.mem_iff]
    rfl
  · intro f hf
    have hsum := Interpolation.sum_weight_image_mul_eval hpoint (f := f) (by simpa using hf)
    rwa [← nodes_eq_image] at hsum

open Reference in
theorem computeLagrangeCoefficients_correct_four : (dBar [4, 1, 7, 2] : Residue) ≠ 0 :=
  ((computeLagrangeCoefficients_correct (by rw [Nat.card_zmod]; exact prime_order)
    (by rw [Nat.card_zmod]; exact lt_order) [4, 1, 7, 2]).2 (by decide)).1

end Frostito
