import Mathlib.LinearAlgebra.Dual.Lemmas
import Mathlib.LinearAlgebra.Lagrange
import Mathlib.LinearAlgebra.Matrix.NonsingularInverse
import Mathlib.Tactic.LinearCombination
import Frostito.Lib.Horner

/-!
# Interpolation at zero

The weights that recover the constant term of a polynomial from its values at a finite set
of nodes, and the two facts the threshold schemes rest on: with at least as many nodes as
coefficients the weighted values sum to the constant term, whether the coefficients are
scalars or elements of a module, and the weights of an interpolation never vanish away
from zero nodes.
-/

namespace Interpolation

open Horner Polynomial

variable {F : Type*} [Field F] [DecidableEq F]

/-- The weight of the node `x` when the nodes `s` are interpolated at zero. -/
def weight (s : Finset F) (x : F) : F := ∏ y ∈ s.erase x, y / (y - x)

/-- Of two nodes, each has the other one in its weight. -/
lemma weight_pair {x y : F} (h : x ≠ y) : weight {x, y} x = y / (y - x) := by
  rw [weight, Finset.erase_insert (by simpa using h), Finset.prod_singleton]

/-- The weight of a node tells which other node there is. -/
lemma weight_pair_inj {x y z : F} (hx : x ≠ 0) (hy : x ≠ y) (hz : x ≠ z)
    (h : weight {x, y} x = weight {x, z} x) : y = z := by
  rw [weight_pair hy, weight_pair hz,
    div_eq_div_iff (sub_ne_zero.mpr hy.symm) (sub_ne_zero.mpr hz.symm)] at h
  have hmul : x * (z - y) = 0 := by linear_combination h
  exact (sub_eq_zero.mp ((mul_eq_zero.mp hmul).resolve_left hx)).symm

lemma eval_basis_zero (s : Finset F) (x : F) :
    (Lagrange.basis s id x).eval 0 = weight s x := by
  rw [Lagrange.basis, weight, eval_prod]
  refine Finset.prod_congr rfl fun y _ => ?_
  rw [Lagrange.basisDivisor]
  simp only [id_eq, eval_mul, eval_C, eval_sub, eval_X, zero_sub]
  rw [← neg_sub y x, inv_neg, neg_mul_neg, mul_comm, div_eq_mul_inv]

/-- Interpolation recovers the constant term of a polynomial of degree below the number of
nodes. -/
theorem sum_weight_mul_eval {s : Finset F} {f : F[X]} (hf : f.degree < s.card) :
    ∑ x ∈ s, weight s x * f.eval x = f.eval 0 := by
  conv_rhs => rw [Lagrange.eq_interpolate (v := id) Function.injective_id.injOn hf]
  rw [Lagrange.interpolate_apply, eval_finsetSum]
  refine Finset.sum_congr rfl fun x _ => ?_
  rw [eval_mul, eval_C, eval_basis_zero, id_eq, mul_comm]

lemma sum_weight_mul_pow {s : Finset F} {k : ℕ} (hk : k < s.card) :
    ∑ x ∈ s, weight s x * x ^ k = 0 ^ k := by
  have hdeg : (X ^ k : F[X]).degree < s.card := by
    rw [degree_X_pow]
    exact_mod_cast hk
  simpa using sum_weight_mul_eval hdeg

variable {M : Type*} [AddCommGroup M] [Module F M]

/-- Interpolation in a module: the weighted values of a coefficient list sum to its first
coefficient. -/
theorem sum_weight_smul_horner {s : Finset F} {cs : List M} (h : cs.length ≤ s.card) :
    ∑ x ∈ s, weight s x • horner x cs = cs.headD 0 := by
  have hterm : ∀ x ∈ s, weight s x • horner x cs
      = ∑ k ∈ Finset.range s.card, (weight s x * x ^ k) • cs.getD k 0 := by
    intro x _
    rw [horner_eq_sum x h, Finset.smul_sum]
    simp only [mul_smul]
  rw [Finset.sum_congr rfl hterm, Finset.sum_comm]
  have hcoeff : ∀ k ∈ Finset.range s.card,
      ∑ x ∈ s, (weight s x * x ^ k) • cs.getD k 0 = (0 : F) ^ k • cs.getD k 0 := by
    intro k hk
    rw [← Finset.sum_smul, sum_weight_mul_pow (Finset.mem_range.mp hk)]
  rw [Finset.sum_congr rfl hcoeff]
  cases cs with
  | nil => simp
  | cons c cs =>
    obtain ⟨n, hn⟩ : ∃ n, s.card = n + 1 :=
      Nat.exists_eq_add_one_of_ne_zero (by rintro h0; simp [h0] at h)
    rw [hn, Finset.sum_range_succ']
    simp

/-- A weight vanishes only when some other node is zero. -/
lemma weight_ne_zero {s : Finset F} {x : F} (h0 : (0 : F) ∉ s) : weight s x ≠ 0 := by
  refine Finset.prod_ne_zero_iff.mpr fun y hy => ?_
  obtain ⟨hyx, hys⟩ := Finset.mem_erase.mp hy
  exact div_ne_zero (fun hy0 => h0 (hy0 ▸ hys)) (sub_ne_zero.mpr hyx)

/-! ### Nodes given as a family -/

section Family

variable {ι : Type*} [Fintype ι] {x : ι → F} (hx : Function.Injective x)
include hx

lemma weight_image [DecidableEq ι] (i : ι) :
    weight (Finset.univ.image x) (x i) = ∏ j ∈ Finset.univ.erase i, x j / (x j - x i) := by
  rw [weight, ← Finset.image_erase hx, Finset.prod_image fun _ _ _ _ h => hx h]

lemma sum_weight_image_mul_eval {f : F[X]} (hf : f.degree < Fintype.card ι) :
    ∑ i, weight (Finset.univ.image x) (x i) * f.eval (x i) = f.eval 0 := by
  have hcard : (Finset.univ.image x).card = Fintype.card ι := by
    rw [Finset.card_image_of_injective _ hx, Finset.card_univ]
  rw [← sum_weight_mul_eval (s := Finset.univ.image x) (by rwa [hcard]),
    Finset.sum_image fun _ _ _ _ h => hx h]

end Family

/-! ### Nodes given as a list -/

lemma list_sum_weight_smul_horner {xs : List F} (hxs : xs.Nodup) {cs : List M}
    (h : cs.length ≤ xs.length) :
    (xs.map fun x => weight xs.toFinset x • horner x cs).sum = cs.headD 0 := by
  rw [← List.sum_toFinset _ hxs]
  exact sum_weight_smul_horner (by rwa [List.toFinset_card_of_nodup hxs])

/-! ### Coefficients with given values -/

omit [DecidableEq F] in
lemma horner_ofFn {n : ℕ} (v c : Fin n → F) (i : Fin n) :
    horner (v i) (List.ofFn c) = (Matrix.vandermonde v).mulVec c i := by
  rw [horner_eq_sum (v i) (List.length_ofFn (f := c)).le, Finset.sum_range, Matrix.mulVec,
    dotProduct]
  simp [Matrix.vandermonde]

omit [DecidableEq F] in
/-- At distinct nodes there is exactly one list of as many coefficients with given values. -/
theorem existsUnique_horner {points : List (F × F)} (hnd : (points.map Prod.fst).Nodup) :
    ∃! cs : List F, cs.length = points.length ∧ ∀ p ∈ points, horner p.1 cs = p.2 := by
  have hinj : Function.Injective fun i : Fin points.length => points[i].1 := by
    intro i j hij
    have hpoint : points[i] = points[j] := List.inj_on_of_nodup_map hnd
      (List.getElem_mem i.isLt) (List.getElem_mem j.isLt) hij
    exact List.nodup_iff_injective_get.mp hnd.of_map hpoint
  -- the Vandermonde system of the nodes is invertible
  have hunit : IsUnit (Matrix.vandermonde fun i : Fin points.length => points[i].1) := by
    rw [Matrix.isUnit_iff_isUnit_det, isUnit_iff_ne_zero]
    exact Matrix.det_vandermonde_ne_zero_iff.mpr hinj
  have hvalues : ∀ c : Fin points.length → F, (∀ p ∈ points, horner p.1 (List.ofFn c) = p.2) ↔
      (Matrix.vandermonde fun i : Fin points.length => points[i].1).mulVec c
        = fun i => points[i].2 := by
    intro c
    rw [List.forall_mem_iff_get, funext_iff]
    exact forall_congr' fun i => by rw [← horner_ofFn]; rfl
  obtain ⟨c, hc⟩ := Matrix.mulVec_surjective_iff_isUnit.mpr hunit fun i => points[i].2
  refine ⟨List.ofFn c, ⟨List.length_ofFn, (hvalues c).mpr hc⟩, ?_⟩
  rw [List.forall_iff_forall_tuple]
  rintro n c' ⟨hlen, hc'⟩
  obtain rfl : n = points.length := by simpa using hlen
  rw [Matrix.mulVec_injective_iff_isUnit.mpr hunit (hc.trans ((hvalues c').mp hc').symm)]

omit [DecidableEq F] in
/-- One value less leaves exactly one list of coefficients to every constant term. -/
theorem existsUnique_horner_cons {points : List (F × F)} (hnd : (points.map Prod.fst).Nodup)
    (h0 : 0 ∉ points.map Prod.fst) (secret : F) :
    ∃! cs : List F, cs.length = points.length ∧ ∀ p ∈ points, horner p.1 (secret :: cs) = p.2 := by
  -- the constant term is the value at one more node, zero
  have hpoints : (((0, secret) :: points).map Prod.fst).Nodup := List.nodup_cons.mpr ⟨h0, hnd⟩
  obtain ⟨cs, ⟨hlen, hcs⟩, huniq⟩ := existsUnique_horner hpoints
  rw [List.forall_mem_cons] at hcs
  obtain ⟨c, cs, rfl⟩ := List.exists_cons_of_length_eq_add_one hlen
  obtain rfl : c = secret := by simpa using hcs.1
  refine ⟨cs, ⟨by simpa using hlen, hcs.2⟩, ?_⟩
  rintro cs' ⟨hlen', hcs'⟩
  have htail := huniq (c :: cs') ⟨by simp [hlen'], by simpa using hcs'⟩
  exact (List.cons.inj htail).2

omit [DecidableEq F] in
/-- As many values as there are coefficients determine the coefficients, also in a module. -/
theorem eq_of_horner_eq {M : Type*} [AddCommGroup M] [Module F M] {xs : List F} (hnd : xs.Nodup)
    {cs cs' : List M} (hlen : cs.length = xs.length) (hlen' : cs'.length = xs.length)
    (h : ∀ x ∈ xs, horner x cs = horner x cs') : cs = cs' := by
  -- every linear form sends both to the one list with its values
  have hdual : ∀ φ : Module.Dual F M, cs.map φ = cs'.map φ := by
    intro φ
    have hpoints : ((xs.map fun x => (x, φ (horner x cs))).map Prod.fst).Nodup := by
      rwa [List.map_map, Function.comp_def, List.map_id']
    refine (existsUnique_horner hpoints).unique ⟨by simpa using hlen, ?_⟩ ⟨by simpa using hlen', ?_⟩
    · exact List.forall_mem_map.mpr fun x _ => horner_map φ x cs
    · exact List.forall_mem_map.mpr fun x hx => by rw [h x hx]; exact horner_map φ x cs'
  refine List.ext_getElem (hlen.trans hlen'.symm) fun k hk hk' => ?_
  rw [← sub_eq_zero, ← Module.forall_dual_apply_eq_zero_iff F]
  intro φ
  have hget := List.getElem_of_eq (hdual φ) (by simpa using hk)
  rw [List.getElem_map, List.getElem_map] at hget
  rw [map_sub, hget, sub_self]

/-- As many values as there are coefficients determine the constant term. -/
lemma headD_eq_of_horner_eq {xs : List F} (hnd : xs.Nodup) {cs cs' : List F}
    (hlen : cs.length ≤ xs.length) (hlen' : cs'.length ≤ xs.length)
    (h : ∀ x ∈ xs, horner x cs = horner x cs') : cs.headD 0 = cs'.headD 0 := by
  rw [← list_sum_weight_smul_horner hnd hlen, ← list_sum_weight_smul_horner hnd hlen']
  congr 1
  exact List.map_congr_left fun x hx => by rw [h x hx]

end Interpolation
