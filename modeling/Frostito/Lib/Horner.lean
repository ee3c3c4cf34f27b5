import Mathlib.Algebra.BigOperators.GroupWithZero.Action
import Mathlib.Algebra.Module.BigOperators
import Mathlib.Algebra.Module.LinearMap.Basic
import Mathlib.Data.List.GetD

/-!
# Horner evaluation of a list of coefficients

`horner x cs` is the value at `x` of the polynomial whose coefficients, lowest first, are
the list `cs`.  The coefficients live in any module over the ring of the points, so one
definition serves a polynomial with scalar coefficients and one whose coefficients are
only known "in the exponent", as elements of a group the scalars act on.
-/

namespace Horner

variable {R M N : Type*} [CommSemiring R] [AddCommMonoid M] [Module R M]
  [AddCommMonoid N] [Module R N]

/-- Evaluation with Horner's rule, the highest coefficient first. -/
def horner (x : R) (cs : List M) : M :=
  cs.reverse.foldl (fun result c => x • result + c) 0

@[simp] lemma horner_nil (x : R) : horner x ([] : List M) = 0 := rfl

@[simp] lemma horner_cons (x : R) (c : M) (cs : List M) :
    horner x (c :: cs) = x • horner x cs + c := by
  simp [horner, List.foldl_append]

/-- The value at zero is the constant term. -/
lemma horner_zero (cs : List M) : horner (0 : R) cs = cs.headD 0 := by
  cases cs <;> simp

/-- Zeros behind the constant term do not change the value. -/
lemma horner_replicate_zero (x : R) (m : ℕ) : horner x (List.replicate m (0 : M)) = 0 := by
  induction m with
  | zero => simp
  | succ m ih => rw [List.replicate_succ, horner_cons, ih, smul_zero, add_zero]

/-- Scalar coefficients times a base point evaluate to the scalar value times it. -/
lemma horner_map_smul (g : M) (x : R) (as : List R) :
    horner x (as.map fun a => a • g) = horner x as • g := by
  induction as with
  | nil => simp
  | cons a as ih => simp [ih, add_smul, mul_smul]

/-- Evaluation commutes with linear maps of the coefficients. -/
lemma horner_map (f : M →ₗ[R] N) (x : R) (cs : List M) :
    horner x (cs.map f) = f (horner x cs) := by
  induction cs with
  | nil => simp
  | cons c cs ih => simp [ih]

/-- Evaluation as a sum of powers, over any range that covers the coefficients. -/
lemma horner_eq_sum (x : R) {cs : List M} {t : ℕ} (h : cs.length ≤ t) :
    horner x cs = ∑ k ∈ Finset.range t, x ^ k • cs.getD k 0 := by
  induction cs generalizing t with
  | nil => simp
  | cons c cs ih =>
    obtain ⟨t, rfl⟩ : ∃ t', t = t' + 1 :=
      Nat.exists_eq_add_one_of_ne_zero (by rintro rfl; simp at h)
    have hlen : cs.length ≤ t := by simpa using h
    rw [horner_cons, ih hlen, Finset.sum_range_succ', Finset.smul_sum]
    simp [pow_succ', mul_smul]

/-- The value at one is the sum of the coefficients. -/
lemma horner_one (cs : List M) : horner (1 : R) cs = cs.sum := by
  induction cs with
  | nil => rfl
  | cons c cs ih => rw [horner_cons, ih, one_smul, List.sum_cons, add_comm]

/-- Evaluation commutes with weighted sums of the coefficients. -/
theorem sum_smul_horner {ι κ : Type*} (l : List ι) (w : ι → R) (y : R) (gs : List κ)
    (v : κ → ι → M) :
    (l.map fun k => w k • horner y (gs.map fun g => v g k)).sum
      = horner y (gs.map fun g => (l.map fun k => w k • v g k).sum) := by
  induction gs with
  | nil => simp
  | cons g gs ih =>
    have hterm : ∀ k, w k • horner y ((g :: gs).map fun g => v g k)
        = y • (w k • horner y (gs.map fun g => v g k)) + w k • v g k := by
      intro k
      rw [List.map_cons, horner_cons, smul_add, smul_comm]
    simp only [hterm]
    rw [List.sum_map_add, List.map_cons, horner_cons, ← ih, List.smul_sum, List.map_map]
    rfl

/-! ### Coefficientwise combinations -/

/-- A finite sum of list sums is the list sum of the finite sums. -/
lemma sum_list_sum_comm {ι κ : Type*} (s : Finset κ) (l : List ι) (f : κ → ι → M) :
    ∑ k ∈ s, (l.map (f k)).sum = (l.map fun d => ∑ k ∈ s, f k d).sum := by
  induction l with
  | nil => simp
  | cons d l ih => simp only [List.map_cons, List.sum_cons, Finset.sum_add_distrib, ih]

/-- The weighted coefficientwise sum of a family of coefficient lists, `t` coefficients
long. -/
def combine {ι : Type*} (t : ℕ) (D : List ι) (w : ι → R) (c : ι → List M) : List M :=
  (List.range t).map fun k => (D.map fun d => w d • (c d).getD k 0).sum

section Combine

variable {ι : Type*} (t : ℕ) (D : List ι) (w : ι → R) (c : ι → List M)

@[simp] lemma length_combine : (combine t D w c).length = t := by simp [combine]

lemma getD_combine {k : ℕ} (hk : k < t) :
    (combine t D w c).getD k 0 = (D.map fun d => w d • (c d).getD k 0).sum := by
  simp [combine, List.getD_eq_getElem?_getD, hk]

variable {t D w c} in
/-- A combination depends on the members of the family only. -/
lemma combine_congr {c' : ι → List M} (h : ∀ d ∈ D, c d = c' d) :
    combine t D w c = combine t D w c' := by
  refine List.map_congr_left fun k _ => congrArg List.sum (List.map_congr_left fun d hd => ?_)
  rw [h d hd]

/-- Combining coefficients combines the values. -/
theorem horner_combine (x : R) (hc : ∀ d ∈ D, (c d).length ≤ t) :
    horner x (combine t D w c) = (D.map fun d => w d • horner x (c d)).sum := by
  have hget : ∀ k ∈ Finset.range t, x ^ k • (combine t D w c).getD k 0
      = (D.map fun d => w d • x ^ k • (c d).getD k 0).sum := by
    intro k hk
    rw [getD_combine t D w c (Finset.mem_range.mp hk), List.smul_sum, List.map_map]
    exact congrArg List.sum (List.map_congr_left fun d _ => smul_comm _ _ _)
  have hval : ∀ d ∈ D, w d • horner x (c d)
      = ∑ k ∈ Finset.range t, w d • x ^ k • (c d).getD k 0 := by
    intro d hd
    rw [horner_eq_sum x (hc d hd), Finset.smul_sum]
  rw [horner_eq_sum x (length_combine t D w c).le, Finset.sum_congr rfl hget,
    List.map_congr_left hval, sum_list_sum_comm]

end Combine

section Difference

variable {ι R M : Type*} [CommRing R] [AddCommGroup M] [Module R M]

/-- Two families of one length combine to the same coefficients exactly when the weighted
differences cancel. -/
theorem combine_eq_combine_iff {t : ℕ} {D : List ι} (w : ι → R) {c c' : ι → List M}
    (hc : ∀ d ∈ D, (c d).length ≤ t) (hc' : ∀ d ∈ D, (c' d).length ≤ t) :
    combine t D w c = combine t D w c' ↔
      ∀ k, (D.map fun d => w d • ((c d).getD k 0 - (c' d).getD k 0)).sum = 0 := by
  have hsub : ∀ k, (D.map fun d => w d • ((c d).getD k 0 - (c' d).getD k 0)).sum
      = (D.map fun d => w d • (c d).getD k 0).sum
        - (D.map fun d => w d • (c' d).getD k 0).sum := by
    intro k
    simp only [smul_sub]
    exact Multiset.sum_map_sub (m := (D : Multiset ι))
  constructor
  · intro h k
    by_cases hk : k < t
    · rw [hsub, ← getD_combine t D w c hk, h, getD_combine t D w c' hk, sub_self]
    · -- beyond the common length both families are zero
      refine List.sum_eq_zero fun x hx => ?_
      obtain ⟨d, hd, rfl⟩ := List.mem_map.mp hx
      rw [List.getD_eq_default _ _ (by have := hc d hd; omega),
        List.getD_eq_default _ _ (by have := hc' d hd; omega), sub_zero, smul_zero]
  · intro h
    refine List.ext_getElem (by simp) fun k hk hk' => ?_
    have hkt : k < t := by simpa using hk
    rw [← List.getD_eq_getElem _ 0 hk, ← List.getD_eq_getElem _ 0 hk', getD_combine _ _ _ _ hkt,
      getD_combine _ _ _ _ hkt]
    exact sub_eq_zero.mp ((hsub k).symm.trans (h k))

end Difference

end Horner
