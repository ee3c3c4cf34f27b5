import Mathlib.FieldTheory.Finiteness
import Mathlib.LinearAlgebra.Dual.Lemmas

/-!
# Checking many equations at once

Instead of checking that each of finitely many defects is zero, one draws a weight for each
and checks that the weighted sum of the defects is zero.  Defects that are all zero pass with
every weight.  As soon as one of them is not zero, in a group in which every element is a
multiple of one, exactly one in `q` of the weight vectors passes, whatever the other defects
are: the weighted sum is a nonzero linear form in the weights.
-/

namespace Batching

variable {F M ι : Type*} [Field F] [AddCommGroup M] [Module F M] [Fintype ι]

/-- The equation that is checked in place of all of them. -/
def Passes (defect : ι → M) (w : ι → F) : Prop := ∑ i, w i • defect i = 0

lemma passes_of_forall_eq_zero {defect : ι → M} (h : ∀ i, defect i = 0) (w : ι → F) :
    Passes defect w := by
  simp [Passes, h]

/-- The weighted sum as a linear form, the defects being multiples of one element. -/
lemma passes_smul_iff {g : M} (hg : Function.Injective fun x : F => x • g) (x w : ι → F) :
    Passes (fun i => x i • g) w ↔ ∑ i, w i * x i = 0 := by
  have hsum : ∑ i, w i • x i • g = (∑ i, w i * x i) • g := by
    simp only [Finset.sum_smul, mul_smul]
  rw [Passes, hsum]
  exact ⟨fun h => hg (h.trans (zero_smul F g).symm), fun h => by rw [h, zero_smul]⟩

/-- A nonzero linear form has one in `q` of all vectors in its kernel. -/
lemma card_linear_form {x : ι → F} (hx : ∃ i, x i ≠ 0) :
    Nat.card {w : ι → F // ∑ i, w i * x i = 0} = Nat.card F ^ (Fintype.card ι - 1) := by
  classical
  let form : Module.Dual F (ι → F) := Fintype.linearCombination F x
  have hform : ∀ w, form w = ∑ i, w i * x i := fun w => Fintype.linearCombination_apply F x w
  have hne : form ≠ 0 := by
    obtain ⟨i, hi⟩ := hx
    intro h
    have hsingle : form (Pi.single i 1) = x i := by
      simp [form, Fintype.linearCombination_apply_single]
    rw [h] at hsingle
    exact hi hsingle.symm
  have hdim : Module.finrank F (LinearMap.ker form) + 1 = Fintype.card ι := by
    rw [Module.Dual.finrank_ker_add_one_of_ne_zero hne, Module.finrank_fintype_fun_eq_card]
  calc Nat.card {w : ι → F // ∑ i, w i * x i = 0}
      = Nat.card (LinearMap.ker form) :=
        Nat.card_congr (Equiv.subtypeEquivRight fun w => by rw [LinearMap.mem_ker, hform])
    _ = Nat.card F ^ Module.finrank F (LinearMap.ker form) := Module.natCard_eq_pow_finrank
    _ = Nat.card F ^ (Fintype.card ι - 1) := by rw [← hdim, Nat.add_sub_cancel]

/-- **One in `q` weight vectors lets a defect through**, however many there are and however
they are chosen. -/
theorem card_passes {g : M} (hg : Function.Bijective fun x : F => x • g) {defect : ι → M}
    (h : ∃ i, defect i ≠ 0) :
    Nat.card {w : ι → F // Passes defect w} = Nat.card F ^ (Fintype.card ι - 1) := by
  choose x hx using fun i => hg.2 (defect i)
  obtain rfl : (fun i => x i • g) = defect := funext hx
  have hx0 : ∃ i, x i ≠ 0 := by
    obtain ⟨i, hi⟩ := h
    exact ⟨i, fun h0 => hi (show x i • g = 0 by rw [h0, zero_smul])⟩
  rw [← card_linear_form hx0]
  exact Nat.card_congr (Equiv.subtypeEquivRight fun w => passes_smul_iff hg.1 x w)

end Batching
