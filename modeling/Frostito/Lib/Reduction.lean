import Mathlib.Data.Int.CardIntervalMod
import Mathlib.Data.ZMod.Basic
import Frostito.Lib.Framing

/-!
# Reducing random bytes

A number is drawn as `n` bytes and reduced modulo `m`.  The residues below the remainder of
`256 ^ n` are hit once more often than the others.  Against a quotient that is large this is
negligible; against a small one it is not.
-/

open scoped Count

namespace Reduction

/-- Byte strings of length `n` are the numbers below `256 ^ n`. -/
def bytesEquiv (n : ℕ) : {bytes : Bytes // bytes.length = n} ≃ Fin (256 ^ n) where
  toFun bytes := ⟨Framing.ofLeBytes bytes, by
    have hlt := Framing.ofLeBytes_lt bytes.1
    rwa [bytes.2] at hlt⟩
  invFun k := ⟨Framing.leBytes n k, Framing.length_leBytes n k⟩
  left_inv := by
    rintro ⟨bytes, rfl⟩
    exact Subtype.ext (Framing.leBytes_ofLeBytes bytes)
  right_inv k := Fin.ext (Framing.ofLeBytes_leBytes k.isLt)

/-- How many of the byte strings of length `n` reduce to `a`. -/
noncomputable def hits (n : ℕ) {m : ℕ} (a : ZMod m) : ℕ :=
  Nat.card {bytes : Bytes // bytes.length = n ∧ ((Framing.ofLeBytes bytes : ℕ) : ZMod m) = a}

variable {n m : ℕ} [NeZero m]

lemma natCast_eq_iff_modEq (k : ℕ) (a : ZMod m) : (k : ZMod m) = a ↔ k ≡ a.val [MOD m] := by
  rw [← ZMod.natCast_eq_natCast_iff, ZMod.natCast_zmod_val]

/-- The residues below the remainder are hit once more. -/
theorem hits_eq (a : ZMod m) :
    hits n a = 256 ^ n / m + if a.val < 256 ^ n % m then 1 else 0 := by
  have hcount := Nat.count_modEq_card (256 ^ n) (NeZero.pos m) a.val
  rw [Nat.mod_eq_of_lt (ZMod.val_lt a), Nat.count_eq_card_fintype] at hcount
  rw [← hcount, ← Nat.card_eq_fintype_card, hits]
  refine Nat.card_congr ?_
  calc {bytes : Bytes // bytes.length = n ∧ ((Framing.ofLeBytes bytes : ℕ) : ZMod m) = a}
      ≃ {bytes : {bytes : Bytes // bytes.length = n} //
          ((Framing.ofLeBytes bytes : ℕ) : ZMod m) = a} :=
        (Equiv.subtypeSubtypeEquivSubtypeInter _ _).symm
    _ ≃ {k : Fin (256 ^ n) // k ≡ a.val [MOD m]} :=
        (bytesEquiv n).subtypeEquiv fun bytes => natCast_eq_iff_modEq _ a
    _ ≃ {k : ℕ // k < 256 ^ n ∧ k ≡ a.val [MOD m]} :=
        (Fin.equivSubtype.subtypeEquiv fun k => Iff.rfl).trans
          (Equiv.subtypeSubtypeEquivSubtypeInter (· < 256 ^ n) (· ≡ a.val [MOD m]))

/-- A large quotient hides the remainder. -/
theorem bias_le {c : ℕ} (h : c ≤ 256 ^ n / m) (a b : ZMod m) :
    |(hits n a : ℤ) - hits n b| * c ≤ hits n b := by
  have hdiff : |(hits n a : ℤ) - hits n b| ≤ 1 := by
    rw [hits_eq, hits_eq, abs_le]
    split <;> split <;> push_cast <;> constructor <;> omega
  have hquotient : c ≤ hits n b := by
    rw [hits_eq]
    exact h.trans (Nat.le_add_right _ _)
  calc |(hits n a : ℤ) - hits n b| * c
      ≤ 1 * c := Int.mul_le_mul_of_nonneg_right hdiff (Int.natCast_nonneg c)
    _ = c := one_mul _
    _ ≤ hits n b := Int.ofNat_le.mpr hquotient

/-- A small one shows it wherever there is a difference. -/
theorem bias_le_iff {c : ℕ} (h : 256 ^ n / m + 1 < c) (a b : ZMod m) :
    |(hits n a : ℤ) - hits n b| * c ≤ hits n b ↔
      (a.val < 256 ^ n % m ↔ b.val < 256 ^ n % m) := by
  have hsmall : hits n b < c := by
    rw [hits_eq]
    split <;> omega
  constructor
  · intro hbias
    by_contra hne
    have hdiff : 1 ≤ |(hits n a : ℤ) - hits n b| := by
      refine Int.one_le_abs (sub_ne_zero.mpr fun heq => hne ?_)
      rw [hits_eq, hits_eq] at heq
      split at heq <;> split at heq <;> simp_all
    have hle : (c : ℤ) ≤ |(hits n a : ℤ) - hits n b| * c :=
      le_mul_of_one_le_left (Int.natCast_nonneg c) hdiff
    omega
  · intro hiff
    have heq : hits n a = hits n b := by rw [hits_eq, hits_eq, if_congr hiff rfl rfl]
    rw [heq, sub_self, abs_zero, zero_mul]
    exact Int.natCast_nonneg _

end Reduction
