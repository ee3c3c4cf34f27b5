import Mathlib.NumberTheory.LucasPrimality
import Mathlib.Tactic.NormNum.Prime
import Mathlib.Tactic.ReduceModChar
import Frostito.Reference.Sha2

/-!
# A backend to compute with

The integers modulo a prime just below `2 ^ 254`, acting on themselves: a scalar is its own
point, and the generator is `1`.  Discrete logarithms are trivial in this group, which makes
it useless for cryptography and convenient for running the protocols on explicit inputs.
Scalars and points are encoded as 32 bytes, least significant first, as ristretto255 encodes
its scalars.
-/

namespace Frostito.Reference

/-- The order of the group. -/
def order : ℕ := 75 * 2 ^ 247 + 1

lemma eq_of_prime_dvd {p : ℕ} (hp : p.Prime) (h : p ∣ 75 * 2 ^ 247) :
    p = 2 ∨ p = 3 ∨ p = 5 := by
  rcases (Nat.Prime.dvd_mul hp).mp h with h | h
  · have h75 : p ∣ 3 * 5 ^ 2 := h
    rcases (Nat.Prime.dvd_mul hp).mp h75 with h | h
    · exact .inr (.inl ((Nat.prime_dvd_prime_iff_eq hp Nat.prime_three).mp h))
    · exact .inr (.inr ((Nat.prime_dvd_prime_iff_eq hp Nat.prime_five).mp (hp.dvd_of_dvd_pow h)))
  · exact .inl ((Nat.prime_dvd_prime_iff_eq hp Nat.prime_two).mp (hp.dvd_of_dvd_pow h))

/-- `37` is a primitive root. -/
lemma prime_order : order.Prime := by
  unfold order
  have hsub : 75 * 2 ^ 247 + 1 - 1 = 75 * 2 ^ 247 := Nat.add_sub_cancel _ _
  refine lucas_primality _ 37 ?_ ?_
  · rw [hsub]
    reduce_mod_char
  · intro p hp hdvd
    rw [hsub] at hdvd ⊢
    rcases eq_of_prime_dvd hp hdvd with rfl | rfl | rfl
    all_goals
      norm_num
      reduce_mod_char
      decide

instance : Fact order.Prime := ⟨prime_order⟩

lemma lt_order : 2 ^ 32 < order := by
  unfold order
  norm_num

lemma order_lt : order < 256 ^ 32 := by
  unfold order
  norm_num

/-- Scalars and points of the backend. -/
abbrev Residue := ZMod order

/-- The 32 bytes of a residue, least significant first. -/
def Residue.toBytes (x : Residue) : Vector UInt8 32 :=
  ⟨(Framing.leBytes 32 x.val).toArray, by simp⟩

/-- The residue that 32 bytes spell, when they are the bytes of one. -/
def Residue.ofBytes (bytes : Bytes) : Option Residue :=
  if bytes.length = 32 ∧ Framing.ofLeBytes bytes < order then
    some (Framing.ofLeBytes bytes : ℕ)
  else
    none

scoped instance curveScalar : CurveScalar Residue where
  decEq := inferInstance
  fromBytesWide bytes := (Framing.ofLeBytes bytes.toList : ℕ)
  toBytes := Residue.toBytes
  fromCanonicalBytes bytes := Residue.ofBytes bytes.toList

scoped instance curvePoint : CurvePoint Residue Residue where
  decEq := inferInstance
  compressedSize := 32
  compressedSize_mem := .inl rfl
  generator := 1
  compress p := (Residue.toBytes p).toList
  decompress := Residue.ofBytes

/-! ### The backend is lawful -/

lemma Residue.toList_toBytes (x : Residue) :
    (Residue.toBytes x).toList = Framing.leBytes 32 x.val := by
  simp [Residue.toBytes]

lemma Residue.ofBytes_toBytes (x : Residue) :
    Residue.ofBytes (Residue.toBytes x).toList = some x := by
  have hval : x.val < order := ZMod.val_lt x
  have hbytes : Framing.ofLeBytes (Framing.leBytes 32 x.val) = x.val :=
    Framing.ofLeBytes_leBytes (hval.trans order_lt)
  rw [Residue.toList_toBytes, Residue.ofBytes, hbytes,
    if_pos ⟨Framing.length_leBytes 32 _, hval⟩, ZMod.natCast_zmod_val]

/-- Only the bytes of a residue are read as it. -/
lemma Residue.ofBytes_eq_some_iff {bytes : Bytes} {x : Residue} :
    Residue.ofBytes bytes = some x ↔ (Residue.toBytes x).toList = bytes := by
  constructor
  · intro h
    rw [Residue.ofBytes] at h
    split at h
    · next hbytes =>
      rw [← Option.some.inj h, Residue.toList_toBytes, ZMod.val_natCast_of_lt hbytes.2,
        ← hbytes.1]
      exact Framing.leBytes_ofLeBytes bytes
    · cases h
  · rintro rfl
    exact Residue.ofBytes_toBytes x

scoped instance : LawfulScalarBytes Residue where
  fromCanonicalBytes_toBytes := Residue.ofBytes_toBytes

scoped instance : LawfulCompress Residue where
  length_compress p := by
    rw [CurvePoint.compress, CurvePoint.compressedSize]
    simp [curvePoint, Residue.toList_toBytes]
  compress_injective p q h := by
    have hp := Residue.ofBytes_toBytes p
    have hq := Residue.ofBytes_toBytes q
    have hpq : (Residue.toBytes p).toList = (Residue.toBytes q).toList := h
    rw [hpq] at hp
    exact Option.some.inj (hp.symm.trans hq)

scoped instance : PrimeOrder Residue where
  prime := by
    rw [Nat.card_zmod]
    exact prime_order
  lt_card := by
    rw [Nat.card_zmod]
    exact lt_order
  card_scalar := rfl
  generator_ne_zero := one_ne_zero

end Frostito.Reference
