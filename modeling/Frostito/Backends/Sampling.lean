import Mathlib.Tactic.NormNum.Prime
import Frostito.Curve
import Frostito.Lib.Lucas
import Frostito.Lib.Reduction

/-!
# Sampling scalars from random bytes

Two backends draw bytes from the generator and reduce them modulo the order of the group
themselves: pallas draws 64, decaf377 draws 32.  Counting the byte strings that are drawn shows
what is left of the bias.  With 64 bytes it is negligible; with 32 there are a few dozen byte
strings for a scalar, and one more or less can be seen.
-/

namespace Frostito

/-- A random number generator, as the backends use it: the bytes it fills buffers with. -/
abbrev ByteRng := Stream' UInt8

/-- `rng.fill_bytes(&mut [0u8; n])`. -/
def ByteRng.fillBytes (n : ℕ) (rng : ByteRng) : Bytes × ByteRng := (rng.take n, rng.drop n)

/-- The integer that bytes spell, modulo the order of the group. -/
def reduceLe {order : ℕ} (bytes : Bytes) : ZMod order := (Framing.ofLeBytes bytes : ℕ)

/-- Sampling by the reduction of `n` bytes. -/
def reduceRandom (n : ℕ) {order : ℕ} (rng : ByteRng) : ZMod order × ByteRng :=
  let (bytes, rng) := rng.fillBytes n
  (reduceLe bytes, rng)

/-- `CurveScalar::random` of pallas: `from_uniform_bytes` of 64 bytes. -/
def Pallas.random {order : ℕ} (rng : ByteRng) : ZMod order × ByteRng := reduceRandom 64 rng

/-- `CurveScalar::random` of decaf377: `from_le_bytes_mod_order` of 32 bytes. -/
def Decaf377.random {order : ℕ} (rng : ByteRng) : ZMod order × ByteRng := reduceRandom 32 rng

/-- How many of the byte strings of length `n` that the generator may start with make `random`
return `a`. -/
noncomputable def draws {S : Type} (n : ℕ) (random : ByteRng → S × ByteRng) (rest : ByteRng)
    (a : S) : ℕ :=
  Nat.card {bytes : Bytes // bytes.length = n ∧ (random (bytes ++ₛ rest)).1 = a}

/-- Sampling whose frequencies differ by a fraction of `2 ^ -64` at most. -/
def NegligibleBias {S : Type} (n : ℕ) (random : ByteRng → S × ByteRng) (rest : ByteRng)
    (a b : S) : Prop :=
  |(draws n random rest a : ℤ) - draws n random rest b| * 2 ^ 64 ≤ draws n random rest b

/-- Only the bytes that are drawn count. -/
lemma draws_reduceRandom (n : ℕ) {order : ℕ} (rest : ByteRng) (a : ZMod order) :
    draws n (reduceRandom n) rest a = Reduction.hits n a := by
  refine Nat.card_congr (Equiv.subtypeEquivRight fun bytes => and_congr_right fun hlen => ?_)
  have htake : (bytes ++ₛ rest).take n = bytes := by
    rw [Stream'.take_append_of_le_length _ _ _ hlen.ge, List.take_of_length_le hlen.le]
  simp only [reduceRandom, ByteRng.fillBytes, htake, reduceLe]

lemma negligibleBias_reduceRandom_iff (n : ℕ) {order : ℕ} (rest : ByteRng) (a b : ZMod order) :
    NegligibleBias n (reduceRandom n) rest a b ↔
      |(Reduction.hits n a : ℤ) - Reduction.hits n b| * (2 ^ 64 : ℕ) ≤ Reduction.hits n b := by
  rw [NegligibleBias, draws_reduceRandom, draws_reduceRandom]
  push_cast
  rfl

/-- Zero is hit more often than minus one by a reduction that is not exact. -/
lemma zero_hit_more_often {order n : ℕ} (horder : order ≠ 0) (hrem : n % order ≠ 0) :
    ¬((0 : ZMod order).val < n % order ↔ (-1 : ZMod order).val < n % order) := by
  obtain ⟨k, rfl⟩ := Nat.exists_eq_add_one_of_ne_zero horder
  have hlt : n % (k + 1) < k + 1 := Nat.mod_lt _ k.succ_pos
  have hval : (-1 : ZMod (k + 1)).val = k := ZMod.val_neg_one k
  rw [ZMod.val_zero, hval]
  omega

/-- **Where sampling is unbiased**: with the 64 bytes of pallas everywhere, with the 32 of
decaf377 between scalars on one side of the remainder, and these never are all of them. -/
theorem sampling_bias_iff {q r : ℕ} (hq : 2 ^ 254 < q) (hq' : q ≤ 2 ^ 256) (hprime : r.Prime)
    (hr : 2 ^ 250 < r) (hr' : r < 2 ^ 252) (rest : ByteRng) :
    (∀ a b : ZMod q, NegligibleBias 64 Pallas.random rest a b) ∧
    (∀ a b : ZMod r, NegligibleBias 32 Decaf377.random rest a b ↔
      (a.val < 2 ^ 256 % r ↔ b.val < 2 ^ 256 % r)) ∧
    ∃ a b : ZMod r, ¬(a.val < 2 ^ 256 % r ↔ b.val < 2 ^ 256 % r) := by
  have : NeZero q := ⟨by omega⟩
  have : NeZero r := ⟨hprime.ne_zero⟩
  have hpow : (256 ^ 32 : ℕ) = 2 ^ 256 := by norm_num
  refine ⟨fun a b => ?_, fun a b => ?_, 0, -1, ?_⟩
  · refine (negligibleBias_reduceRandom_iff 64 rest a b).mpr (Reduction.bias_le ?_ a b)
    rw [Nat.le_div_iff_mul_le (by omega)]
    calc 2 ^ 64 * q ≤ 2 ^ 64 * 2 ^ 256 := Nat.mul_le_mul_left _ hq'
      _ ≤ 256 ^ 64 := by norm_num
  · have hquotient : 256 ^ 32 / r + 1 < 2 ^ 64 := by
      have hdiv : 256 ^ 32 / r ≤ 2 ^ 6 := by
        rw [Nat.div_le_iff_le_mul_add_pred hprime.pos, hpow]
        omega
      omega
    rw [← hpow]
    exact (negligibleBias_reduceRandom_iff 32 rest a b).trans
      (Reduction.bias_le_iff hquotient a b)
  · refine zero_hit_more_often hprime.ne_zero fun hrem => ?_
    have htwo : r = 2 := (Nat.prime_dvd_prime_iff_eq hprime Nat.prime_two).mp
      (hprime.dvd_of_dvd_pow (Nat.dvd_of_mod_eq_zero hrem))
    omega

/-! ### The order of decaf377 -/

/-- The order of the group, which is 54 times and something below `2 ^ 256`. -/
def Decaf377.order : ℕ :=
  2111115437357092606062206234695386632838870926408408195193685246394721360383

/-- The primes below a million in the certificate. -/
def Decaf377.smallPrimes : List ℕ :=
  [2, 3, 5, 11, 17, 71, 73, 107, 109, 149, 181, 229, 601, 1187, 1553, 7321, 11959, 12511, 14293,
    103583, 734177, 933403]

/-- The larger ones, each behind the factors of its predecessor. -/
def Decaf377.certificates : List Lucas.Certificate :=
  [⟨1282495723, 5, [2, 3, 229, 933403]⟩,
    ⟨188799526603, 3, [2, 3, 3, 17, 71, 1187, 7321]⟩,
    ⟨4153589585267, 2, [2, 11, 188799526603]⟩,
    ⟨38740043, 5, [2, 11, 17, 103583]⟩,
    ⟨11892231440692483, 3, [2, 3, 11, 71, 109, 601, 38740043]⟩,
    ⟨516860609, 3, [2, 2, 2, 2, 2, 2, 11, 734177]⟩,
    ⟨15505818271, 6, [2, 3, 5, 516860609]⟩,
    ⟨212367687039617, 3, [2, 2, 2, 2, 2, 2, 2, 107, 15505818271]⟩,
    ⟨227853185823450011796547, 3, [2, 3, 12511, 14293, 212367687039617]⟩,
    ⟨127594226306900005382664386181896662579473947460767, 5,
      [2, 73, 149, 181, 11959, 11892231440692483, 227853185823450011796547]⟩,
    ⟨Decaf377.order, 5, [2, 1553, 1282495723, 4153589585267,
      127594226306900005382664386181896662579473947460767]⟩]

lemma Decaf377.prime_order : Decaf377.order.Prime := by
  have hchain : Lucas.Chain 251 smallPrimes certificates := by decide +kernel
  have hsmall : ∀ q ∈ smallPrimes, q.Prime := by
    simp only [smallPrimes, List.forall_mem_cons]
    norm_num
  exact hchain.prime hsmall _ (List.mem_of_getElem? (i := 10) rfl)

/-- 55 byte strings become zero, and 54 become minus one. -/
theorem decaf377_draws_zero_more_often :
    Decaf377.order.Prime ∧ 2 ^ 250 < Decaf377.order ∧ Decaf377.order < 2 ^ 252 ∧
    draws 32 Decaf377.random (Stream'.const 0) (0 : ZMod Decaf377.order) = 55 ∧
    draws 32 Decaf377.random (Stream'.const 0) (-1 : ZMod Decaf377.order) = 54 ∧
    ¬NegligibleBias 32 Decaf377.random (Stream'.const 0) (0 : ZMod Decaf377.order) (-1) := by
  have : NeZero Decaf377.order := ⟨Decaf377.prime_order.ne_zero⟩
  have hzero : draws 32 Decaf377.random (Stream'.const 0) (0 : ZMod Decaf377.order) = 55 := by
    refine (draws_reduceRandom 32 _ _).trans ?_
    rw [Reduction.hits_eq, ZMod.val_zero]
    norm_num [Decaf377.order]
  have hone : draws 32 Decaf377.random (Stream'.const 0) (-1 : ZMod Decaf377.order) = 54 := by
    refine (draws_reduceRandom 32 _ _).trans ?_
    have hval : (-1 : ZMod Decaf377.order).val = Decaf377.order - 1 :=
      ZMod.val_neg_one (Decaf377.order - 1)
    rw [Reduction.hits_eq, hval]
    norm_num [Decaf377.order]
  refine ⟨Decaf377.prime_order, by norm_num [Decaf377.order], by norm_num [Decaf377.order],
    hzero, hone, ?_⟩
  rw [NegligibleBias, hzero, hone]
  norm_num

/-- The order of pallas. -/
def Pallas.order : ℕ :=
  28948022309329048855892746252171976963363056481941647379679742748393362948097

/-- Pallas is unbiased between zero and minus one, decaf377 between zero and one. -/
theorem sampling_bias_iff_orders :
    NegligibleBias 64 Pallas.random (Stream'.const 0) (0 : ZMod Pallas.order) (-1) ∧
    NegligibleBias 32 Decaf377.random (Stream'.const 0) (0 : ZMod Decaf377.order) 1 := by
  have hbias := sampling_bias_iff (q := Pallas.order) (r := Decaf377.order)
    (by norm_num [Pallas.order]) (by norm_num [Pallas.order]) Decaf377.prime_order
    (by norm_num [Decaf377.order]) (by norm_num [Decaf377.order]) (Stream'.const 0)
  refine ⟨hbias.1 0 (-1), (hbias.2.1 0 1).mpr ?_⟩
  have hone : (1 : ZMod Decaf377.order).val = 1 :=
    ZMod.val_one'' (by norm_num [Decaf377.order])
  rw [ZMod.val_zero, hone]
  norm_num [Decaf377.order]

end Frostito
