import Mathlib.Algebra.BigOperators.Group.List.Basic
import Mathlib.Data.List.Prime
import Mathlib.NumberTheory.LucasPrimality

/-!
# Primes with their certificates

Lucas's test needs the prime factors of the predecessor, and those are certified in the same
way.  A chain of such numbers, each with factors that stand before it, proves the last one
prime by an evaluation.
-/

namespace Lucas

/-- `acc * a ^ n` modulo `m`, for an exponent of `k` bits, which are used up from the lowest
on. -/
def mulPow (m : ℕ) : ℕ → ℕ → ℕ → ℕ → ℕ
  | 0, acc, _, _ => acc % m
  | k + 1, acc, a, n =>
    mulPow m k (if n % 2 = 1 then acc * a % m else acc) (a * a % m) (n / 2)

lemma mulPow_modEq (m : ℕ) {k n : ℕ} (h : n < 2 ^ k) (acc a : ℕ) :
    mulPow m k acc a n ≡ acc * a ^ n [MOD m] := by
  induction k generalizing acc a n with
  | zero =>
    have hn : n = 0 := by simpa using h
    rw [hn, pow_zero, mul_one, mulPow]
    exact Nat.mod_modEq acc m
  | succ k ih =>
    have hhalf : n / 2 < 2 ^ k := by
      rw [pow_succ] at h
      omega
    have hsquare : (a * a % m) ^ (n / 2) ≡ a ^ (2 * (n / 2)) [MOD m] := by
      rw [pow_mul, sq]
      exact (Nat.mod_modEq (a * a) m).pow _
    rw [mulPow]
    refine (ih hhalf _ _).trans ?_
    split
    · next hodd =>
      have hn : n = 2 * (n / 2) + 1 := by omega
      calc acc * a % m * (a * a % m) ^ (n / 2)
          ≡ acc * a * a ^ (2 * (n / 2)) [MOD m] := (Nat.mod_modEq _ m).mul hsquare
        _ = acc * a ^ n := by rw [mul_assoc, ← pow_succ', ← hn]
    · next heven =>
      have hn : n = 2 * (n / 2) := by omega
      calc acc * (a * a % m) ^ (n / 2)
          ≡ acc * a ^ (2 * (n / 2)) [MOD m] := hsquare.mul_left acc
        _ = acc * a ^ n := by rw [← hn]

/-- A number with a base of Lucas's test and the prime factors of its predecessor, each as
often as it divides. -/
structure Certificate where
  p : ℕ
  base : ℕ
  factors : List ℕ

/-- Lucas's test, for a number of at most `k` bits. -/
def Certificate.Passes (k : ℕ) (c : Certificate) : Prop :=
  1 < c.p ∧ c.p ≤ 2 ^ k ∧ c.factors.prod = c.p - 1 ∧
    mulPow c.p k 1 c.base (c.p - 1) % c.p = 1 ∧
    ∀ q ∈ c.factors, mulPow c.p k 1 c.base ((c.p - 1) / q) % c.p ≠ 1

instance (k : ℕ) (c : Certificate) : Decidable (c.Passes k) :=
  inferInstanceAs (Decidable (_ ∧ _))

/-- Every number of the chain passes the test with factors that are known by then. -/
def Chain (k : ℕ) : List ℕ → List Certificate → Prop
  | _, [] => True
  | known, c :: cs => c.Passes k ∧ (∀ q ∈ c.factors, q ∈ known) ∧ Chain k (c.p :: known) cs

instance decidableChain (k : ℕ) : ∀ known cs, Decidable (Chain k known cs)
  | _, [] => .isTrue trivial
  | known, c :: cs =>
    have := decidableChain k (c.p :: known) cs
    inferInstanceAs (Decidable (_ ∧ _))

/-- What the test evaluates is the power in the field. -/
lemma mulPow_eq_one_iff {p k n : ℕ} (hp : 1 < p) (hn : n < 2 ^ k) (base : ℕ) :
    mulPow p k 1 base n % p = 1 ↔ (base : ZMod p) ^ n = 1 := by
  have hpow := mulPow_modEq p hn 1 base
  rw [one_mul] at hpow
  rw [hpow, ← Nat.cast_pow, ← Nat.cast_one (R := ZMod p), ZMod.natCast_eq_natCast_iff,
    Nat.ModEq, Nat.mod_eq_of_lt hp]

lemma Certificate.Passes.prime {k : ℕ} {c : Certificate} (h : c.Passes k)
    (hfactors : ∀ q ∈ c.factors, q.Prime) : c.p.Prime := by
  obtain ⟨hp, hbits, hprod, hfull, hpart⟩ := h
  have hlt : ∀ n ≤ c.p - 1, n < 2 ^ k := fun n hn => by omega
  refine lucas_primality c.p c.base ((mulPow_eq_one_iff hp (hlt _ le_rfl) _).mp hfull)
    fun q hq hdvd => ?_
  rw [← hprod] at hdvd
  have hmem : q ∈ c.factors :=
    mem_list_primes_of_dvd_prod hq.prime (fun r hr => (hfactors r hr).prime) hdvd
  rw [Ne, ← mulPow_eq_one_iff hp (hlt _ (Nat.div_le_self _ _))]
  exact hpart q hmem

/-- **The numbers of a chain are prime**, when those it starts from are. -/
theorem Chain.prime {k : ℕ} {known : List ℕ} {cs : List Certificate} (h : Chain k known cs)
    (hknown : ∀ q ∈ known, q.Prime) : ∀ c ∈ cs, c.p.Prime := by
  induction cs generalizing known with
  | nil => exact fun c hc => absurd hc List.not_mem_nil
  | cons c cs ih =>
    obtain ⟨hpasses, hfactors, hrest⟩ := h
    have hprime : c.p.Prime := hpasses.prime fun q hq => hknown q (hfactors q hq)
    exact List.forall_mem_cons.mpr
      ⟨hprime, ih hrest (List.forall_mem_cons.mpr ⟨hprime, hknown⟩)⟩

end Lucas
