import Mathlib.Algebra.CharP.CharAndCard
import Mathlib.Algebra.Field.Basic
import Mathlib.Algebra.Module.Basic
import Mathlib.Data.Stream.Init
import Mathlib.FieldTheory.Finite.Basic
import Frostito.Lib.Framing

/-!
# The curve abstraction

The two traits every protocol is generic over, the random number generator as they see it,
and the SHA-2 functions.  The arithmetic of the traits is that of a field and of a vector
space over it; what the protocols assume beyond it, a prime order above `2 ^ 32` and an
injective fixed-width encoding, is kept apart in two classes that a result names when it
needs them.
-/

namespace Frostito

/-- Scalar field element trait. -/
class CurveScalar (S : Type) extends Field S where
  decEq : DecidableEq S
  /-- Create from 64-byte wide hash output (reduction mod order). -/
  fromBytesWide : Vector UInt8 64 → S
  /-- Serialize to bytes. -/
  toBytes : S → Vector UInt8 32
  /-- Deserialize from canonical bytes. -/
  fromCanonicalBytes : Vector UInt8 32 → Option S

instance {S : Type} [h : CurveScalar S] : DecidableEq S := h.decEq

/-- Curve point trait. -/
class CurvePoint (P : Type) (S : outParam Type) [CurveScalar S] extends
    AddCommGroup P, Module S P where
  decEq : DecidableEq P
  /-- Compressed point size in bytes. -/
  compressedSize : ℕ
  /-- Every backend declares 32 bytes, except secp256k1 with 33. -/
  compressedSize_mem : compressedSize = 32 ∨ compressedSize = 33
  /-- The generator point. -/
  generator : P
  /-- Compress to this curve's canonical encoding. -/
  compress : P → Bytes
  /-- Decompress from a canonical encoding. -/
  decompress : Bytes → Option P

instance {P S : Type} [CurveScalar S] [h : CurvePoint P S] : DecidableEq P := h.decEq

export CurvePoint (generator)

/-- Create a scalar from a `u32`. -/
def fromU32 {S : Type} [CurveScalar S] (v : UInt32) : S := (v.toNat : S)

/-! ### Randomness -/

/-- A random number generator, as the protocols use it: the scalars that successive calls
of `random` draw from it. -/
abbrev Rng (S : Type) := Stream' S

/-- `CurveScalar::random`: one draw, and the generator after it. -/
def Rng.random {S : Type} (rng : Rng S) : S × Rng S := (rng.head, rng.tail)

/-- `n` draws in a row. -/
def Rng.randoms {S : Type} (n : ℕ) (rng : Rng S) : List S × Rng S := (rng.take n, rng.drop n)

/-! ### Hashing -/

/-- The SHA-2 functions of the `sha2` crate. -/
class Sha2 where
  /-- SHA-256 of a byte string. -/
  sha256 : Bytes → Vector UInt8 32
  /-- SHA-512 of a byte string. -/
  sha512 : Bytes → Vector UInt8 64

export Sha2 (sha256 sha512)

/-- SHA-512 truncated to its first 32 bytes. -/
def sha512Trunc [Sha2] (bytes : Bytes) : Vector UInt8 32 := (sha512 bytes).take 32

/-! ### Little-endian integers -/

/-- `u32::to_le_bytes`. -/
def u32ToLeBytes (v : UInt32) : Bytes := Framing.leBytes 4 v.toNat

/-- `u64::to_le_bytes`. -/
def u64ToLeBytes (v : UInt64) : Bytes := Framing.leBytes 8 v.toNat

/-- `(bytes.len() as u64).to_le_bytes()`. -/
def lenToLeBytes (n : ℕ) : Bytes := u64ToLeBytes (UInt64.ofNat n)

@[simp] lemma length_u32ToLeBytes (v : UInt32) : (u32ToLeBytes v).length = 4 := by
  simp [u32ToLeBytes]

@[simp] lemma length_u64ToLeBytes (v : UInt64) : (u64ToLeBytes v).length = 8 := by
  simp [u64ToLeBytes]

lemma u32ToLeBytes_inj {a b : UInt32} (h : u32ToLeBytes a = u32ToLeBytes b) : a = b := by
  have ha : a.toNat < 256 ^ 4 := a.toNat_lt
  have hb : b.toNat < 256 ^ 4 := b.toNat_lt
  exact UInt32.toNat_inj.mp (Framing.leBytes_inj ha hb h)

lemma u64ToLeBytes_inj {a b : UInt64} (h : u64ToLeBytes a = u64ToLeBytes b) : a = b := by
  have ha : a.toNat < 256 ^ 8 := a.toNat_lt
  have hb : b.toNat < 256 ^ 8 := b.toNat_lt
  exact UInt64.toNat_inj.mp (Framing.leBytes_inj ha hb h)

lemma selfDelimiting_u32 : Framing.SelfDelimiting (fun _ => True) u32ToLeBytes :=
  .of_width (fun v _ => length_u32ToLeBytes v) fun _ _ _ _ => u32ToLeBytes_inj

lemma selfDelimiting_u64 : Framing.SelfDelimiting (fun _ => True) u64ToLeBytes :=
  .of_width (fun v _ => length_u64ToLeBytes v) fun _ _ _ _ => u64ToLeBytes_inj

/-- A length below `2 ^ 64` in front of a byte string is the framing library's prefix. -/
lemma lenToLeBytes_append {bs : Bytes} (h : bs.length < 2 ^ 64) :
    lenToLeBytes bs.length ++ bs = Framing.lengthPrefixed bs := by
  rw [lenToLeBytes, u64ToLeBytes, Framing.lengthPrefixed, UInt64.toNat_ofNat_of_lt' h]

/-! ### What the protocols assume of a backend -/

/-- The group has prime order above `2 ^ 32`, the scalars are the integers modulo that
order, and the generator is not the identity. -/
class PrimeOrder (P : Type) {S : outParam Type} [CurveScalar S] [CurvePoint P S] : Prop where
  prime : (Nat.card P).Prime
  lt_card : 2 ^ 32 < Nat.card P
  card_scalar : Nat.card S = Nat.card P
  generator_ne_zero : (generator : P) ≠ 0

/-- The encoding of points is injective and has the width the trait declares. -/
class LawfulCompress (P : Type) {S : outParam Type} [CurveScalar S] [CurvePoint P S] : Prop
    where
  length_compress : ∀ p : P, (CurvePoint.compress p).length = CurvePoint.compressedSize P
  compress_injective : Function.Injective (CurvePoint.compress : P → Bytes)

/-- Scalars round-trip through their canonical bytes. -/
class LawfulScalarBytes (S : Type) [CurveScalar S] : Prop where
  fromCanonicalBytes_toBytes :
    ∀ x : S, CurveScalar.fromCanonicalBytes (CurveScalar.toBytes x) = some x

lemma scalarBytes_injective {S : Type} [CurveScalar S] [LawfulScalarBytes S] :
    Function.Injective (CurveScalar.toBytes : S → Vector UInt8 32) :=
  Function.LeftInverse.injective (g := fun bytes => (CurveScalar.fromCanonicalBytes bytes).getD 0)
    fun x => by simp [LawfulScalarBytes.fromCanonicalBytes_toBytes]

/-- Points are fields of one width. -/
lemma selfDelimiting_compress {S P : Type} [CurveScalar S] [CurvePoint P S] [LawfulCompress P] :
    Framing.SelfDelimiting (fun _ => True) (CurvePoint.compress : P → Bytes) :=
  .of_width (fun p _ => LawfulCompress.length_compress p) fun _ _ _ _ h =>
    LawfulCompress.compress_injective h

/-- In a prime field the naturals below its size are distinct. -/
lemma natCast_inj_of_prime_card {S : Type} [CurveScalar S] (hprime : (Nat.card S).Prime) {m n : ℕ}
    (hm : m < Nat.card S) (hn : n < Nat.card S) (h : (m : S) = n) : m = n := by
  have : Finite S := Nat.finite_of_card_ne_zero hprime.ne_zero
  have := Fintype.ofFinite S
  have : Fact (Nat.card S).Prime := ⟨hprime⟩
  have hchar : CharP S (Nat.card S) := charP_of_card_eq_prime Nat.card_eq_fintype_card.symm
  exact Nat.ModEq.eq_of_lt_of_lt ((CharP.natCast_eq_natCast S (Nat.card S)).mp h) hm hn

/-- In a prime field of more than `2 ^ 32` elements distinct `u32` indices are distinct
scalars. -/
lemma fromU32_injective_of_prime_card {S : Type} [CurveScalar S] (hprime : (Nat.card S).Prime)
    (hlt : 2 ^ 32 < Nat.card S) : Function.Injective (fromU32 : UInt32 → S) :=
  fun a b hab => UInt32.toNat_inj.mp (natCast_inj_of_prime_card hprime (a.toNat_lt.trans hlt)
    (b.toNat_lt.trans hlt) hab)

section PrimeOrder

variable {S P : Type} [CurveScalar S] [CurvePoint P S]

variable (P) in
lemma prime_card_scalar [PrimeOrder P] : (Nat.card S).Prime :=
  PrimeOrder.card_scalar (P := P) ▸ PrimeOrder.prime

variable (P) in
/-- The naturals below the order are distinct scalars. -/
lemma natCast_inj_of_lt [PrimeOrder P] {m n : ℕ} (hm : m < Nat.card S) (hn : n < Nat.card S)
    (h : (m : S) = n) : m = n :=
  natCast_inj_of_prime_card (prime_card_scalar P) hm hn h

variable (P) in
/-- Every scalar is a natural below the order. -/
lemma exists_natCast_eq [PrimeOrder P] (x : S) : ∃ n < Nat.card S, (n : S) = x := by
  have : Finite S := Nat.finite_of_card_ne_zero (prime_card_scalar P).ne_zero
  have hinj : Function.Injective fun n : Fin (Nat.card S) => (n.val : S) := fun m n h =>
    Fin.ext (natCast_inj_of_lt P m.isLt n.isLt h)
  obtain ⟨n, hn⟩ := (hinj.bijective_of_nat_card_le (by simp)).2 x
  exact ⟨n.val, n.isLt, hn⟩

variable (P) in
lemma toNat_lt_card [PrimeOrder P] (v : UInt32) : v.toNat < Nat.card S :=
  v.toNat_lt.trans (PrimeOrder.card_scalar (P := P) ▸ PrimeOrder.lt_card)

variable (P) in
/-- Distinct `u32` indices are distinct scalars. -/
lemma fromU32_injective [PrimeOrder P] : Function.Injective (fromU32 : UInt32 → S) :=
  fromU32_injective_of_prime_card (prime_card_scalar P)
    (PrimeOrder.card_scalar (P := P) ▸ PrimeOrder.lt_card)

@[simp] lemma fromU32_zero : (fromU32 0 : S) = 0 := by simp [fromU32]

/-- A discrete logarithm is unique. -/
lemma smul_generator_injective [PrimeOrder P] :
    Function.Injective fun x : S => x • (generator : P) := by
  intro x y hxy
  have hsub : (x - y) • (generator : P) = 0 := by rw [sub_smul]; exact sub_eq_zero.mpr hxy
  rcases smul_eq_zero.mp hsub with h | h
  · exact sub_eq_zero.mp h
  · exact absurd h PrimeOrder.generator_ne_zero

/-- Every point has a discrete logarithm. -/
lemma exists_smul_generator_eq [PrimeOrder P] (p : P) : ∃ x : S, x • (generator : P) = p := by
  have hprime : (Nat.card P).Prime := PrimeOrder.prime
  have : Finite P := Nat.finite_of_card_ne_zero hprime.ne_zero
  have hcard : Nat.card P ≤ Nat.card S := PrimeOrder.card_scalar.ge
  exact (smul_generator_injective.bijective_of_nat_card_le hcard).2 p

end PrimeOrder

end Frostito
