import Frostito.Curve
import Frostito.Lib.Outcome

/-!
# The point encoding of the secp256k1 backend

Points are compressed and decompressed by the SEC1 encoder of `k256`, with a fixed-width form
of the identity added around it.  The encoder is a parameter; what it is known to do is a class
of its own.  Its parser accepts, at the width of a compressed point, a third tag besides the
two that its encoder writes.
-/

namespace Frostito.Secp256k1

/-- What the backend uses of the `sec1` and `k256` crates, on curve points with the bytes of
their affine `x` and the parity of their affine `y`. -/
class K256 (P : Type) where
  /-- The identity. -/
  identity : P
  /-- The affine `x`-coordinate, as 32 bytes. -/
  x : P → Vector UInt8 32
  /-- Whether the affine `y`-coordinate is odd. -/
  yIsOdd : P → Bool
  /-- A SEC1 encoded point. -/
  EncodedPoint : Type
  /-- `EncodedPoint::from_bytes`. -/
  fromBytes : Bytes → Option EncodedPoint
  /-- `EncodedPoint::as_bytes`. -/
  asBytes : EncodedPoint → Bytes
  /-- `AffinePoint::from_encoded_point`. -/
  fromEncodedPoint : EncodedPoint → Option P
  /-- `AffinePoint::to_encoded_point(true)`. -/
  toEncodedPoint : P → EncodedPoint

open K256

variable {P : Type} [K256 P]

/-- `[0u8; 33]`. -/
def zeros : Bytes := List.replicate 33 0

/-- Compress to the canonical encoding. -/
def compress {ε : Type} (p : P) : Outcome ε Bytes :=
  let bytes := asBytes (toEncodedPoint p)
  if bytes.length = 33 then
    .ok bytes
  else if bytes.length = 1 ∧ bytes.head? = some 0 then
    -- the identity keeps the fixed width
    .ok (zeros)
  else
    .panic

/-- Decompress from a canonical encoding. -/
def decompress (bytes : Bytes) : Option P :=
  if bytes.length ≠ 33 then none else
  if bytes = zeros then some identity else do
    let encoded ← fromBytes bytes
    fromEncodedPoint encoded

/-- The tag in front of the `x`-coordinate. -/
def tag (p : P) : UInt8 := if yIsOdd p then 3 else 2

/-- The documented behaviour of `sec1` and `k256`. -/
class LawfulK256 (P : Type) [K256 P] : Prop where
  /-- Compressed and compact points have 33 bytes, uncompressed ones 65, the identity one. -/
  isSome_fromBytes_iff : ∀ bytes : Bytes, (fromBytes (P := P) bytes).isSome ↔
    (bytes.length = 33 ∧ (bytes.head? = some 2 ∨ bytes.head? = some 3 ∨ bytes.head? = some 5)) ∨
      (bytes.length = 65 ∧ bytes.head? = some 4) ∨ bytes = [0]
  asBytes_of_fromBytes : ∀ (bytes : Bytes) (e : EncodedPoint P), fromBytes bytes = some e →
    asBytes e = bytes
  fromEncodedPoint_even : ∀ (e : EncodedPoint P) (xs : Bytes) (p : P), asBytes e = 2 :: xs →
    (fromEncodedPoint e = some p ↔ p ≠ identity ∧ (x p).toList = xs ∧ yIsOdd p = false)
  fromEncodedPoint_odd : ∀ (e : EncodedPoint P) (xs : Bytes) (p : P), asBytes e = 3 :: xs →
    (fromEncodedPoint e = some p ↔ p ≠ identity ∧ (x p).toList = xs ∧ yIsOdd p = true)
  /-- A compact point is the one with the even `y`. -/
  fromEncodedPoint_compact : ∀ (e : EncodedPoint P) (xs : Bytes) (p : P), asBytes e = 5 :: xs →
    (fromEncodedPoint e = some p ↔ p ≠ identity ∧ (x p).toList = xs ∧ yIsOdd p = false)
  asBytes_toEncodedPoint : ∀ p : P, p ≠ identity →
    asBytes (toEncodedPoint p) = tag p :: (x p).toList
  asBytes_toEncodedPoint_identity : asBytes (toEncodedPoint (identity : P)) = [0]

section Lawful

variable [LawfulK256 P]

lemma compress_identity {ε : Type} :
    (compress (identity : P) : Outcome ε Bytes) = .ok (zeros) := by
  simp [compress, LawfulK256.asBytes_toEncodedPoint_identity]

lemma compress_of_ne {ε : Type} {p : P} (hp : p ≠ identity) :
    (compress p : Outcome ε Bytes) = .ok (tag p :: (x p).toList) := by
  simp [compress, LawfulK256.asBytes_toEncodedPoint p hp]

omit [LawfulK256 P] in
lemma decompress_zeros : decompress zeros = some (identity : P) := by
  rw [decompress, if_neg (by decide), if_pos rfl]

lemma cons_ne_zeros {t : UInt8} (ht : t = 2 ∨ t = 3 ∨ t = 5) (xs : Bytes) : t :: xs ≠ zeros := by
  intro h
  rw [zeros, List.replicate_succ, List.cons.injEq] at h
  rcases ht with rfl | rfl | rfl <;> exact absurd h.1 (by decide)

/-- Behind one of the three tags the encoded point decides. -/
lemma decompress_tagged {t : UInt8} {xs : Bytes} (ht : t = 2 ∨ t = 3 ∨ t = 5)
    (hlen : xs.length = 32) :
    ∃ e : EncodedPoint P, asBytes e = t :: xs ∧ decompress (t :: xs) = fromEncodedPoint e := by
  have hsome : (fromBytes (P := P) (t :: xs)).isSome :=
    (LawfulK256.isSome_fromBytes_iff _).mpr (.inl ⟨by simp [hlen], by simpa using ht⟩)
  obtain ⟨e, he⟩ := Option.isSome_iff_exists.mp hsome
  refine ⟨e, LawfulK256.asBytes_of_fromBytes _ _ he, ?_⟩
  rw [decompress, if_neg (by simp [hlen]), if_neg (cons_ne_zeros ht xs), he]
  rfl

/-- Nothing else is accepted but the zeros. -/
lemma tagged_of_decompress {bytes : Bytes} {p : P} (h : decompress bytes = some p)
    (hzeros : bytes ≠ zeros) :
    ∃ t xs, (t = 2 ∨ t = 3 ∨ t = 5) ∧ xs.length = 32 ∧ bytes = t :: xs := by
  have hlen : bytes.length = 33 := by
    by_contra hne
    rw [decompress, if_pos hne] at h
    cases h
  rw [decompress, if_neg (not_not_intro hlen), if_neg hzeros, Option.bind_eq_bind,
    Option.bind_eq_some_iff] at h
  obtain ⟨e, he, -⟩ := h
  obtain ⟨t, xs, rfl⟩ := List.exists_cons_of_length_eq_add_one hlen
  have hxs : xs.length = 32 := by simpa using hlen
  rcases (LawfulK256.isSome_fromBytes_iff _).mp (Option.isSome_of_mem he) with
    ⟨-, htag⟩ | ⟨hlong, -⟩ | hsingle
  · exact ⟨t, xs, by simpa using htag, hxs, rfl⟩
  · omega
  · rw [hsingle] at hlen
    simp at hlen

/-- What the encoded point behind a tag decodes to. -/
lemma fromEncodedPoint_tagged {t : UInt8} {xs : Bytes} (ht : t = 2 ∨ t = 3 ∨ t = 5)
    {e : EncodedPoint P} (he : asBytes e = t :: xs) {p : P} :
    fromEncodedPoint e = some p ↔
      p ≠ identity ∧ (x p).toList = xs ∧ (t = tag p ∨ t = 5 ∧ yIsOdd p = false) := by
  rcases ht with rfl | rfl | rfl
  · rw [LawfulK256.fromEncodedPoint_even _ _ _ he, tag]
    cases yIsOdd p <;> simp
  · rw [LawfulK256.fromEncodedPoint_odd _ _ _ he, tag]
    cases yIsOdd p <;> simp
  · rw [LawfulK256.fromEncodedPoint_compact _ _ _ he, tag]
    cases yIsOdd p <;> simp

/-- **What is accepted for a point**: the zeros for the identity, otherwise the coordinate
behind the tag of the point or, when `y` is even, behind the compact one. -/
theorem decompress_eq_some_iff {bytes : Bytes} {p : P} : decompress bytes = some p ↔
    (p = identity ∧ bytes = zeros) ∨
      (p ≠ identity ∧ (bytes = tag p :: (x p).toList ∨
        yIsOdd p = false ∧ bytes = 5 :: (x p).toList)) := by
  constructor
  · intro h
    by_cases hzeros : bytes = zeros
    · rw [hzeros, decompress_zeros] at h
      exact .inl ⟨(Option.some.inj h).symm, hzeros⟩
    · obtain ⟨t, xs, ht, hlen, rfl⟩ := tagged_of_decompress h hzeros
      obtain ⟨e, he, hdecompress⟩ := decompress_tagged (P := P) ht hlen
      rw [hdecompress, fromEncodedPoint_tagged ht he] at h
      obtain ⟨hp, rfl, rfl | ⟨rfl, heven⟩⟩ := h
      · exact .inr ⟨hp, .inl rfl⟩
      · exact .inr ⟨hp, .inr ⟨heven, rfl⟩⟩
  · rintro (⟨rfl, rfl⟩ | ⟨hp, rfl | ⟨heven, rfl⟩⟩)
    · exact decompress_zeros
    · have ht : tag p = 2 ∨ tag p = 3 ∨ tag p = 5 := by
        unfold tag
        split <;> simp
      obtain ⟨e, he, hdecompress⟩ := decompress_tagged (P := P) ht (x p).length_toList
      rw [hdecompress, fromEncodedPoint_tagged ht he]
      exact ⟨hp, rfl, .inl rfl⟩
    · obtain ⟨e, he, hdecompress⟩ := decompress_tagged (P := P) (.inr (.inr rfl))
        (x p).length_toList
      rw [hdecompress, fromEncodedPoint_tagged (.inr (.inr rfl)) he]
      exact ⟨hp, rfl, .inr ⟨rfl, heven⟩⟩

/-- Every point is read back from its encoding, and the encoder does not abort. -/
lemma exists_compress_eq_ok {ε : Type} (p : P) :
    ∃ bytes, (compress p : Outcome ε Bytes) = .ok bytes ∧ decompress bytes = some p := by
  by_cases hp : p = identity
  · subst hp
    exact ⟨_, compress_identity, decompress_zeros⟩
  · exact ⟨_, compress_of_ne hp, decompress_eq_some_iff.mpr (.inr ⟨hp, .inl rfl⟩)⟩

/-- Distinct points have distinct encodings. -/
theorem compress_injective {ε : Type} :
    Function.Injective (compress : P → Outcome ε Bytes) := by
  intro p q h
  obtain ⟨bytes, hp, hdecompress⟩ := exists_compress_eq_ok (ε := ε) p
  obtain ⟨bytes', hq, hdecompress'⟩ := exists_compress_eq_ok (ε := ε) q
  rw [h, hq, Outcome.ok.injEq] at hp
  rw [← hp, hdecompress', Option.some.injEq] at hdecompress
  exact hdecompress.symm

/-- A backend that compresses so has the encoding the protocols assume of it. -/
theorem lawfulCompress_of_compress {S : Type} [CurveScalar S] [CurvePoint P S]
    (hsize : CurvePoint.compressedSize P = 33)
    (h : ∀ p : P, (compress p : Outcome Empty Bytes) = .ok (CurvePoint.compress p)) :
    LawfulCompress P where
  length_compress p := by
    rw [hsize]
    have hbytes := h p
    by_cases hp : p = identity
    · rw [hp, compress_identity] at hbytes
      rw [hp, ← Outcome.ok.inj hbytes, zeros, List.length_replicate]
    · rw [compress_of_ne hp] at hbytes
      rw [← Outcome.ok.inj hbytes, List.length_cons, (x p).length_toList]
  compress_injective p q hpq := compress_injective (ε := Empty) (by rw [h p, h q, hpq])

omit [LawfulK256 P] in
/-- The tag of the compact form is not one of the two that are written. -/
lemma compact_ne (p : P) : (5 :: (x p).toList : Bytes) ≠ tag p :: (x p).toList := by
  unfold tag
  split <;> simp

/-- **Decoding is canonical except for compact points**, byte string by byte string, and so
point by point. -/
theorem canonical_iff {ε : Type} :
    (∀ bytes : Bytes,
      (∀ p : P, decompress bytes = some p → (compress p : Outcome ε Bytes) = .ok bytes) ↔
        ¬∃ p : P, p ≠ identity ∧ yIsOdd p = false ∧ bytes = 5 :: (x p).toList) ∧
    (∀ p : P, ∃ bytes, (compress p : Outcome ε Bytes) = .ok bytes ∧
      decompress bytes = some p) ∧
    ∀ p : P, (∀ bytes bytes' : Bytes, decompress bytes = some p → decompress bytes' = some p →
      bytes = bytes') ↔ p = identity ∨ yIsOdd p = true := by
  refine ⟨fun bytes => ⟨?_, fun h p hp => ?_⟩, exists_compress_eq_ok, fun p => ⟨fun h => ?_, ?_⟩⟩
  · rintro h ⟨p, hp, heven, rfl⟩
    have hcompress := h p (decompress_eq_some_iff.mpr (.inr ⟨hp, .inr ⟨heven, rfl⟩⟩))
    rw [compress_of_ne hp, Outcome.ok.injEq] at hcompress
    exact compact_ne p hcompress.symm
  · rcases decompress_eq_some_iff.mp hp with ⟨rfl, rfl⟩ | ⟨hne, rfl | ⟨heven, rfl⟩⟩
    · exact compress_identity
    · exact compress_of_ne hne
    · exact absurd ⟨p, hne, heven, rfl⟩ h
  · by_contra hne
    obtain ⟨hp, hodd⟩ := not_or.mp hne
    have heven : yIsOdd p = false := by simpa using hodd
    exact compact_ne p (h _ _ (decompress_eq_some_iff.mpr (.inr ⟨hp, .inr ⟨heven, rfl⟩⟩))
      (decompress_eq_some_iff.mpr (.inr ⟨hp, .inl rfl⟩)))
  · intro hp bytes bytes' hbytes hbytes'
    have hcompress : ∀ b : Bytes, decompress b = some p →
        (compress p : Outcome ε Bytes) = .ok b := by
      intro b hb
      rcases decompress_eq_some_iff.mp hb with ⟨rfl, rfl⟩ | ⟨hne, rfl | ⟨heven, rfl⟩⟩
      · exact compress_identity
      · exact compress_of_ne hne
      · rcases hp with rfl | hodd
        · exact absurd rfl hne
        · rw [hodd] at heven
          cases heven
    exact Outcome.ok.inj ((hcompress bytes hbytes).symm.trans (hcompress bytes' hbytes'))

end Lawful

section Generator

/-- The identity, the generator and its negative. -/
inductive Three where
  | identity
  | g
  | negG
deriving DecidableEq

/-- The `x`-coordinate of the generator; its `y`-coordinate is even. -/
def xG : Vector UInt8 32 :=
  #v[0x79, 0xBE, 0x66, 0x7E, 0xF9, 0xDC, 0xBB, 0xAC, 0x55, 0xA0, 0x62, 0x95, 0xCE, 0x87, 0x0B,
    0x07, 0x02, 0x9B, 0xFC, 0xDB, 0x2D, 0xCE, 0x28, 0xD9, 0x59, 0xF2, 0x81, 0x5B, 0x16, 0xF8,
    0x17, 0x98]

/-- The encoder on these three points. -/
instance : K256 Three where
  identity := .identity
  x _ := xG
  yIsOdd p := decide (p = .negG)
  EncodedPoint := Bytes
  fromBytes bytes :=
    if (bytes.length = 33 ∧
        (bytes.head? = some 2 ∨ bytes.head? = some 3 ∨ bytes.head? = some 5)) ∨
      (bytes.length = 65 ∧ bytes.head? = some 4) ∨ bytes = [0] then some bytes else none
  asBytes e := e
  fromEncodedPoint e :=
    if e = 2 :: xG.toList ∨ e = 5 :: xG.toList then some .g
    else if e = 3 :: xG.toList then some .negG
    else if e = [0] then some .identity
    else none
  toEncodedPoint
    | .identity => [0]
    | .g => 2 :: xG.toList
    | .negG => 3 :: xG.toList

instance : LawfulK256 Three where
  isSome_fromBytes_iff bytes := by
    simp only [fromBytes]
    split <;> simp_all
  asBytes_of_fromBytes bytes e h := by
    simp only [fromBytes] at h
    split at h
    · exact (Option.some.inj h).symm
    · cases h
  fromEncodedPoint_even e xs p h := by
    obtain rfl : e = 2 :: xs := h
    by_cases hxs : xs = xG.toList <;> cases p <;>
      simp [fromEncodedPoint, x, yIsOdd, identity, hxs, eq_comm]
  fromEncodedPoint_odd e xs p h := by
    obtain rfl : e = 3 :: xs := h
    by_cases hxs : xs = xG.toList <;> cases p <;>
      simp [fromEncodedPoint, x, yIsOdd, identity, hxs, eq_comm]
  fromEncodedPoint_compact e xs p h := by
    obtain rfl : e = 5 :: xs := h
    by_cases hxs : xs = xG.toList <;> cases p <;>
      simp [fromEncodedPoint, x, yIsOdd, identity, hxs, eq_comm]
  asBytes_toEncodedPoint p hp := by
    cases p with
    | identity => exact absurd rfl hp
    | g => rfl
    | negG => rfl
  asBytes_toEncodedPoint_identity := rfl

/-- The generator is decoded from two byte strings. -/
theorem compact_generator_is_accepted :
    decompress (5 :: xG.toList) = some Three.g ∧
    (compress Three.g : Outcome Empty Bytes) = .ok (2 :: xG.toList) ∧
    ¬∀ (bytes : Bytes) (p : Three), decompress bytes = some p →
      (compress p : Outcome Empty Bytes) = .ok bytes := by
  refine ⟨by decide, rfl, fun h => ?_⟩
  have hcompress := h (5 :: xG.toList) .g (by decide)
  exact absurd (Outcome.ok.inj hcompress) (by decide)

/-- Its negative is decoded from what it is compressed to, and from nothing else. -/
theorem canonical_iff_negG :
    (∃ bytes, (compress Three.negG : Outcome Empty Bytes) = .ok bytes ∧
      decompress bytes = some Three.negG) ∧
    ∀ bytes bytes' : Bytes, decompress bytes = some Three.negG →
      decompress bytes' = some Three.negG → bytes = bytes' := by
  obtain ⟨-, hread, hone⟩ := canonical_iff (P := Three) (ε := Empty)
  exact ⟨hread .negG, (hone .negG).mpr (.inr (by decide))⟩

end Generator

end Frostito.Secp256k1
