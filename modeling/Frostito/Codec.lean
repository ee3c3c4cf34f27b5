import Frostito.Lib.Chunks
import Frostito.Reshare.Aggregator

/-!
# Decoding what comes off the wire

The decoders of dealer commitments and of reshared polynomials.  They compute lengths and
offsets in the word size of the target they are compiled for, and take the number of
coefficients from their caller; for a commitment it may be zero.  A decoder that has
allocated its vector has a number of coefficients that no product with the width of a point
carries past the word size, so what it accepts it has read at the true offsets.
-/

namespace Frostito

/-- What the decoders depend on of the target they are compiled for. -/
structure Target where
  /-- The width of `usize`. -/
  bits : ℕ
  bits_mem : bits = 32 ∨ bits = 64
  /-- The bytes a point occupies in memory. -/
  pointBytes : ℕ
  le_pointBytes : 32 ≤ pointBytes

namespace Target

/-- `usize` arithmetic in a release build. -/
def wrap (target : Target) (n : ℕ) : ℕ := n % 2 ^ target.bits

/-- `Vec::with_capacity` for points: more than `isize::MAX` bytes are a capacity overflow. -/
def withCapacity (target : Target) (n : ℕ) : Outcome Error Unit :=
  if n * target.pointBytes < 2 ^ (target.bits - 1) then .ok () else .panic

/-- A vector of `n` points has at most `isize::MAX` bytes. -/
def Holds (target : Target) (n : ℕ) : Prop := n * target.pointBytes < 2 ^ (target.bits - 1)

lemma withCapacity_of_holds {target : Target} {n : ℕ} (h : target.Holds n) :
    target.withCapacity n = .ok () := if_pos h

lemma withCapacity_eq_ok_iff {target : Target} {n : ℕ} {u : Unit} :
    target.withCapacity n = .ok u ↔ target.Holds n := by
  unfold withCapacity Holds
  split <;> simp_all

/-- The encoding of as many points as a vector holds has a length below the word size. -/
lemma Holds.lt {target : Target} {n : ℕ} (h : target.Holds n) {size : ℕ} (hsize : size ≤ 33) :
    4 + n * size < 2 ^ target.bits := by
  have hmem : n * 32 < 2 ^ (target.bits - 1) :=
    (Nat.mul_le_mul_left n target.le_pointBytes).trans_lt h
  have henc : n * size ≤ n * 33 := Nat.mul_le_mul_left n hsize
  rcases target.bits_mem with hbits | hbits <;> rw [hbits] at hmem ⊢ <;> omega

/-- A number that a `u32` holds does not wrap. -/
lemma wrap_of_lt (target : Target) {n : ℕ} (h : n < 2 ^ 32) : target.wrap n = n := by
  refine Nat.mod_eq_of_lt (h.trans_le (Nat.pow_le_pow_right (by decide) ?_))
  rcases target.bits_mem with h | h <;> omega

end Target

/-- A 64-bit target. -/
def target64 : Target := ⟨64, .inr rfl, 160, by decide⟩

variable {S P : Type} [CurveScalar S] [CurvePoint P S]

/-- `P::decompress(chunk).ok_or(Error::InvalidCommitment)`. -/
def decodePoint (chunk : Bytes) : Outcome Error P :=
  .okOr (CurvePoint.decompress chunk) .invalidCommitment

lemma mapM_decodePoint_eq_ok_iff {chunks : List Bytes} {ps : List P} :
    chunks.mapM decodePoint = .ok ps ↔
      List.Forall₂ (fun chunk p => CurvePoint.decompress chunk = some p) chunks ps := by
  simp only [Outcome.mapM_eq_ok_iff, decodePoint, Outcome.okOr_eq_ok_iff]

namespace DealerCommitment

/-- The `i`-th coefficient of an encoding. -/
def decodeCoefficient (target : Target) (bytes : Bytes) (i : ℕ) : Outcome Error P := do
  let offset := target.wrap (4 + target.wrap (i * CurvePoint.compressedSize P))
  let chunk ← .slice bytes offset (target.wrap (offset + CurvePoint.compressedSize P))
  .okOr (CurvePoint.decompress chunk) .invalidCommitment

/-- Deserialize from bytes. -/
def fromBytes (target : Target) (bytes : Bytes) (threshold : UInt32) :
    Outcome Error (DealerCommitment P) := do
  let expectedLen :=
    target.wrap (4 + target.wrap (threshold.toNat * CurvePoint.compressedSize P))
  .refuse (bytes.length ≠ expectedLen) .invalidCommitment
  let head ← .slice bytes 0 4
  let dealerIndex := UInt32.ofNat (Framing.ofLeBytes head)
  .refuse (dealerIndex = 0) .invalidIndex
  target.withCapacity threshold.toNat
  let coefficients ← (List.range threshold.toNat).mapM (decodeCoefficient target bytes)
  -- no vector holds more points
  if h : coefficients.length < 2 ^ 58 then
    .ok ⟨dealerIndex, coefficients, h⟩
  else
    .panic

lemma compressedSize_le : CurvePoint.compressedSize P ≤ 33 := by
  rcases CurvePoint.compressedSize_mem (P := P) with h | h <;> omega

/-- At a true offset the coefficient is decoded from its piece. -/
lemma decodeCoefficient_eq {target : Target} {bytes : Bytes} {n i : ℕ}
    (hfit : 4 + n * CurvePoint.compressedSize P < 2 ^ target.bits)
    (hlen : bytes.length = 4 + n * CurvePoint.compressedSize P) (hi : i < n) :
    (decodeCoefficient target bytes i : Outcome Error P)
      = decodePoint (Chunks.chunk (CurvePoint.compressedSize P) (bytes.drop 4) i) := by
  have hnext : (i + 1) * CurvePoint.compressedSize P ≤ n * CurvePoint.compressedSize P :=
    Nat.mul_le_mul_right _ hi
  rw [Nat.succ_mul] at hnext
  have hpos : target.wrap (i * CurvePoint.compressedSize P)
      = i * CurvePoint.compressedSize P := Nat.mod_eq_of_lt (by omega)
  have hoffset : target.wrap (4 + i * CurvePoint.compressedSize P)
      = 4 + i * CurvePoint.compressedSize P := Nat.mod_eq_of_lt (by omega)
  have hstop : target.wrap (4 + i * CurvePoint.compressedSize P + CurvePoint.compressedSize P)
      = 4 + i * CurvePoint.compressedSize P + CurvePoint.compressedSize P :=
    Nat.mod_eq_of_lt (by omega)
  simp only [decodeCoefficient]
  rw [hpos, hoffset, hstop, Outcome.slice, if_pos ⟨Nat.le_add_right _ _, by omega⟩,
    Outcome.ok_bind, Nat.add_sub_cancel_left, decodePoint, Chunks.chunk, List.drop_drop]

/-- With true offsets the coefficients are decoded from the pieces behind the index. -/
lemma mapM_decodeCoefficient_eq {target : Target} {bytes : Bytes} {n : ℕ}
    (hfit : 4 + n * CurvePoint.compressedSize P < 2 ^ target.bits)
    (hlen : bytes.length = 4 + n * CurvePoint.compressedSize P) :
    ((List.range n).mapM (decodeCoefficient target bytes) : Outcome Error (List P))
      = ((List.range n).map (Chunks.chunk (CurvePoint.compressedSize P) (bytes.drop 4))).mapM
        decodePoint := by
  rw [List.mapM_map]
  exact Outcome.mapM_congr fun i hi => decodeCoefficient_eq hfit hlen (List.mem_range.mp hi)

/-- The length that is checked is the true one when a vector can hold the points. -/
lemma expectedLen_eq {target : Target} {n : ℕ} (h : target.Holds n) :
    target.wrap (4 + target.wrap (n * CurvePoint.compressedSize P))
      = 4 + n * CurvePoint.compressedSize P := by
  have hfit := h.lt (compressedSize_le (P := P))
  have hpos : target.wrap (n * CurvePoint.compressedSize P)
      = n * CurvePoint.compressedSize P := Nat.mod_eq_of_lt (by omega)
  rw [hpos]
  exact Nat.mod_eq_of_lt hfit

/-- **What the decoder accepts.**  The check compares the length with a wrapped product, but
no vector holds so many points that it would wrap. -/
theorem fromBytes_eq_ok_iff {target : Target} {bytes : Bytes} {threshold : UInt32}
    {c : DealerCommitment P} : fromBytes target bytes threshold = .ok c ↔
      target.Holds threshold.toNat ∧
      bytes.length = 4 + threshold.toNat * CurvePoint.compressedSize P ∧
      c.dealerIndex = UInt32.ofNat (Framing.ofLeBytes (bytes.take 4)) ∧ c.dealerIndex ≠ 0 ∧
      List.Forall₂ (fun piece p => CurvePoint.decompress piece = some p)
        ((List.range threshold.toNat).map
          (Chunks.chunk (CurvePoint.compressedSize P) (bytes.drop 4))) c.coefficients := by
  constructor
  · intro h
    simp only [fromBytes, Outcome.bind_eq_ok_iff, Outcome.refuse_eq_ok_iff, not_not,
      Target.withCapacity_eq_ok_iff] at h
    obtain ⟨-, hlen, head, hhead, -, hindex, -, hholds, ps, hps, hc⟩ := h
    rw [expectedLen_eq hholds] at hlen
    rw [Outcome.slice_zero (by omega)] at hhead
    obtain rfl := Outcome.ok.inj hhead
    rw [mapM_decodeCoefficient_eq (hholds.lt compressedSize_le) hlen,
      mapM_decodePoint_eq_ok_iff] at hps
    split at hc
    · obtain rfl := Outcome.ok.inj hc
      exact ⟨hholds, hlen, rfl, hindex, hps⟩
    · cases hc
  · rintro ⟨hholds, hlen, hindex, hne, hps⟩
    have hfits : c.coefficients.length < 2 ^ 58 := c.fits
    simp only [fromBytes]
    rw [expectedLen_eq hholds, Outcome.refuse_of_neg (not_not_intro hlen), Outcome.ok_bind,
      Outcome.slice_zero (by omega), Outcome.ok_bind, ← hindex, Outcome.refuse_of_neg hne,
      Outcome.ok_bind, Target.withCapacity_of_holds hholds, Outcome.ok_bind,
      mapM_decodeCoefficient_eq (hholds.lt compressedSize_le) hlen,
      mapM_decodePoint_eq_ok_iff.mpr hps, Outcome.ok_bind, dif_pos hfits]

/-- A commitment without coefficients. -/
def empty (dealerIndex : UInt32) : DealerCommitment P := ⟨dealerIndex, [], Nat.two_pow_pos 58⟩

/-- It is decoded from the bytes of its index. -/
lemma fromBytes_empty (target : Target) {i : UInt32} (hi : i ≠ 0) :
    (fromBytes target (u32ToLeBytes i) 0 : Outcome Error (DealerCommitment P))
      = .ok (empty i) := by
  have hlen : ¬(u32ToLeBytes i).length ≠
      target.wrap (4 + target.wrap ((0 : UInt32).toNat * CurvePoint.compressedSize P)) := by
    rw [UInt32.toNat_zero, Nat.zero_mul, target.wrap_of_lt (n := 0) (by decide),
      target.wrap_of_lt (n := 4 + 0) (by decide), length_u32ToLeBytes]
    simp
  have htake : (u32ToLeBytes i).take 4 = u32ToLeBytes i :=
    List.take_of_length_le (length_u32ToLeBytes i).le
  have hroom : target.withCapacity (0 : UInt32).toNat = .ok () :=
    if_pos (by rw [UInt32.toNat_zero, Nat.zero_mul]; exact Nat.two_pow_pos _)
  simp only [fromBytes]
  rw [Outcome.refuse_of_neg hlen, Outcome.ok_bind,
    Outcome.slice_zero (length_u32ToLeBytes i).ge, Outcome.ok_bind, htake,
    SubShare.ofLeBytes_u32ToLeBytes, Outcome.refuse_of_neg hi, Outcome.ok_bind, hroom]
  rfl

end DealerCommitment

namespace Reshare.SharePolynomial

/-- Serialize as concatenated compressed points. -/
def toBytes (p : SharePolynomial P) : Bytes := p.coefficients.flatMap CurvePoint.compress

/-- Deserialize from bytes. -/
def fromBytes (target : Target) (bytes : Bytes) (threshold : UInt32) :
    Outcome Error (SharePolynomial P) := do
  let expected := target.wrap (CurvePoint.compressedSize P * threshold.toNat)
  .refuse (threshold = 0 ∨ bytes.length ≠ expected) .invalidCommitment
  target.withCapacity threshold.toNat
  let coefficients ← (Chunks.chunksExact (CurvePoint.compressedSize P) bytes).mapM decodePoint
  .ok ⟨coefficients⟩

/-- What the decoder accepts. -/
theorem fromBytes_eq_ok_iff {target : Target} {bytes : Bytes} {threshold : UInt32}
    {p : SharePolynomial P} : fromBytes target bytes threshold = .ok p ↔
      target.Holds threshold.toNat ∧ threshold ≠ 0 ∧
      bytes.length = threshold.toNat * CurvePoint.compressedSize P ∧
      List.Forall₂ (fun piece q => CurvePoint.decompress piece = some q)
        ((List.range threshold.toNat).map (Chunks.chunk (CurvePoint.compressedSize P) bytes))
        p.coefficients := by
  have hexact : target.Holds threshold.toNat →
      target.wrap (CurvePoint.compressedSize P * threshold.toNat)
        = threshold.toNat * CurvePoint.compressedSize P := fun hholds => by
    have hfit := hholds.lt (DealerCommitment.compressedSize_le (P := P))
    rw [mul_comm]
    exact Nat.mod_eq_of_lt (by omega)
  constructor
  · intro h
    simp only [fromBytes, Outcome.bind_eq_ok_iff, Outcome.refuse_eq_ok_iff, not_or, not_not,
      Target.withCapacity_eq_ok_iff] at h
    obtain ⟨-, ⟨h0, hlen⟩, -, hholds, ps, hps, hp⟩ := h
    rw [hexact hholds] at hlen
    rw [Chunks.chunksExact_eq DealerCommitment.compressedSize_pos hlen,
      mapM_decodePoint_eq_ok_iff] at hps
    obtain rfl := Outcome.ok.inj hp
    exact ⟨hholds, h0, hlen, hps⟩
  · rintro ⟨hholds, h0, hlen, hps⟩
    simp only [fromBytes]
    rw [hexact hholds, Outcome.refuse_of_neg (not_or.mpr ⟨h0, not_not_intro hlen⟩),
      Outcome.ok_bind, Target.withCapacity_of_holds hholds, Outcome.ok_bind,
      Chunks.chunksExact_eq DealerCommitment.compressedSize_pos hlen,
      mapM_decodePoint_eq_ok_iff.mpr hps, Outcome.ok_bind]

end Reshare.SharePolynomial

end Frostito
