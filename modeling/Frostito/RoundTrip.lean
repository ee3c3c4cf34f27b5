import Frostito.Codec
import Frostito.Dkg.Complaint
import Frostito.Reference.Lines
import Frostito.Reference.Padded

/-!
# The wire codecs

On a backend whose decoders accept exactly what its encoders write, a decoded value is the
value whose encoding was received: nothing else is accepted for it.  The converse, that every
value is read back from its encoding, holds of commitments and polynomials up to the number of
coefficients that their `threshold` can tell its reader.
-/

namespace Frostito

/-- Points are decoded from exactly the encodings that `compress` writes. -/
class ExactPoints (P : Type) {S : outParam Type} [CurveScalar S] [CurvePoint P S] : Prop where
  decompress_eq_some_iff : ∀ (bytes : Bytes) (p : P),
    CurvePoint.decompress bytes = some p ↔ CurvePoint.compress p = bytes

/-- Scalars are decoded from exactly their canonical bytes. -/
class ExactScalars (S : Type) [CurveScalar S] : Prop where
  fromCanonicalBytes_eq_some_iff : ∀ (bytes : Vector UInt8 32) (x : S),
    CurveScalar.fromCanonicalBytes bytes = some x ↔ CurveScalar.toBytes x = bytes

instance {S : Type} [CurveScalar S] [ExactScalars S] : LawfulScalarBytes S where
  fromCanonicalBytes_toBytes x :=
    (ExactScalars.fromCanonicalBytes_eq_some_iff _ x).mpr rfl

variable {S P : Type} [CurveScalar S] [CurvePoint P S]

/-- The index read from the front of a byte string is the one whose bytes stand there. -/
lemma ofNat_ofLeBytes_eq_iff {bytes : Bytes} (h : bytes.length = 4) {i : UInt32} :
    i = UInt32.ofNat (Framing.ofLeBytes bytes) ↔ u32ToLeBytes i = bytes := by
  have hlt : Framing.ofLeBytes bytes < 2 ^ 32 := by
    have hbytes := Framing.ofLeBytes_lt bytes
    rw [h] at hbytes
    exact hbytes
  constructor
  · rintro rfl
    rw [u32ToLeBytes, UInt32.toNat_ofNat_of_lt' hlt, ← h]
    exact Framing.leBytes_ofLeBytes bytes
  · rintro rfl
    exact (SubShare.ofLeBytes_u32ToLeBytes i).symm

section Points

variable [LawfulCompress P] [ExactPoints P]

/-- What the pieces of a byte string decode to. -/
lemma forall₂_decompress_iff {bytes : Bytes} {n : ℕ}
    (h : bytes.length = n * CurvePoint.compressedSize P) {ps : List P} :
    List.Forall₂ (fun piece p => CurvePoint.decompress piece = some p)
        ((List.range n).map (Chunks.chunk (CurvePoint.compressedSize P) bytes)) ps ↔
      ps.length = n ∧ ps.flatMap CurvePoint.compress = bytes :=
  Chunks.forall₂_decode_iff LawfulCompress.length_compress ExactPoints.decompress_eq_some_iff h

/-- A commitment is decoded from exactly its encoding. -/
theorem DealerCommitment.fromBytes_eq_ok_iff_toBytes {target : Target} {bytes : Bytes}
    {threshold : UInt32} {c : DealerCommitment P} :
    fromBytes target bytes threshold = .ok c ↔
      target.Holds threshold.toNat ∧ c.dealerIndex ≠ 0 ∧
      c.coefficients.length = threshold.toNat ∧ c.toBytes = bytes := by
  rw [fromBytes_eq_ok_iff]
  constructor
  · rintro ⟨hholds, hlen, hindex, hne, hps⟩
    obtain ⟨hcount, hpoints⟩ := (forall₂_decompress_iff (by rw [List.length_drop]; omega)).mp hps
    refine ⟨hholds, hne, hcount, ?_⟩
    rw [toBytes, (ofNat_ofLeBytes_eq_iff (by rw [List.length_take]; omega)).mp hindex, hpoints,
      List.take_append_drop]
  · rintro ⟨hholds, hne, hcount, rfl⟩
    have hlen := c.length_toBytes
    rw [byteSize, hcount] at hlen
    have htake : c.toBytes.take 4 = u32ToLeBytes c.dealerIndex :=
      List.take_left' (length_u32ToLeBytes _)
    have hdrop : c.toBytes.drop 4 = c.coefficients.flatMap CurvePoint.compress :=
      List.drop_left' (length_u32ToLeBytes _)
    refine ⟨hholds, hlen, ?_, hne, ?_⟩
    · rw [htake, SubShare.ofLeBytes_u32ToLeBytes]
    · rw [hdrop, forall₂_decompress_iff]
      · exact ⟨hcount, rfl⟩
      · rw [Framing.length_flatMap_of_width LawfulCompress.length_compress, hcount, mul_comm]

/-- A polynomial is decoded from exactly its encoding. -/
theorem Reshare.SharePolynomial.fromBytes_eq_ok_iff_toBytes {target : Target} {bytes : Bytes}
    {threshold : UInt32} {p : SharePolynomial P} :
    fromBytes target bytes threshold = .ok p ↔
      target.Holds threshold.toNat ∧ threshold ≠ 0 ∧
      p.coefficients.length = threshold.toNat ∧ p.toBytes = bytes := by
  rw [fromBytes_eq_ok_iff]
  constructor
  · rintro ⟨hholds, h0, hlen, hps⟩
    exact ⟨hholds, h0, (forall₂_decompress_iff hlen).mp hps⟩
  · rintro ⟨hholds, h0, hcount, rfl⟩
    have hlen : p.toBytes.length = threshold.toNat * CurvePoint.compressedSize P := by
      rw [toBytes, Framing.length_flatMap_of_width LawfulCompress.length_compress, hcount,
        mul_comm]
    exact ⟨hholds, h0, hlen, (forall₂_decompress_iff hlen).mpr ⟨hcount, rfl⟩⟩

end Points

/-- A sub-share is decoded from exactly its encoding. -/
theorem SubShare.decodePlaintext_eq_ok_iff [ExactScalars S] {bytes : Vector UInt8 40}
    {s : SubShare S} : decodePlaintext bytes = .ok s ↔
      (s.dealerIndex ≠ 0 ∧ s.playerIndex ≠ 0) ∧ s.encodePlaintext = bytes.toList := by
  constructor
  · intro h
    have hne := ne_zero_of_decodePlaintext h
    simp only [decodePlaintext, Outcome.bind_eq_ok_iff, Outcome.okOr_eq_ok_iff] at h
    obtain ⟨_, -, value, hvalue, hs⟩ := h
    have hdealer : u32ToLeBytes s.dealerIndex = bytes.toList.take 4 :=
      (ofNat_ofLeBytes_eq_iff (by simp)).mp (by rw [← Outcome.ok.inj hs])
    have hplayer : u32ToLeBytes s.playerIndex = (bytes.toList.drop 4).take 4 :=
      (ofNat_ofLeBytes_eq_iff (by simp)).mp (by rw [← Outcome.ok.inj hs])
    have hval : (CurveScalar.toBytes s.value).toList = bytes.toList.drop 8 := by
      rw [← Outcome.ok.inj hs,
        (ExactScalars.fromCanonicalBytes_eq_some_iff _ value).mp hvalue, Vector.toList_drop]
    refine ⟨hne, ?_⟩
    have hrest : bytes.toList.drop 8 = (bytes.toList.drop 4).drop 4 := by rw [List.drop_drop]
    rw [encodePlaintext, hdealer, hplayer, hval, hrest, List.append_assoc,
      List.take_append_drop, List.take_append_drop]
  · rintro ⟨⟨hi, hj⟩, hbytes⟩
    exact decodePlaintext_encodePlaintext hi hj hbytes.symm

/-! ### The values -/

/-- A `u32` holds the number of coefficients when it is below `2 ^ 32`. -/
lemma eq_toNat_ofNat_iff {n : ℕ} : n = (UInt32.ofNat n).toNat ↔ n < 2 ^ 32 := by
  rw [UInt32.toNat_ofNat']
  constructor
  · intro h
    rw [h]
    exact Nat.mod_lt _ (by norm_num)
  · exact fun h => (Nat.mod_eq_of_lt h).symm

section Values

variable [LawfulCompress P] [ExactPoints P] {target : Target}

lemma DealerCommitment.fromBytes_toBytes_iff {c : DealerCommitment P} (hc : c.dealerIndex ≠ 0)
    (hholds : target.Holds c.coefficients.length) :
    fromBytes target c.toBytes c.threshold = .ok c ↔ c.coefficients.length < 2 ^ 32 := by
  rw [fromBytes_eq_ok_iff_toBytes, threshold]
  constructor
  · rintro ⟨-, -, hcount, -⟩
    exact eq_toNat_ofNat_iff.mp hcount
  · intro hlt
    have hcount := eq_toNat_ofNat_iff.mpr hlt
    exact ⟨hcount ▸ hholds, hc, hcount, rfl⟩

lemma Reshare.SharePolynomial.fromBytes_toBytes_iff {p : SharePolynomial P}
    (hp : p.coefficients ≠ []) (hholds : target.Holds p.coefficients.length) :
    fromBytes target p.toBytes p.threshold = .ok p ↔ p.coefficients.length < 2 ^ 32 := by
  rw [fromBytes_eq_ok_iff_toBytes, threshold]
  constructor
  · rintro ⟨-, -, hcount, -⟩
    exact eq_toNat_ofNat_iff.mp hcount
  · intro hlt
    have hcount := eq_toNat_ofNat_iff.mpr hlt
    refine ⟨hcount ▸ hholds, fun h0 => hp ?_, hcount, rfl⟩
    rw [h0] at hcount
    exact List.eq_nil_of_length_eq_zero hcount

end Values

section Exact

variable [Sha2]

/-- Two encodings of commitments that are hashed to one digest. -/
def DigestCollision (bytes bytes' : Bytes) : Prop :=
  bytes ≠ bytes' ∧ sha512Trunc (commitmentDigestDomain ++ bytes)
    = sha512Trunc (commitmentDigestDomain ++ bytes')

/-- **The codecs are inverse to each other**, up to the number of coefficients that a
threshold can name. -/
theorem codecs_exact_iff [LawfulCompress P] [ExactPoints P] [ExactScalars S] (target : Target) :
    (∀ c : DealerCommitment P, c.dealerIndex ≠ 0 → target.Holds c.coefficients.length →
      (DealerCommitment.fromBytes target c.toBytes c.threshold = .ok c ↔
        c.coefficients.length < 2 ^ 32)) ∧
    (∀ p : Reshare.SharePolynomial P, p.coefficients ≠ [] →
      target.Holds p.coefficients.length →
      (Reshare.SharePolynomial.fromBytes target p.toBytes p.threshold = .ok p ↔
        p.coefficients.length < 2 ^ 32)) ∧
    (∀ (s : SubShare S) (bytes : Vector UInt8 40), bytes.toList = s.encodePlaintext →
      (SubShare.decodePlaintext bytes = .ok s ↔ s.dealerIndex ≠ 0 ∧ s.playerIndex ≠ 0)) ∧
    (∀ (bytes : Bytes) (threshold : UInt32) (c : DealerCommitment P),
      DealerCommitment.fromBytes target bytes threshold = .ok c →
        c.toBytes = bytes ∧ c.coefficients.length = threshold.toNat ∧ c.dealerIndex ≠ 0) ∧
    (∀ (bytes : Bytes) (threshold : UInt32) (p : Reshare.SharePolynomial P),
      Reshare.SharePolynomial.fromBytes target bytes threshold = .ok p →
        p.toBytes = bytes ∧ p.coefficients.length = threshold.toNat ∧ p.coefficients ≠ []) ∧
    (∀ (bytes : Vector UInt8 40) (s : SubShare S), SubShare.decodePlaintext bytes = .ok s →
      s.encodePlaintext = bytes.toList ∧ s.dealerIndex ≠ 0 ∧ s.playerIndex ≠ 0) ∧
    ∀ (bytes bytes' : Bytes) (threshold threshold' : UInt32) (c c' : DealerCommitment P),
      DealerCommitment.fromBytes target bytes threshold = .ok c →
      DealerCommitment.fromBytes target bytes' threshold' = .ok c' →
      commitmentDigest c = commitmentDigest c' →
        bytes = bytes' ∨ DigestCollision bytes bytes' := by
  refine ⟨fun c hc hholds => c.fromBytes_toBytes_iff hc hholds,
    fun p hp hholds => p.fromBytes_toBytes_iff hp hholds, fun s bytes hbytes => ?_,
    fun bytes threshold c h => ?_, fun bytes threshold p h => ?_, fun bytes s h => ?_,
    fun bytes bytes' threshold threshold' c c' h h' hdigest => ?_⟩
  · rw [SubShare.decodePlaintext_eq_ok_iff, and_iff_left hbytes.symm]
  · obtain ⟨-, hne, hcount, hbytes⟩ := DealerCommitment.fromBytes_eq_ok_iff_toBytes.mp h
    exact ⟨hbytes, hcount, hne⟩
  · obtain ⟨-, h0, hcount, hbytes⟩ := Reshare.SharePolynomial.fromBytes_eq_ok_iff_toBytes.mp h
    refine ⟨hbytes, hcount, fun hnil => ?_⟩
    rw [hnil, List.length_nil] at hcount
    exact toNat_ne_zero_iff.mpr h0 hcount.symm
  · obtain ⟨hne, hbytes⟩ := SubShare.decodePlaintext_eq_ok_iff.mp h
    exact ⟨hbytes, hne⟩
  · obtain ⟨-, -, -, rfl⟩ := DealerCommitment.fromBytes_eq_ok_iff_toBytes.mp h
    obtain ⟨-, -, -, rfl⟩ := DealerCommitment.fromBytes_eq_ok_iff_toBytes.mp h'
    by_cases heq : c.toBytes = c'.toBytes
    · exact .inl heq
    · exact .inr ⟨heq, hdigest⟩

end Exact

section Long

open Reference

scoped instance : ExactPoints Residue where
  decompress_eq_some_iff _ _ := Residue.ofBytes_eq_some_iff

scoped instance : ExactScalars Residue where
  fromCanonicalBytes_eq_some_iff _ _ := Residue.ofBytes_eq_some_iff.trans Vector.toList_inj

/-- A commitment to a line and the polynomial of a line are read back, on explicit bytes. -/
theorem codecs_exact_iff_two :
    DealerCommitment.fromBytes target64 (lineCommitment 1 14 2).toBytes
      (lineCommitment 1 14 2).threshold = .ok (lineCommitment 1 14 2) ∧
    ∀ p : Reshare.SharePolynomial Residue, p.coefficients = (lineCommitment 1 14 2).coefficients →
      Reshare.SharePolynomial.fromBytes target64 p.toBytes p.threshold = .ok p := by
  obtain ⟨hcommitment, hpolynomial, -⟩ := codecs_exact_iff (P := Residue) target64
  refine ⟨(hcommitment (lineCommitment 1 14 2) (show (1 : UInt32) ≠ 0 by decide)
    (show 2 * 160 < 2 ^ 63 by norm_num)).mpr (show 2 < 2 ^ 32 by norm_num), fun p hp => ?_⟩
  have hlength : p.coefficients.length = 2 := by
    rw [hp]
    rfl
  refine (hpolynomial p (hp ▸ List.cons_ne_nil _ _) ?_).mpr (hlength.trans_lt (by norm_num))
  rw [hlength]
  exact show 2 * 160 < 2 ^ 63 by norm_num

/-- `2 ^ 32` coefficients fit. -/
lemma fits_long : 4294967295 + 1 < 2 ^ 58 := by
  norm_num

/-- A commitment of `2 ^ 32` coefficients calls its threshold zero, and is not read back. -/
theorem long_commitment_not_read_back :
    (padded 1 4294967295 fits_long).dealerIndex ≠ 0 ∧
    target64.Holds (padded 1 4294967295 fits_long).coefficients.length ∧
    (padded 1 4294967295 fits_long).threshold = 0 ∧
    (DealerCommitment.fromBytes target64 (padded 1 4294967295 fits_long).toBytes
      (padded 1 4294967295 fits_long).threshold : Outcome Error (DealerCommitment Residue))
      = .err .invalidCommitment := by
  have hthreshold : (padded 1 4294967295 fits_long).threshold = 0 := by
    rw [threshold_padded]
    rfl
  have hlen : (padded 1 4294967295 fits_long).toBytes.length = 4 + 4294967296 * 32 := by
    rw [DealerCommitment.length_toBytes, DealerCommitment.byteSize, length_padded]
    rfl
  refine ⟨show (1 : UInt32) ≠ 0 by decide, ?_, hthreshold, ?_⟩
  · rw [length_padded, Target.Holds]
    norm_num [target64]
  · rw [hthreshold, DealerCommitment.fromBytes]
    dsimp only
    rw [Outcome.refuse_of_pos, Outcome.err_bind]
    rw [hlen, UInt32.toNat_zero, Nat.zero_mul, target64.wrap_of_lt (by decide),
      target64.wrap_of_lt (by decide)]
    norm_num

end Long

end Frostito
