import Frostito.Curve
import Frostito.Error
import Frostito.Lib.Outcome
import Frostito.Lib.Sharing

/-!
# Dealer commitments and sub-shares

The Feldman commitment of a dealer to its polynomial, the sub-share it sends to a player,
and the check of the one against the other.
-/

namespace Frostito

/-- A dealer's commitment to its polynomial.  A vector never allocates more than
`isize::MAX` bytes and a point occupies at least 32, which bounds the number of
coefficients. -/
structure DealerCommitment (P : Type) where
  /-- Dealer's index (1-indexed). -/
  dealerIndex : UInt32
  /-- Polynomial commitments `[g^{a_0}, g^{a_1}, ...]`. -/
  coefficients : List P
  fits : coefficients.length < 2 ^ 58

/-- Sub-share from dealer to player. -/
structure SubShare (S : Type) where
  dealerIndex : UInt32
  playerIndex : UInt32
  value : S
deriving DecidableEq

variable {S P : Type} [CurveScalar S] [CurvePoint P S]

namespace DealerCommitment

/-- Create a commitment from polynomial coefficients. -/
def fromPolynomial (dealerIndex : UInt32) (coefficients : List S) :
    Outcome Error (DealerCommitment P) := do
  .refuse (dealerIndex = 0) .invalidIndex
  .refuse (coefficients = []) .emptyContributions
  let committed : List P := coefficients.map fun a => a • generator
  -- collecting more points than a vector can hold is a capacity overflow
  if h : committed.length < 2 ^ 58 then
    .ok ⟨dealerIndex, committed, h⟩
  else
    .panic

/-- Threshold (degree + 1) of the committed polynomial: `self.coefficients.len() as u32`. -/
def threshold (c : DealerCommitment P) : UInt32 := UInt32.ofNat c.coefficients.length

/-- Commitment to the constant term, `&self.coefficients[0]`. -/
def shareCommitment {ε : Type} (c : DealerCommitment P) : Outcome ε P :=
  .expectSome c.coefficients.head?

/-- Evaluate the commitment at player index `j`. -/
def evaluateAt (c : DealerCommitment P) (playerIndex : UInt32) : Outcome Error P := do
  .refuse (playerIndex = 0) .invalidIndex
  .ok (Horner.horner (fromU32 playerIndex : S) c.coefficients)

/-- Verify a sub-share against this commitment. -/
def verifySubshare (c : DealerCommitment P) (playerIndex : UInt32) (subShare : S) : Bool :=
  if playerIndex = 0 then false else
  match c.evaluateAt playerIndex with
  | .ok expected => decide (subShare • (generator : P) = expected)
  | _ => false

/-- Compressed byte size. -/
def byteSize (c : DealerCommitment P) : ℕ :=
  4 + c.coefficients.length * CurvePoint.compressedSize P

/-- Serialize to bytes. -/
def toBytes (c : DealerCommitment P) : Bytes :=
  u32ToLeBytes c.dealerIndex ++ c.coefficients.flatMap CurvePoint.compress

/-! ### The checks -/

omit [CurveScalar S] [CurvePoint P S] in
@[ext] lemma ext {c c' : DealerCommitment P} (hi : c.dealerIndex = c'.dealerIndex)
    (hc : c.coefficients = c'.coefficients) : c = c' := by
  cases c
  cases c'
  simp_all

omit [CurveScalar S] [CurvePoint P S] in
lemma shareCommitment_eq_ok {ε : Type} {c : DealerCommitment P} (h : c.coefficients ≠ []) (d : P) :
    (c.shareCommitment : Outcome ε P) = .ok (c.coefficients.headD d) := by
  obtain ⟨a, as, hc⟩ := List.exists_cons_of_ne_nil h
  rw [shareCommitment, hc]
  rfl

omit [CurveScalar S] [CurvePoint P S] in
lemma shareCommitment_eq_ok_iff {ε : Type} {c : DealerCommitment P} {p : P} :
    (c.shareCommitment : Outcome ε P) = .ok p ↔ c.coefficients.head? = some p := by
  simp [shareCommitment]

omit [CurveScalar S] [CurvePoint P S] in
lemma shareCommitment_eq_panic {ε : Type} {c : DealerCommitment P} (h : c.coefficients = []) :
    (c.shareCommitment : Outcome ε P) = .panic := by
  rw [shareCommitment, h]
  rfl

lemma evaluateAt_of_ne_zero (c : DealerCommitment P) {j : UInt32} (hj : j ≠ 0) :
    c.evaluateAt j = .ok (Horner.horner (fromU32 j : S) c.coefficients) := by
  rw [evaluateAt, Outcome.refuse_of_neg hj, Outcome.ok_bind]

/-- A sub-share verifies exactly when it is the player's share of the committed sharing. -/
lemma verifySubshare_iff {c : DealerCommitment P} {j : UInt32} {s : S} :
    c.verifySubshare j s = true ↔
      j ≠ 0 ∧ Sharing.IsShare (generator : P) c.coefficients (fromU32 j) s := by
  unfold verifySubshare
  split
  · next hj => simp [hj]
  · next hj => simp [evaluateAt_of_ne_zero c hj, hj, Sharing.IsShare]

/-- The constant term behind an honest commitment is `a_0 · G`. -/
lemma fromPolynomial_eq_ok {i : UInt32} (hi : i ≠ 0) {coeffs : List S} (hne : coeffs ≠ [])
    (hlen : coeffs.length < 2 ^ 58) :
    ∃ h, (fromPolynomial i coeffs : Outcome Error (DealerCommitment P))
      = .ok ⟨i, coeffs.map fun a => a • generator, h⟩ := by
  have h : (coeffs.map fun a => a • (generator : P)).length < 2 ^ 58 := by simpa using hlen
  refine ⟨h, ?_⟩
  simp only [fromPolynomial, Outcome.refuse_of_neg hi, Outcome.refuse_of_neg hne,
    Outcome.ok_bind]
  rw [dif_pos h]

/-! ### The encoding -/

lemma compressedSize_pos : 0 < CurvePoint.compressedSize P := by
  rcases CurvePoint.compressedSize_mem (P := P) with h | h <;> omega

lemma length_toBytes [LawfulCompress P] (c : DealerCommitment P) :
    c.toBytes.length = c.byteSize := by
  rw [toBytes, List.length_append, length_u32ToLeBytes,
    Framing.length_flatMap_of_width LawfulCompress.length_compress, mul_comm, byteSize]

/-- The encoded length fits the eight bytes it is written in. -/
lemma length_toBytes_lt [LawfulCompress P] (c : DealerCommitment P) :
    c.toBytes.length < 2 ^ 64 := by
  have hfits := c.fits
  rw [length_toBytes, byteSize]
  rcases CurvePoint.compressedSize_mem (P := P) with h | h <;> rw [h] <;> omega

/-- The encoding determines the commitment. -/
theorem toBytes_injective [LawfulCompress P] :
    Function.Injective (toBytes : DealerCommitment P → Bytes) := by
  intro c c' h
  obtain ⟨hindex, hpoints⟩ := selfDelimiting_u32 trivial trivial h
  have hlen := Framing.length_eq_of_flatMap_eq compressedSize_pos
    LawfulCompress.length_compress hpoints
  have hcoeffs := selfDelimiting_compress.flatMap (fun _ _ => trivial) (fun _ _ => trivial)
    hlen (congrArg (· ++ []) hpoints)
  exact ext hindex hcoeffs.1

end DealerCommitment

namespace SubShare

/-- `SubShare::new`. -/
def new (dealerIndex playerIndex : UInt32) (value : S) : Outcome Error (SubShare S) := do
  .refuse (dealerIndex = 0 ∨ playerIndex = 0) .invalidIndex
  .ok ⟨dealerIndex, playerIndex, value⟩

/-- `dealer_index:4 ‖ player_index:4 ‖ value:32`, the secret scalar in the clear. -/
def encodePlaintext (s : SubShare S) : Bytes :=
  u32ToLeBytes s.dealerIndex ++ u32ToLeBytes s.playerIndex ++
    (CurveScalar.toBytes s.value).toList

/-- Inverse of `encodePlaintext`. -/
def decodePlaintext (bytes : Vector UInt8 40) : Outcome Error (SubShare S) := do
  let dealerIndex := UInt32.ofNat (Framing.ofLeBytes (bytes.toList.take 4))
  let playerIndex := UInt32.ofNat (Framing.ofLeBytes ((bytes.toList.drop 4).take 4))
  .refuse (dealerIndex = 0 ∨ playerIndex = 0) .invalidIndex
  let valueBytes : Vector UInt8 32 := bytes.drop 8
  let value ← .okOr (CurveScalar.fromCanonicalBytes valueBytes) .invalidResponse
  .ok ⟨dealerIndex, playerIndex, value⟩

omit [CurveScalar S] in
lemma new_eq_ok {i j : UInt32} (hi : i ≠ 0) (hj : j ≠ 0) (value : S) :
    SubShare.new i j value = .ok ⟨i, j, value⟩ := by
  rw [SubShare.new, Outcome.refuse_of_neg (by simp [hi, hj]), Outcome.ok_bind]

lemma ofLeBytes_u32ToLeBytes (v : UInt32) :
    UInt32.ofNat (Framing.ofLeBytes (u32ToLeBytes v)) = v := by
  rw [u32ToLeBytes, Framing.ofLeBytes_leBytes v.toNat_lt, UInt32.ofNat_toNat]

lemma length_encodePlaintext (s : SubShare S) : s.encodePlaintext.length = 40 := by
  simp [encodePlaintext]

/-- An encoding is read back as the sub-share built anew, its indices checked. -/
lemma decodePlaintext_eq_new [LawfulScalarBytes S] {s : SubShare S} {bytes : Vector UInt8 40}
    (hbytes : bytes.toList = s.encodePlaintext) :
    decodePlaintext bytes = SubShare.new s.dealerIndex s.playerIndex s.value := by
  have hdealer : bytes.toList.take 4 = u32ToLeBytes s.dealerIndex := by
    rw [hbytes, encodePlaintext, List.append_assoc, List.take_left' (by simp)]
  have hplayer : (bytes.toList.drop 4).take 4 = u32ToLeBytes s.playerIndex := by
    rw [hbytes, encodePlaintext, List.append_assoc, List.drop_left' (by simp),
      List.take_left' (by simp)]
  have hvalue : bytes.drop 8 = CurveScalar.toBytes s.value := by
    refine Vector.toList_inj.mp ?_
    rw [Vector.toList_drop, hbytes, encodePlaintext, List.drop_left' (by simp)]
  rw [decodePlaintext, SubShare.new, hdealer, hplayer, ofLeBytes_u32ToLeBytes,
    ofLeBytes_u32ToLeBytes, hvalue]
  dsimp only
  rw [LawfulScalarBytes.fromCanonicalBytes_toBytes, Outcome.okOr_some, Outcome.ok_bind]

/-- A sub-share without a zero index is read back. -/
theorem decodePlaintext_encodePlaintext [LawfulScalarBytes S] {s : SubShare S}
    (hi : s.dealerIndex ≠ 0) (hj : s.playerIndex ≠ 0) {bytes : Vector UInt8 40}
    (hbytes : bytes.toList = s.encodePlaintext) : decodePlaintext bytes = .ok s := by
  rw [decodePlaintext_eq_new hbytes, new_eq_ok hi hj]

/-- What is read from an encoding is what was encoded. -/
lemma eq_of_decodePlaintext [LawfulScalarBytes S] {s s' : SubShare S} {bytes : Vector UInt8 40}
    (hbytes : bytes.toList = s.encodePlaintext) (h : decodePlaintext bytes = .ok s') : s' = s := by
  rw [decodePlaintext_eq_new hbytes, SubShare.new, Outcome.bind_eq_ok_iff] at h
  obtain ⟨_, -, hs⟩ := h
  exact (Outcome.ok.inj hs).symm

/-- A decoded sub-share has no zero index. -/
lemma ne_zero_of_decodePlaintext {bytes : Vector UInt8 40} {s : SubShare S}
    (h : decodePlaintext bytes = .ok s) : s.dealerIndex ≠ 0 ∧ s.playerIndex ≠ 0 := by
  simp only [decodePlaintext, Outcome.bind_eq_ok_iff, Outcome.refuse_eq_ok_iff] at h
  obtain ⟨_, hidx, value, -, hs⟩ := h
  rw [← Outcome.ok.inj hs]
  exact not_or.mp hidx

end SubShare

end Frostito
