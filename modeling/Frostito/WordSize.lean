import Frostito.Codec
import Frostito.Reference.Backend

/-!
# The word size of the target

Where `usize` has 32 bits the length that a decoder expects is a product that can wrap.  Here
the decoders tell apart what made them panic: a slice out of range, or a vector that cannot be
allocated.  A wrapped length is refused by the allocation, except where it is so short that the
index itself cannot be sliced off; these inputs are listed.
-/

namespace Frostito

/-- What stops a decoder. -/
inductive Stop where
  /-- It returned an error. -/
  | refused (e : Error)
  /-- `&bytes[start..stop]` with a range that is not one of the slice. -/
  | sliceOutOfRange
  /-- `Vec::with_capacity` for more than `isize::MAX` bytes. -/
  | capacityOverflow
deriving DecidableEq

namespace Stop

variable {α β : Type}

/-- A caller that does not ask why a panic happened. -/
def forget : Outcome Stop α → Outcome Error α
  | .ok a => .ok a
  | .err (.refused e) => .err e
  | .err _ => .panic
  | .panic => .panic

lemma forget_bind (x : Outcome Stop α) (f : α → Outcome Stop β) :
    forget (x >>= f) = forget x >>= fun a => forget (f a) := by
  rcases x with a | ⟨e | _ | _⟩ | _ <;> rfl

lemma forget_refuse (c : Prop) [Decidable c] (e : Error) :
    forget (.refuse c (.refused e)) = .refuse c e := by
  unfold Outcome.refuse
  split <;> rfl

lemma forget_okOr (x : Option α) (e : Error) : forget (.okOr x (.refused e)) = .okOr x e := by
  cases x <;> rfl

lemma forget_dite {c : Prop} [Decidable c] (f : c → α) :
    forget (if h : c then .ok (f h) else .err .capacityOverflow)
      = if h : c then .ok (f h) else .panic := by
  split <;> rfl

lemma forget_mapM (xs : List α) (f : α → Outcome Stop β) :
    forget (xs.mapM f) = xs.mapM fun x => forget (f x) := by
  induction xs with
  | nil => rfl
  | cons x xs ih =>
    rw [List.mapM_cons, List.mapM_cons, forget_bind]
    congr 1
    funext y
    rw [forget_bind, ih]
    rfl

/-- `&xs[start..stop]`. -/
def slice (xs : List α) (start stop : ℕ) : Outcome Stop (List α) :=
  if start ≤ stop ∧ stop ≤ xs.length then .ok ((xs.drop start).take (stop - start))
  else .err .sliceOutOfRange

lemma forget_slice (xs : List α) (start stop : ℕ) :
    forget (slice xs start stop) = .slice xs start stop := by
  unfold slice Outcome.slice
  split <;> rfl

lemma slice_eq_err_iff {xs : List α} {start stop : ℕ} {s : Stop} :
    slice xs start stop = .err s ↔
      ¬(start ≤ stop ∧ stop ≤ xs.length) ∧ s = .sliceOutOfRange := by
  unfold slice
  split <;> simp_all [eq_comm]

/-- `Vec::with_capacity` for points. -/
def withCapacity (target : Target) (n : ℕ) : Outcome Stop Unit :=
  if n * target.pointBytes < 2 ^ (target.bits - 1) then .ok () else .err .capacityOverflow

lemma forget_withCapacity (target : Target) (n : ℕ) :
    forget (withCapacity target n) = target.withCapacity n := by
  unfold withCapacity Target.withCapacity
  split <;> rfl

lemma withCapacity_ne_slice (target : Target) (n : ℕ) :
    withCapacity target n ≠ .err .sliceOutOfRange := by
  unfold withCapacity
  split <;> simp

lemma withCapacity_eq_ok_iff {target : Target} {n : ℕ} {u : Unit} :
    withCapacity target n = .ok u ↔ target.Holds n := by
  unfold withCapacity Target.Holds
  split <;> simp_all

end Stop

variable {S P : Type} [CurveScalar S] [CurvePoint P S]

namespace DealerCommitment

/-- The `i`-th coefficient of an encoding, with the cause of a panic. -/
def decodeCoefficientStop (target : Target) (bytes : Bytes) (i : ℕ) : Outcome Stop P := do
  let offset := target.wrap (4 + target.wrap (i * CurvePoint.compressedSize P))
  let chunk ← Stop.slice bytes offset (target.wrap (offset + CurvePoint.compressedSize P))
  .okOr (CurvePoint.decompress chunk) (.refused .invalidCommitment)

/-- Deserialize from bytes, with the cause of a panic. -/
def fromBytesStop (target : Target) (bytes : Bytes) (threshold : UInt32) :
    Outcome Stop (DealerCommitment P) := do
  let expectedLen :=
    target.wrap (4 + target.wrap (threshold.toNat * CurvePoint.compressedSize P))
  .refuse (bytes.length ≠ expectedLen) (.refused .invalidCommitment)
  let head ← Stop.slice bytes 0 4
  let dealerIndex := UInt32.ofNat (Framing.ofLeBytes head)
  .refuse (dealerIndex = 0) (.refused .invalidIndex)
  Stop.withCapacity target threshold.toNat
  let coefficients ← (List.range threshold.toNat).mapM (decodeCoefficientStop target bytes)
  if h : coefficients.length < 2 ^ 58 then
    .ok ⟨dealerIndex, coefficients, h⟩
  else
    .err .capacityOverflow

lemma forget_decodeCoefficientStop (target : Target) (bytes : Bytes) (i : ℕ) :
    Stop.forget (decodeCoefficientStop target bytes i)
      = (decodeCoefficient target bytes i : Outcome Error P) := by
  simp only [decodeCoefficientStop, decodeCoefficient, Stop.forget_bind, Stop.forget_slice,
    Stop.forget_okOr]

/-- Without the causes it is the decoder. -/
theorem forget_fromBytesStop (target : Target) (bytes : Bytes) (threshold : UInt32) :
    Stop.forget (fromBytesStop target bytes threshold)
      = (fromBytes target bytes threshold : Outcome Error (DealerCommitment P)) := by
  simp only [fromBytesStop, fromBytes, Stop.forget_bind, Stop.forget_slice,
    Stop.forget_refuse, Stop.forget_withCapacity, Stop.forget_mapM,
    Stop.forget_dite, forget_decodeCoefficientStop]

/-- A coefficient of an encoding of the true length is in range. -/
lemma decodeCoefficientStop_ne {target : Target} {bytes : Bytes} {n i : ℕ}
    (hfit : 4 + n * CurvePoint.compressedSize P < 2 ^ target.bits)
    (hlen : bytes.length = 4 + n * CurvePoint.compressedSize P) (hi : i < n) :
    (decodeCoefficientStop target bytes i : Outcome Stop P) ≠ .err .sliceOutOfRange := by
  intro h
  have hpanic : (decodeCoefficient target bytes i : Outcome Error P) = .panic := by
    rw [← forget_decodeCoefficientStop, h]
    rfl
  rw [decodeCoefficient_eq hfit hlen hi] at hpanic
  exact Outcome.okOr_ne_panic _ _ hpanic

/-- **The only slice out of range is the index of a shorter input**, one whose length is the
wrapped product. -/
theorem fromBytesStop_eq_slice_iff {target : Target} {bytes : Bytes} {threshold : UInt32} :
    (fromBytesStop target bytes threshold : Outcome Stop (DealerCommitment P))
        = .err .sliceOutOfRange ↔
      bytes.length < 4 ∧ bytes.length =
        target.wrap (4 + target.wrap (threshold.toNat * CurvePoint.compressedSize P)) := by
  constructor
  · intro h
    simp only [fromBytesStop, Outcome.bind_eq_err_iff, Outcome.refuse_eq_err_iff,
      Outcome.refuse_eq_ok_iff, not_not, reduceCtorEq, and_false, false_or,
      Stop.slice_eq_err_iff, Stop.withCapacity_eq_ok_iff] at h
    obtain ⟨-, hlen, ⟨hshort, -⟩ | ⟨head, hhead, -, hindex, hrest⟩⟩ := h
    · exact ⟨by omega, hlen⟩
    · exfalso
      rcases hrest with hcap | ⟨-, hholds, hloop | ⟨ps, -, hend⟩⟩
      · exact Stop.withCapacity_ne_slice _ _ hcap
      · rw [expectedLen_eq hholds] at hlen
        exact Outcome.mapM_ne_err (fun i hi => decodeCoefficientStop_ne
          (hholds.lt compressedSize_le) hlen (List.mem_range.mp hi)) hloop
      · split at hend <;> cases hend
  · rintro ⟨hshort, hlen⟩
    simp only [fromBytesStop]
    rw [Outcome.refuse_of_neg (not_not_intro hlen), Outcome.ok_bind,
      Stop.slice_eq_err_iff.mpr ⟨by omega, rfl⟩, Outcome.err_bind]

end DealerCommitment

namespace Reshare.SharePolynomial

/-- Deserialize from bytes, with the cause of a panic; `chunks_exact` does not slice. -/
def fromBytesStop (target : Target) (bytes : Bytes) (threshold : UInt32) :
    Outcome Stop (SharePolynomial P) := do
  let expected := target.wrap (CurvePoint.compressedSize P * threshold.toNat)
  .refuse (threshold = 0 ∨ bytes.length ≠ expected) (.refused .invalidCommitment)
  Stop.withCapacity target threshold.toNat
  let coefficients ← (Chunks.chunksExact (CurvePoint.compressedSize P) bytes).mapM fun chunk =>
    .okOr (CurvePoint.decompress chunk) (.refused .invalidCommitment)
  .ok ⟨coefficients⟩

/-- Without the causes it is the decoder. -/
theorem forget_fromBytesStop (target : Target) (bytes : Bytes) (threshold : UInt32) :
    Stop.forget (fromBytesStop target bytes threshold)
      = (fromBytes target bytes threshold : Outcome Error (SharePolynomial P)) := by
  simp only [fromBytesStop, fromBytes, Stop.forget_bind, Stop.forget_refuse,
    Stop.forget_withCapacity, Stop.forget_mapM, Stop.forget_okOr]
  rfl

theorem fromBytesStop_ne_slice (target : Target) (bytes : Bytes) (threshold : UInt32) :
    (fromBytesStop target bytes threshold : Outcome Stop (SharePolynomial P))
      ≠ .err .sliceOutOfRange := by
  intro h
  simp only [fromBytesStop, Outcome.bind_eq_err_iff, Outcome.refuse_eq_err_iff, reduceCtorEq,
    and_false, false_or, or_false, exists_const] at h
  obtain ⟨-, -, hcap | ⟨-, -, hloop⟩⟩ := h
  · exact Stop.withCapacity_ne_slice _ _ hcap
  · refine Outcome.mapM_ne_err (fun chunk _ hchunk => ?_) hloop
    rw [Outcome.okOr_eq_err_iff] at hchunk
    exact absurd hchunk.2 (by decide)

end Reshare.SharePolynomial

/-! ### The inputs -/

/-- Lengths below 4 with the threshold whose wrapped product they are, for points of 33 bytes
and a `usize` of 32 bits. -/
def wrappedLengths : List (ℕ × ℕ) :=
  [(0, 130150524), (1, 1171354717), (2, 2212558910), (3, 3253763103)]

/-- `33` is invertible modulo the word size. -/
lemma eq_of_mul_33_mod_eq {t t' : ℕ} (ht : t < 2 ^ 32) (ht' : t' < 2 ^ 32)
    (h : t * 33 % 2 ^ 32 = t' * 33 % 2 ^ 32) : t = t' := by
  have hcoprime : Nat.gcd (2 ^ 32) 33 = 1 := by norm_num
  exact Nat.ModEq.eq_of_lt_of_lt (Nat.ModEq.cancel_right_of_coprime hcoprime h) ht ht'

lemma mem_wrappedLengths_iff {length t : ℕ} (ht : t < 2 ^ 32) :
    (length, t) ∈ wrappedLengths ↔ length < 4 ∧ length = (4 + t * 33 % 2 ^ 32) % 2 ^ 32 := by
  simp only [wrappedLengths, List.mem_cons, Prod.mk.injEq, List.not_mem_nil, or_false]
  constructor
  · rintro (⟨rfl, rfl⟩ | ⟨rfl, rfl⟩ | ⟨rfl, rfl⟩ | ⟨rfl, rfl⟩) <;> norm_num
  · rintro ⟨hshort, hlength⟩
    have hmod : t * 33 % 2 ^ 32 = 2 ^ 32 - 4 + length := by omega
    interval_cases length
    · exact .inl ⟨rfl, eq_of_mul_33_mod_eq ht (by norm_num) hmod⟩
    · exact .inr (.inl ⟨rfl, eq_of_mul_33_mod_eq ht (by norm_num) hmod⟩)
    · exact .inr (.inr (.inl ⟨rfl, eq_of_mul_33_mod_eq ht (by norm_num) hmod⟩))
    · exact .inr (.inr (.inr ⟨rfl, eq_of_mul_33_mod_eq ht (by norm_num) hmod⟩))

/-- Where `usize` has 64 bits no length wraps. -/
lemma wrap_eq_of_bits_eq_64 {target : Target} (hbits : target.bits = 64) {size t : ℕ}
    (hsize : size ≤ 33) (ht : t < 2 ^ 32) :
    target.wrap (4 + target.wrap (t * size)) = 4 + t * size := by
  have hproduct : t * size ≤ t * 33 := Nat.mul_le_mul_left t hsize
  have hinner : target.wrap (t * size) = t * size := by
    rw [Target.wrap, hbits, Nat.mod_eq_of_lt (by omega)]
  rw [hinner, Target.wrap, hbits, Nat.mod_eq_of_lt (by omega)]

/-- A wrapped length is short enough only for points of 33 bytes on a 32-bit target. -/
lemma short_wrap_iff (target : Target) {size : ℕ} (hsize : size = 32 ∨ size = 33) {length t : ℕ}
    (ht : t < 2 ^ 32) :
    (length < 4 ∧ length = target.wrap (4 + target.wrap (t * size))) ↔
      target.bits = 32 ∧ size = 33 ∧ (length, t) ∈ wrappedLengths := by
  rcases target.bits_mem with hbits | hbits
  · rw [mem_wrappedLengths_iff ht, Target.wrap, Target.wrap, hbits]
    rcases hsize with rfl | rfl
    · -- the wrapped length is 4 modulo 32
      constructor
      · rintro ⟨hshort, hlength⟩
        omega
      · rintro ⟨-, h, -⟩
        omega
    · simp only [true_and]
  · rw [wrap_eq_of_bits_eq_64 hbits (by omega) ht]
    constructor
    · rintro ⟨hshort, hlength⟩
      omega
    · rintro ⟨h, -⟩
      omega

/-- **The decoders' lengths are exact on every target**, but for the inputs shorter than the
index they hold whose lengths are wrapped products. -/
theorem lengths_exact_iff (target : Target) (bytes : Bytes) (threshold : UInt32) :
    ((DealerCommitment.fromBytesStop target bytes threshold : Outcome Stop (DealerCommitment P))
        ≠ .err .sliceOutOfRange ∧
      (∀ c : DealerCommitment P, DealerCommitment.fromBytes target bytes threshold = .ok c →
        bytes.length = 4 + threshold.toNat * CurvePoint.compressedSize P ∧
          c.coefficients.length = threshold.toNat) ∧
      (Reshare.SharePolynomial.fromBytesStop target bytes threshold :
        Outcome Stop (Reshare.SharePolynomial P)) ≠ .err .sliceOutOfRange ∧
      ∀ p : Reshare.SharePolynomial P,
        Reshare.SharePolynomial.fromBytes target bytes threshold = .ok p →
          bytes.length = threshold.toNat * CurvePoint.compressedSize P ∧
            p.coefficients.length = threshold.toNat) ↔
    ¬(target.bits = 32 ∧ CurvePoint.compressedSize P = 33 ∧
      (bytes.length, threshold.toNat) ∈ wrappedLengths) := by
  rw [Ne, DealerCommitment.fromBytesStop_eq_slice_iff,
    short_wrap_iff target CurvePoint.compressedSize_mem threshold.toNat_lt]
  refine ⟨And.left, fun h => ⟨h, fun c hc => ?_,
    Reshare.SharePolynomial.fromBytesStop_ne_slice _ _ _, fun p hp => ?_⟩⟩
  · obtain ⟨-, hlen, -, -, hps⟩ := DealerCommitment.fromBytes_eq_ok_iff.mp hc
    exact ⟨hlen, by simpa using hps.length_eq.symm⟩
  · obtain ⟨-, -, hlen, hps⟩ := Reshare.SharePolynomial.fromBytes_eq_ok_iff.mp hp
    exact ⟨hlen, by simpa using hps.length_eq.symm⟩

section Narrow

open Reference

/-- The residues with a tag in front of their bytes: points as wide as those of secp256k1. -/
def Tagged : Type := Residue

instance : AddCommGroup Tagged := inferInstanceAs (AddCommGroup Residue)

instance : Module Residue Tagged := inferInstanceAs (Module Residue Residue)

instance : CurvePoint Tagged Residue where
  decEq := inferInstanceAs (DecidableEq Residue)
  compressedSize := 33
  compressedSize_mem := .inr rfl
  generator := (1 : Residue)
  compress p := 2 :: (Residue.toBytes p).toList
  decompress bytes := if bytes.head? = some 2 then Residue.ofBytes bytes.tail else none

/-- A 32-bit target. -/
def target32 : Target := ⟨32, .inl rfl, 120, by decide⟩

/-- The empty input makes the decoder slice out of range on a 32-bit target. -/
theorem empty_input_slices_out_of_range :
    (DealerCommitment.fromBytesStop target32 [] 130150524 :
      Outcome Stop (DealerCommitment Tagged)) = .err .sliceOutOfRange ∧
    (DealerCommitment.fromBytes target32 [] 130150524 :
      Outcome Error (DealerCommitment Tagged)) = .panic := by
  have hstop : (DealerCommitment.fromBytesStop target32 [] 130150524 :
      Outcome Stop (DealerCommitment Tagged)) = .err .sliceOutOfRange :=
    DealerCommitment.fromBytesStop_eq_slice_iff.mpr ⟨by decide, by decide⟩
  refine ⟨hstop, ?_⟩
  rw [← DealerCommitment.forget_fromBytesStop, hstop]
  rfl

end Narrow

end Frostito
