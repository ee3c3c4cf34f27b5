import Frostito.Sealed.Evidence

/-!
# What a refusal says

A package can be opened against a commitment that the caller supplies, or against the one in
the agreed set.  The two run the same checks on the envelope, and the checks of the digest and
of the scalar in opposite orders; the caller cannot tell them apart.  A refusal names the dealer
of the package, except where the package opens to bytes that are no sub-share: the error of the
decoder is passed on as it is, and names nobody.
-/

namespace Frostito

section Refusal

variable {S P : Type} [CurveScalar S] [CurvePoint P S] [Sha2] [Snow]
  (secret : X25519Key) (j : UInt32) (roster : SealedRoster) (round : UInt8)
  (sealedShare : SealedSubShare)

/-! ### The two ways of opening a package -/

omit [Sha2] [Snow] in
/-- Discarding the evidence, the wrapped error of a step is the error. -/
lemma intoError_comp_localError : OpenFailure.intoError ∘ OpenFailure.localError = id := rfl

/-- Opening against the agreed set, the evidence discarded. -/
lemma openSubshareAgreed_eq (agreed : AgreedRound1 P) :
    openSubshareAgreed secret j roster round sealedShare agreed =
      agreed.commitment sealedShare.dealerIndex >>= fun commitment =>
      openEnvelope (S := S) secret j roster round sealedShare >>= fun opened => (do
        .refuse (commitment.verifySubshare j opened.1.value = false)
          (.invalidSubShare sealedShare.dealerIndex)
        .refuse (opened.2 ≠ (commitmentDigest commitment).toList)
          (.invalidSubShare sealedShare.dealerIndex)
        .ok opened.1) := by
  rw [openSubshareAgreed, openSubshareAgreedWithEvidence_eq]
  simp only [Outcome.mapErr_bind, Outcome.mapErr_mapErr, intoError_comp_localError,
    Outcome.mapErr_id, Outcome.mapErr_refuse]
  rfl

/-- Both ways of opening refuse with one error after the envelope, so the order of the checks
does not show. -/
lemma openSubshareAgreed_eq_openSubshare {agreed : AgreedRound1 P}
    {commitment : DealerCommitment P}
    (hcommit : agreed.commitment sealedShare.dealerIndex = .ok commitment) :
    openSubshareAgreed (S := S) secret j roster round sealedShare agreed
      = openSubshare secret j roster round sealedShare commitment := by
  obtain ⟨-, hdealer⟩ := AgreedRound1.commitment_eq_ok hcommit
  rw [openSubshareAgreed_eq, hcommit, Outcome.ok_bind, openSubshare_eq]
  cases hopen : openEnvelope (S := S) secret j roster round sealedShare with
  | err e => rfl
  | panic => rfl
  | ok opened =>
    obtain ⟨hindex, -⟩ := indices_of_openEnvelope hopen
    -- the agreed commitment is the dealer's, so its index is not checked again
    have hsame : ¬opened.1.dealerIndex ≠ commitment.dealerIndex :=
      not_not.mpr (hindex.trans hdealer.symm)
    simp only [Outcome.ok_bind, hsame, false_or]
    exact Outcome.refuse_comm _ _ _ _

/-- **The two ways of opening a package agree.**  Without a commitment of the dealer in the
agreed set the package is refused for that; with one, the result is that of opening against
it; and evidence is only ever returned where that is the refusal of an invalid sub-share. -/
theorem openings_agree (agreed : AgreedRound1 P) :
    ((¬∃ c ∈ agreed.commitments, c.dealerIndex = sealedShare.dealerIndex) →
      openSubshareAgreed (S := S) secret j roster round sealedShare agreed
        = .err (.unexpectedDealer sealedShare.dealerIndex)) ∧
    ((∃ c ∈ agreed.commitments, c.dealerIndex = sealedShare.dealerIndex) →
      ∃ commitment, agreed.commitment sealedShare.dealerIndex = .ok commitment ∧
        openSubshareAgreed (S := S) secret j roster round sealedShare agreed
          = openSubshare secret j roster round sealedShare commitment) ∧
    ∀ evidence, openSubshareAgreedWithEvidence (S := S) secret j roster round sealedShare agreed
        = .err (.badSubShare evidence) →
      ∃ commitment, agreed.commitment sealedShare.dealerIndex = .ok commitment ∧
        openSubshare (S := S) secret j roster round sealedShare commitment
          = .err (.invalidSubShare sealedShare.dealerIndex) := by
  refine ⟨fun hmissing => ?_, fun ⟨c, hc, hdealer⟩ => ?_, fun evidence h => ?_⟩
  · have hnone : (agreed.commitments.find? fun c => c.dealerIndex = sealedShare.dealerIndex)
        = none := by
      rw [List.find?_eq_none]
      intro c hc hdealer
      exact hmissing ⟨c, hc, of_decide_eq_true hdealer⟩
    rw [openSubshareAgreed_eq, AgreedRound1.commitment, hnone, Outcome.okOr_none,
      Outcome.err_bind]
  · have hsome : (agreed.commitments.find?
        fun c => c.dealerIndex = sealedShare.dealerIndex).isSome :=
      List.find?_isSome.mpr ⟨c, hc, decide_eq_true hdealer⟩
    obtain ⟨commitment, hfind⟩ := Option.isSome_iff_exists.mp hsome
    have hcommit : agreed.commitment sealedShare.dealerIndex = .ok commitment :=
      Outcome.okOr_eq_ok_iff.mpr hfind
    exact ⟨commitment, hcommit, openSubshareAgreed_eq_openSubshare _ _ _ _ _ hcommit⟩
  · obtain ⟨commitment, subshare, digest, hcommit, hopen, hverify, rfl⟩ :=
      openSubshareAgreedWithEvidence_eq_badSubShare_iff.mp h
    refine ⟨commitment, hcommit, ?_⟩
    rw [← openSubshareAgreed_eq_openSubshare _ _ _ _ _ hcommit, openSubshareAgreed, h]
    rfl

/-! ### Whom a refusal names -/

/-- The error names the dealer of the package. -/
def NamesDealer (dealerIndex : UInt32) (e : Error) : Prop :=
  e = .sealedOpenFailed dealerIndex ∨ e = .invalidSubShare dealerIndex ∨
    e = .unknownParticipant dealerIndex

variable (S) in
/-- The bytes are those of a sub-share: neither index is zero, and the scalar is canonical. -/
def SubShare.Decodable (bytes : Vector UInt8 40) : Prop :=
  UInt32.ofNat (Framing.ofLeBytes (bytes.toList.take 4)) ≠ 0 ∧
    UInt32.ofNat (Framing.ofLeBytes ((bytes.toList.drop 4).take 4)) ≠ 0 ∧
    (CurveScalar.fromCanonicalBytes (bytes.drop 8) : Option S) ≠ none

variable (S) in
/-- Where the package opens to a plaintext of the right length, that starts with a
sub-share. -/
def DecodableWhenOpened : Prop :=
  ∀ dealer plaintext, roster.publicKey sealedShare.dealerIndex = .ok dealer →
    sealedShare.recipientIndex = j →
    noiseOpen secret dealer (roster.prologue round) sealedShare.ciphertext = some plaintext →
    ∀ h : plaintext.length = 72, SubShare.Decodable S (splitPlaintext plaintext h).1

omit [Sha2] [Snow] in
/-- Bytes of a sub-share decode, and the errors for others name nobody. -/
lemma SubShare.decodePlaintext_cases (bytes : Vector UInt8 40) :
    (SubShare.Decodable S bytes ∧ ∃ s, SubShare.decodePlaintext (S := S) bytes = .ok s) ∨
      (¬SubShare.Decodable S bytes ∧ ∃ e, SubShare.decodePlaintext (S := S) bytes = .err e ∧
        ∀ dealerIndex, ¬NamesDealer dealerIndex e) := by
  rw [SubShare.decodePlaintext, SubShare.Decodable]
  dsimp only
  by_cases hzero : UInt32.ofNat (Framing.ofLeBytes (bytes.toList.take 4)) = 0 ∨
      UInt32.ofNat (Framing.ofLeBytes ((bytes.toList.drop 4).take 4)) = 0
  · refine .inr ⟨fun h => hzero.elim h.1 h.2.1, .invalidIndex, ?_, by simp [NamesDealer]⟩
    rw [Outcome.refuse_of_pos hzero, Outcome.err_bind]
  · rw [Outcome.refuse_of_neg hzero, Outcome.ok_bind]
    obtain ⟨hdealer, hplayer⟩ := not_or.mp hzero
    cases hvalue : (CurveScalar.fromCanonicalBytes (bytes.drop 8) : Option S) with
    | none =>
      exact .inr ⟨fun h => h.2.2 rfl, .invalidResponse, rfl, by simp [NamesDealer]⟩
    | some value =>
      exact .inl ⟨⟨hdealer, hplayer, by simp⟩, _, rfl⟩

/-- What the envelope is refused for names the dealer, unless the decoder refused it. -/
lemma openEnvelope_names_dealer_iff :
    (∀ e, openEnvelope (S := S) secret j roster round sealedShare = .err e →
      NamesDealer sealedShare.dealerIndex e) ↔
      DecodableWhenOpened S secret j roster round sealedShare := by
  constructor
  · intro hnames dealer plaintext hdealer hrecipient hopen hlen
    rcases SubShare.decodePlaintext_cases (S := S) (splitPlaintext plaintext hlen).1 with
      ⟨hdecodable, -⟩ | ⟨-, e, hdecode, hnobody⟩
    · exact hdecodable
    · refine absurd (hnames e ?_) (hnobody _)
      rw [openEnvelope, hdealer, Outcome.ok_bind, Outcome.refuse_of_neg (not_not.mpr hrecipient),
        Outcome.ok_bind, hopen, Outcome.okOr_some, Outcome.ok_bind, dif_pos hlen]
      exact congrArg (· >>= _) hdecode
  · intro hdecodable e h
    simp only [openEnvelope, Outcome.bind_eq_err_iff, Outcome.refuse_eq_err_iff,
      Outcome.refuse_eq_ok_iff, Outcome.okOr_eq_err_iff, Outcome.okOr_eq_ok_iff, not_not] at h
    rcases h with h | ⟨dealer, hdealer, ⟨-, rfl⟩ | ⟨_, hrecipient, ⟨-, rfl⟩ |
      ⟨plaintext, hopen, h⟩⟩⟩
    · rw [SealedRoster.publicKey, Outcome.okOr_eq_err_iff] at h
      exact .inr (.inr h.2.symm)
    · exact .inl rfl
    · exact .inl rfl
    · split at h
      · next hlen =>
        rcases SubShare.decodePlaintext_cases (S := S) (splitPlaintext plaintext hlen).1 with
          ⟨-, subshare, hdecode⟩ | ⟨hnot, -⟩
        · rw [hdecode, Outcome.ok_bind, Outcome.bind_eq_err_iff] at h
          rcases h with h | ⟨_, -, h⟩
          · exact .inl (Outcome.refuse_eq_err_iff.mp h).2.symm
          · exact absurd h (by simp)
        · exact absurd (hdecodable dealer plaintext hdealer hrecipient hopen hlen) hnot
      · exact .inl (Outcome.err.inj h).symm

/-- **When a refusal names the dealer.**  Every error is about the dealer of the package
exactly when the package, where it opens to a plaintext of the right length, starts with the
bytes of a sub-share. -/
theorem openSubshare_names_dealer_iff (commitment : DealerCommitment P) :
    (∀ e, openSubshare (S := S) secret j roster round sealedShare commitment = .err e →
      NamesDealer sealedShare.dealerIndex e) ↔
      DecodableWhenOpened S secret j roster round sealedShare := by
  rw [← openEnvelope_names_dealer_iff]
  constructor
  · intro hnames e h
    refine hnames e ?_
    rw [openSubshare_eq, h, Outcome.err_bind]
  · intro hnames e h
    rw [openSubshare_eq, Outcome.bind_eq_err_iff] at h
    rcases h with h | ⟨opened, -, h⟩
    · exact hnames e h
    -- after the envelope there is one error
    · simp only [Outcome.bind_eq_err_iff, Outcome.refuse_eq_err_iff] at h
      rcases h with ⟨-, rfl⟩ | ⟨_, -, ⟨-, rfl⟩ | ⟨_, -, h⟩⟩
      · exact .inr (.inl rfl)
      · exact .inr (.inl rfl)
      · exact absurd h (by simp)

end Refusal

/-! ### A refusal that names nobody -/

section Nobody

open Reference

/-- What dealer 1 seals for participant 2 in the way `sealSubshare` does, over a plaintext of
its own choice. -/
def sealedByMember (plaintext : Bytes) : Option SealedSubShare :=
  (noiseSeal (Vector.replicate 32 1) (publicOf (Vector.replicate 32 2)) (Vector.replicate 32 7)
    (roster.prologue 2) plaintext).map fun ciphertext => ⟨1, 2, ciphertext⟩

/-- Participant 2 is told about a zero index, and not by whom. -/
theorem zero_plaintext_names_nobody : ∃ sealedShare,
    sealedByMember (List.replicate 72 0) = some sealedShare ∧ sealedShare.dealerIndex = 1 ∧
    openSubshare (S := Residue) (Vector.replicate 32 2) 2 roster 2 sealedShare
      (linePackage 1 5 1).commitment = .err .invalidIndex ∧
    ¬NamesDealer sealedShare.dealerIndex .invalidIndex := by
  have hdealer : roster.publicKey 1 = .ok (publicOf (Vector.replicate 32 1)) := by decide
  obtain ⟨message, hmessage⟩ := exists_noiseSeal (Vector.replicate 32 1)
    (publicOf (Vector.replicate 32 2)) (Vector.replicate 32 7) (roster.prologue 2)
    (List.replicate 72 0)
  refine ⟨⟨1, 2, message⟩, by rw [sealedByMember, hmessage]; rfl, rfl, ?_, by simp [NamesDealer]⟩
  have hdecode : SubShare.decodePlaintext (S := Residue)
      (splitPlaintext (List.replicate 72 0) (by decide)).1 = .err .invalidIndex := by decide
  rw [openSubshare_eq, openEnvelope, hdealer, Outcome.ok_bind, Outcome.refuse_of_neg (by simp),
    Outcome.ok_bind, noiseOpen_of_noiseSeal hmessage, Outcome.okOr_some, Outcome.ok_bind,
    dif_pos (by decide)]
  dsimp only
  rw [hdecode]
  rfl

end Nobody

end Frostito
