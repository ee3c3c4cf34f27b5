import Frostito.Dkg.Complaint
import Frostito.Sealed.Roster

/-!
# Sealing and opening sub-shares

A dealer seals a sub-share to its recipient together with the digest of its commitment.  The
recipient opens the package, compares what is inside with what the envelope says, and checks
the sub-share against a commitment: the one it is given, or the one of its agreed set.  In
the second case a sub-share that fails the check is kept as evidence.
-/

namespace Frostito

variable {S P : Type} [CurveScalar S] [CurvePoint P S] [Sha2] [Snow]

/-- Seal one sub-share from a dealer to one recipient. -/
def sealSubshare (dealerX25519Secret : X25519Key) (roster : SealedRoster) (round : UInt8)
    (subshare : SubShare S) (commitment : DealerCommitment P) (ephemeral : X25519Key) :
    Outcome Error SealedSubShare := do
  .refuse (subshare.dealerIndex ≠ commitment.dealerIndex) .invalidIndex
  let recipient ← roster.publicKey subshare.playerIndex
  let _ ← roster.publicKey subshare.dealerIndex
  let plaintext := subshare.encodePlaintext ++ (commitmentDigest commitment).toList
  let ciphertext ← .okOr
    (noiseSeal dealerX25519Secret recipient ephemeral (roster.prologue round) plaintext)
    (.sealedOpenFailed subshare.dealerIndex)
  .ok ⟨subshare.dealerIndex, subshare.playerIndex, ciphertext⟩

/-- The sub-share and the commitment digest inside a plaintext of 72 bytes. -/
def splitPlaintext (plaintext : Bytes) (h : plaintext.length = 72) : Vector UInt8 40 × Bytes :=
  (⟨(plaintext.take 40).toArray, by simp [h]⟩, plaintext.drop 40)

/-- What both ways of opening a package begin with, written out in each of them: the sub-share
inside, its indices those of the envelope, and the bytes that follow it. -/
def openEnvelope (recipientX25519Secret : X25519Key) (recipientIndex : UInt32)
    (roster : SealedRoster) (round : UInt8) (sealedShare : SealedSubShare) :
    Outcome Error (SubShare S × Bytes) := do
  let dealer ← roster.publicKey sealedShare.dealerIndex
  .refuse (sealedShare.recipientIndex ≠ recipientIndex) (.sealedOpenFailed sealedShare.dealerIndex)
  let plaintext ← .okOr (noiseOpen recipientX25519Secret dealer (roster.prologue round)
    sealedShare.ciphertext) (.sealedOpenFailed sealedShare.dealerIndex)
  if h : plaintext.length = 72 then
    let (subshareBytes, digest) := splitPlaintext plaintext h
    let subshare ← SubShare.decodePlaintext subshareBytes
    .refuse (subshare.dealerIndex ≠ sealedShare.dealerIndex ∨
      subshare.playerIndex ≠ sealedShare.recipientIndex) (.sealedOpenFailed sealedShare.dealerIndex)
    .ok (subshare, digest)
  else
    .err (.sealedOpenFailed sealedShare.dealerIndex)

/-- Open a sealed sub-share and verify it against the dealer's commitment. -/
def openSubshare (recipientX25519Secret : X25519Key) (recipientIndex : UInt32)
    (roster : SealedRoster) (round : UInt8) (sealedShare : SealedSubShare)
    (commitment : DealerCommitment P) : Outcome Error (SubShare S) := do
  let dealer ← roster.publicKey sealedShare.dealerIndex
  .refuse (sealedShare.recipientIndex ≠ recipientIndex) (.sealedOpenFailed sealedShare.dealerIndex)
  let plaintext ← .okOr (noiseOpen recipientX25519Secret dealer (roster.prologue round)
    sealedShare.ciphertext) (.sealedOpenFailed sealedShare.dealerIndex)
  if h : plaintext.length = 72 then
    let (subshareBytes, digest) := splitPlaintext plaintext h
    let subshare ← SubShare.decodePlaintext subshareBytes
    .refuse (subshare.dealerIndex ≠ sealedShare.dealerIndex ∨
      subshare.playerIndex ≠ sealedShare.recipientIndex) (.sealedOpenFailed sealedShare.dealerIndex)
    -- the sub-share and the commitment must be the pair the dealer sent
    .refuse (subshare.dealerIndex ≠ commitment.dealerIndex ∨
      digest ≠ (commitmentDigest commitment).toList) (.invalidSubShare sealedShare.dealerIndex)
    .refuse (commitment.verifySubshare recipientIndex subshare.value = false)
      (.invalidSubShare sealedShare.dealerIndex)
    .ok subshare
  else
    .err (.sealedOpenFailed sealedShare.dealerIndex)

/-- Why `openSubshareAgreedWithEvidence` refused a package. -/
inductive OpenFailure where
  /-- Not an accusation. -/
  | localError (e : Error)
  /-- The package opened, and the scalar inside fails the Feldman check against the dealer's
  commitment in the agreed round-1 set. -/
  | badSubShare (evidence : BadSubShareEvidence)

/-- The equivalent error, discarding any evidence. -/
def OpenFailure.intoError : OpenFailure → Error
  | .localError e => e
  | .badSubShare evidence => .invalidSubShare evidence.dealerIndex

/-- The evidence that a recipient keeps of a scalar it opened. -/
def badSubShareEvidence (recipientIndex : UInt32) (roster : SealedRoster) (round : UInt8)
    (sealedShare : SealedSubShare) (commitment : DealerCommitment P) (value : S) :
    BadSubShareEvidence where
  dealerIndex := sealedShare.dealerIndex
  recipientIndex := recipientIndex
  sessionId := roster.sessionId
  round := round
  subshare := CurveScalar.toBytes value
  agreedDigest := commitmentDigest commitment
  sealedDigest := sealedCiphertextDigest sealedShare.ciphertext

/-- `openSubshareAgreed`, keeping the rejected plaintext as complaint evidence. -/
def openSubshareAgreedWithEvidence (recipientX25519Secret : X25519Key) (recipientIndex : UInt32)
    (roster : SealedRoster) (round : UInt8) (sealedShare : SealedSubShare)
    (agreed : AgreedRound1 P) : Outcome OpenFailure (SubShare S) := do
  let commitment ← .mapErr .localError (agreed.commitment sealedShare.dealerIndex)
  let dealer ← .mapErr .localError (roster.publicKey sealedShare.dealerIndex)
  .refuse (sealedShare.recipientIndex ≠ recipientIndex)
    (.localError (.sealedOpenFailed sealedShare.dealerIndex))
  let plaintext ← .okOr (noiseOpen recipientX25519Secret dealer (roster.prologue round)
    sealedShare.ciphertext) (.localError (.sealedOpenFailed sealedShare.dealerIndex))
  if h : plaintext.length = 72 then
    let (subshareBytes, digest) := splitPlaintext plaintext h
    let subshare ← .mapErr .localError (SubShare.decodePlaintext subshareBytes)
    .refuse (subshare.dealerIndex ≠ sealedShare.dealerIndex ∨
      subshare.playerIndex ≠ sealedShare.recipientIndex)
      (.localError (.sealedOpenFailed sealedShare.dealerIndex))
    -- the accusable check, run against the agreed commitment
    .refuse (commitment.verifySubshare recipientIndex subshare.value = false) (.badSubShare
      (badSubShareEvidence recipientIndex roster round sealedShare commitment subshare.value))
    -- it passed the Feldman check, so there is nothing to accuse anyone of
    .refuse (digest ≠ (commitmentDigest commitment).toList)
      (.localError (.invalidSubShare sealedShare.dealerIndex))
    .ok subshare
  else
    .err (.localError (.sealedOpenFailed sealedShare.dealerIndex))

/-- `openSubshare`, with the dealer's commitment taken from the agreed round-1 set. -/
def openSubshareAgreed (recipientX25519Secret : X25519Key) (recipientIndex : UInt32)
    (roster : SealedRoster) (round : UInt8) (sealedShare : SealedSubShare)
    (agreed : AgreedRound1 P) : Outcome Error (SubShare S) :=
  .mapErr OpenFailure.intoError
    (openSubshareAgreedWithEvidence recipientX25519Secret recipientIndex roster round sealedShare
      agreed)

/-! ### What is sealed -/

/-- A sub-share is sealed exactly when it is of the commitment's dealer, both ends are on the
roster, and the handshake writes the plaintext: the sub-share and the commitment's digest. -/
theorem sealSubshare_eq_ok_iff {secret ephemeral : X25519Key} {roster : SealedRoster}
    {round : UInt8} {subshare : SubShare S} {commitment : DealerCommitment P}
    {sealedShare : SealedSubShare} :
    sealSubshare secret roster round subshare commitment ephemeral = .ok sealedShare ↔
      subshare.dealerIndex = commitment.dealerIndex ∧
      ∃ recipient dealer ciphertext, roster.publicKey subshare.playerIndex = .ok recipient ∧
        roster.publicKey subshare.dealerIndex = .ok dealer ∧
        noiseSeal secret recipient ephemeral (roster.prologue round)
          (subshare.encodePlaintext ++ (commitmentDigest commitment).toList) = some ciphertext ∧
        sealedShare = ⟨subshare.dealerIndex, subshare.playerIndex, ciphertext⟩ := by
  simp only [sealSubshare, Outcome.bind_eq_ok_iff, Outcome.refuse_eq_ok_iff,
    Outcome.okOr_eq_ok_iff, not_not, Outcome.ok.injEq]
  constructor
  · rintro ⟨_, hindex, recipient, hrecipient, dealer, hdealer, ciphertext, hseal, rfl⟩
    exact ⟨hindex, recipient, dealer, ciphertext, hrecipient, hdealer, hseal, rfl⟩
  · rintro ⟨hindex, recipient, dealer, ciphertext, hrecipient, hdealer, hseal, rfl⟩
    exact ⟨(), hindex, recipient, hrecipient, dealer, hdealer, ciphertext, hseal, rfl⟩

/-! ### The part of the two that is the same -/

/-- Opening against a commitment: the envelope, and then the digest before the Feldman check. -/
lemma openSubshare_eq (secret : X25519Key) (j : UInt32) (roster : SealedRoster) (round : UInt8)
    (sealedShare : SealedSubShare) (commitment : DealerCommitment P) :
    openSubshare secret j roster round sealedShare commitment =
      openEnvelope (S := S) secret j roster round sealedShare >>= fun opened => (do
        .refuse (opened.1.dealerIndex ≠ commitment.dealerIndex ∨
          opened.2 ≠ (commitmentDigest commitment).toList)
          (.invalidSubShare sealedShare.dealerIndex)
        .refuse (commitment.verifySubshare j opened.1.value = false)
          (.invalidSubShare sealedShare.dealerIndex)
        .ok opened.1) := by
  simp only [openSubshare, openEnvelope, bind_assoc]
  refine bind_congr fun dealer => bind_congr fun _ => bind_congr fun plaintext => ?_
  split
  · simp only [bind_assoc, Outcome.ok_bind]
  · rw [Outcome.err_bind]

/-- Opening against the agreed set: the commitment, the envelope, and then the Feldman check
before the digest. -/
lemma openSubshareAgreedWithEvidence_eq (secret : X25519Key) (j : UInt32) (roster : SealedRoster)
    (round : UInt8) (sealedShare : SealedSubShare) (agreed : AgreedRound1 P) :
    openSubshareAgreedWithEvidence secret j roster round sealedShare agreed =
      Outcome.mapErr .localError (agreed.commitment sealedShare.dealerIndex) >>= fun commitment =>
      Outcome.mapErr .localError (openEnvelope (S := S) secret j roster round sealedShare)
        >>= fun opened => (do
          .refuse (commitment.verifySubshare j opened.1.value = false) (.badSubShare
            (badSubShareEvidence j roster round sealedShare commitment opened.1.value))
          .refuse (opened.2 ≠ (commitmentDigest commitment).toList)
            (.localError (.invalidSubShare sealedShare.dealerIndex))
          .ok opened.1) := by
  simp only [openSubshareAgreedWithEvidence, openEnvelope, Outcome.mapErr_bind, bind_assoc,
    Outcome.mapErr_refuse, Outcome.mapErr_okOr]
  refine bind_congr fun commitment => bind_congr fun dealer => bind_congr fun _ =>
    bind_congr fun plaintext => ?_
  split
  · simp only [Outcome.mapErr_bind, Outcome.mapErr_refuse, bind_assoc]
    rfl
  · rfl

/-! ### What is inside an opened package -/

variable {secret : X25519Key} {j : UInt32} {roster : SealedRoster} {round : UInt8}
  {sealedShare : SealedSubShare} {agreed : AgreedRound1 P}

omit [CurvePoint P S] in
/-- An opened sub-share is of the dealer on the envelope and for the recipient. -/
lemma indices_of_openEnvelope {subshare : SubShare S} {digest : Bytes}
    (h : openEnvelope secret j roster round sealedShare = .ok (subshare, digest)) :
    subshare.dealerIndex = sealedShare.dealerIndex ∧ subshare.playerIndex = j ∧
      sealedShare.dealerIndex ≠ 0 ∧ j ≠ 0 := by
  simp only [openEnvelope, Outcome.bind_eq_ok_iff, Outcome.refuse_eq_ok_iff, not_not] at h
  obtain ⟨dealer, -, _, hrecipient, plaintext, -, h⟩ := h
  split at h
  · next hlen =>
    simp only [Outcome.bind_eq_ok_iff, Outcome.refuse_eq_ok_iff, not_or, not_not] at h
    obtain ⟨s, hdecode, _, ⟨hdealer, hplayer⟩, hs⟩ := h
    obtain ⟨rfl, -⟩ := Prod.mk.inj (Outcome.ok.inj hs)
    obtain ⟨hdealer0, hplayer0⟩ := SubShare.ne_zero_of_decodePlaintext hdecode
    rw [hdealer] at hdealer0
    rw [hplayer, hrecipient] at hplayer0
    exact ⟨hdealer, hplayer.trans hrecipient, hdealer0, hplayer0⟩
  · exact absurd h (by simp)

omit [CurvePoint P S] in
/-- A package with a sub-share and a digest inside opens to the two. -/
lemma openEnvelope_eq_ok [LawfulScalarBytes S] {subshare : SubShare S}
    (hi : subshare.dealerIndex ≠ 0) (hj : subshare.playerIndex ≠ 0) {dealer : X25519Key}
    (hdealer : roster.publicKey subshare.dealerIndex = .ok dealer) {ciphertext : Bytes}
    {digest : Vector UInt8 32}
    (hopen : noiseOpen secret dealer (roster.prologue round) ciphertext
      = some (subshare.encodePlaintext ++ digest.toList)) :
    openEnvelope secret subshare.playerIndex roster round
        ⟨subshare.dealerIndex, subshare.playerIndex, ciphertext⟩
      = .ok (subshare, digest.toList) := by
  have hlen := subshare.length_encodePlaintext
  have htake : (subshare.encodePlaintext ++ digest.toList).take 40 = subshare.encodePlaintext :=
    List.take_left' hlen
  have hdrop : (subshare.encodePlaintext ++ digest.toList).drop 40 = digest.toList :=
    List.drop_left' hlen
  rw [openEnvelope, hdealer, Outcome.ok_bind, Outcome.refuse_of_neg (not_not.mpr rfl),
    Outcome.ok_bind, hopen, Outcome.okOr_some, Outcome.ok_bind,
    dif_pos (by rw [List.length_append, hlen]; simp)]
  simp only [splitPlaintext, htake, hdrop]
  rw [SubShare.decodePlaintext_encodePlaintext hi hj rfl, Outcome.ok_bind,
    Outcome.refuse_of_neg (by simp), Outcome.ok_bind]

omit [CurvePoint P S] in
/-- An opened package holds the sub-share and the bytes behind it, written by the handshake
between the dealer's roster key and the recipient. -/
lemma noiseOpen_of_openEnvelope {subshare : SubShare S} {digest : Bytes}
    (h : openEnvelope secret j roster round sealedShare = .ok (subshare, digest)) :
    ∃ (dealer : X25519Key) (bytes : Vector UInt8 40),
      roster.publicKey sealedShare.dealerIndex = .ok dealer ∧
      sealedShare.recipientIndex = j ∧
      noiseOpen secret dealer (roster.prologue round) sealedShare.ciphertext
        = some (bytes.toList ++ digest) ∧
      SubShare.decodePlaintext bytes = .ok subshare := by
  simp only [openEnvelope, Outcome.bind_eq_ok_iff, Outcome.refuse_eq_ok_iff,
    Outcome.okOr_eq_ok_iff, not_not] at h
  obtain ⟨dealer, hdealer, _, hrecipient, plaintext, hopen, h⟩ := h
  split at h
  · next hlen =>
    simp only [Outcome.bind_eq_ok_iff] at h
    obtain ⟨s, hdecode, _, -, hs⟩ := h
    obtain ⟨rfl, rfl⟩ := Prod.mk.inj (Outcome.ok.inj hs)
    refine ⟨dealer, (splitPlaintext plaintext hlen).1, hdealer, hrecipient, ?_, hdecode⟩
    rw [hopen, splitPlaintext]
    simp
  · exact absurd h (by simp)

/-- A package is accepted exactly when it opens to a sub-share of the commitment's dealer that
verifies against the commitment, and to the commitment's digest. -/
theorem openSubshare_eq_ok_iff {commitment : DealerCommitment P} {subshare : SubShare S} :
    openSubshare secret j roster round sealedShare commitment = .ok subshare ↔
      openEnvelope secret j roster round sealedShare
          = .ok (subshare, (commitmentDigest commitment).toList) ∧
        subshare.dealerIndex = commitment.dealerIndex ∧
        commitment.verifySubshare j subshare.value = true := by
  simp only [openSubshare_eq, Outcome.bind_eq_ok_iff, Outcome.refuse_eq_ok_iff, not_or,
    Bool.not_eq_false, not_not]
  constructor
  · rintro ⟨⟨s, digest⟩, hopen, _, ⟨hindex, hdigest⟩, _, hverify, hs⟩
    obtain rfl := Outcome.ok.inj hs
    obtain rfl : digest = (commitmentDigest commitment).toList := hdigest
    exact ⟨hopen, hindex, hverify⟩
  · rintro ⟨hopen, hindex, hverify⟩
    exact ⟨_, hopen, (), ⟨hindex, rfl⟩, (), hverify, rfl⟩

/-- A package is accepted against the agreed set exactly when it opens to a sub-share that
verifies against the agreed commitment, and to that commitment's digest. -/
theorem openSubshareAgreedWithEvidence_eq_ok_iff {subshare : SubShare S} :
    openSubshareAgreedWithEvidence secret j roster round sealedShare agreed = .ok subshare ↔
      ∃ commitment, agreed.commitment sealedShare.dealerIndex = .ok commitment ∧
        openEnvelope secret j roster round sealedShare
          = .ok (subshare, (commitmentDigest commitment).toList) ∧
        commitment.verifySubshare j subshare.value = true := by
  simp only [openSubshareAgreedWithEvidence_eq, Outcome.bind_eq_ok_iff, Outcome.mapErr_eq_ok_iff,
    Outcome.refuse_eq_ok_iff, Bool.not_eq_false, not_not]
  constructor
  · rintro ⟨commitment, hcommit, ⟨s, digest⟩, hopen, _, hverify, _, hdigest, hs⟩
    obtain rfl := Outcome.ok.inj hs
    obtain rfl : digest = (commitmentDigest commitment).toList := hdigest
    exact ⟨commitment, hcommit, hopen, hverify⟩
  · rintro ⟨commitment, hcommit, hopen, hverify⟩
    exact ⟨commitment, hcommit, _, hopen, (), hverify, (), rfl, rfl⟩

/-- Evidence is returned exactly when the package opens to a sub-share that does not verify
against the agreed commitment, and is about that sub-share. -/
theorem openSubshareAgreedWithEvidence_eq_badSubShare_iff {evidence : BadSubShareEvidence} :
    openSubshareAgreedWithEvidence (S := S) secret j roster round sealedShare agreed
        = .err (.badSubShare evidence) ↔
      ∃ (commitment : DealerCommitment P) (subshare : SubShare S) (digest : Bytes),
        agreed.commitment sealedShare.dealerIndex = .ok commitment ∧
        openEnvelope secret j roster round sealedShare = .ok (subshare, digest) ∧
        commitment.verifySubshare j subshare.value = false ∧
        evidence = badSubShareEvidence j roster round sealedShare commitment subshare.value := by
  simp only [openSubshareAgreedWithEvidence_eq, Outcome.bind_eq_err_iff, Outcome.mapErr_eq_ok_iff,
    Outcome.mapErr_eq_err_iff, Outcome.refuse_eq_ok_iff, Outcome.refuse_eq_err_iff]
  constructor
  · rintro (⟨_, -, h⟩ | ⟨commitment, hcommit, ⟨_, -, h⟩ | ⟨⟨subshare, digest⟩, hopen,
      ⟨hverify, h⟩ | ⟨_, -, ⟨-, h⟩ | ⟨_, -, h⟩⟩⟩⟩)
    · exact absurd h (by simp)
    · exact absurd h (by simp)
    · exact ⟨commitment, subshare, digest, hcommit, hopen, hverify,
        (OpenFailure.badSubShare.inj h).symm⟩
    · exact absurd h (by simp)
    · exact absurd h (by simp)
  · rintro ⟨commitment, subshare, digest, hcommit, hopen, hverify, rfl⟩
    exact .inr ⟨commitment, hcommit, .inr ⟨(subshare, digest), hopen, .inl ⟨hverify, rfl⟩⟩⟩

end Frostito
