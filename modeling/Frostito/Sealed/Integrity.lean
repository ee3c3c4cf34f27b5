import Frostito.Dkg.Dealer
import Frostito.Sealed.Evidence

/-!
# Integrity of sealed delivery

Of the handshake one thing is assumed: a message can be read exactly when somebody wrote it,
between the same two keys and under the same prologue.  The network may do what it likes.
Still a package that is accepted was sealed by the holder of the dealer's roster key, for this
recipient, in this ceremony and this round, with the commitment it is checked against; and
every package that an honest dealer seals is accepted.
-/

namespace Frostito

/-! ### The ideal handshake -/

/-- A call of `noise_seal` and the message it wrote. -/
structure Sealing where
  localPrivate : X25519Key
  remotePublic : X25519Key
  ephemeral : X25519Key
  prologue : Bytes
  plaintext : Bytes
  message : Bytes

/-- The handshake against the log of all calls of `noise_seal`, whoever made them: what it
reads is what was written, between the matching pairs of keys. -/
structure IdealNoise [Snow] (publicOf : X25519Key → X25519Key) (log : Set Sealing) : Prop where
  noiseSeal_eq : ∀ e ∈ log,
    noiseSeal e.localPrivate e.remotePublic e.ephemeral e.prologue e.plaintext = some e.message
  noiseOpen_eq_some_iff : ∀ secret remotePublic prologue message plaintext,
    noiseOpen secret remotePublic prologue message = some plaintext ↔
      ∃ e ∈ log, publicOf e.localPrivate = remotePublic ∧ e.remotePublic = publicOf secret ∧
        e.prologue = prologue ∧ e.plaintext = plaintext ∧ e.message = message

section Integrity

variable {S P : Type} [CurveScalar S] [CurvePoint P S] [Sha2]

/-- The call of `noise_seal` that `sealSubshare` makes. -/
def subshareSealing (secret recipient ephemeral : X25519Key) (roster : SealedRoster)
    (round : UInt8) (subshare : SubShare S) (commitment : DealerCommitment P) (message : Bytes) :
    Sealing where
  localPrivate := secret
  remotePublic := recipient
  ephemeral := ephemeral
  prologue := roster.prologue round
  plaintext := subshare.encodePlaintext ++ (commitmentDigest commitment).toList
  message := message

/-- A sealing by the holder of the dealer's roster key to the key of the recipient, of this
sub-share and the digest of the commitment, in this ceremony and round. -/
structure Sealing.Delivers (publicOf : X25519Key → X25519Key) (secret : X25519Key)
    (roster : SealedRoster) (round : UInt8) (commitment : DealerCommitment P)
    (subshare : SubShare S) (e : Sealing) : Prop where
  publicKey_eq : roster.publicKey subshare.dealerIndex = .ok (publicOf e.localPrivate)
  remotePublic_eq : e.remotePublic = publicOf secret
  prologue_eq : e.prologue = roster.prologue round
  plaintext_eq : ∃ bytes : Vector UInt8 40,
    e.plaintext = bytes.toList ++ (commitmentDigest commitment).toList ∧
      SubShare.decodePlaintext bytes = .ok subshare

section Delivers

variable {publicOf : X25519Key → X25519Key} {secret dealerSecret recipient ephemeral : X25519Key}
  {roster roster' : SealedRoster} {round round' : UInt8}
  {commitment commitment' : DealerCommitment P} {subshare subshare' : SubShare S}
  {message : Bytes} {e : Sealing}

/-- Whoever sealed under the prologue of some ceremony and round, it is this one. -/
lemma Sealing.Delivers.eq_or_collide
    (h : e.Delivers publicOf secret roster round commitment subshare)
    (hprologue : e.prologue = roster'.prologue round') :
    (roster' = roster ∧ round' = round) ∨ roster'.Collide roster :=
  SealedRoster.eq_or_collide (hprologue.symm.trans h.prologue_eq)

/-- What `sealSubshare` sealed is what is delivered. -/
lemma Sealing.Delivers.eq_of_subshareSealing [LawfulScalarBytes S]
    (h : (subshareSealing dealerSecret recipient ephemeral roster' round' subshare' commitment'
      message).Delivers publicOf secret roster round commitment subshare) :
    subshare' = subshare ∧ commitmentDigest commitment' = commitmentDigest commitment := by
  obtain ⟨bytes, hplaintext, hdecode⟩ := h.plaintext_eq
  rw [subshareSealing] at hplaintext
  obtain ⟨hbytes, hdigest⟩ := List.append_inj hplaintext
    (by rw [subshare'.length_encodePlaintext, Vector.length_toList])
  exact ⟨(SubShare.eq_of_decodePlaintext hbytes.symm hdecode).symm,
    Vector.toList_inj.mp hdigest⟩

end Delivers

variable [Snow]

/-- `e` is the sealing of a call of `sealSubshare` that returned `sealedShare`. -/
def Sealing.SealedBy (e : Sealing) (dealerSecret : X25519Key) (roster : SealedRoster)
    (round : UInt8) (subshare : SubShare S) (commitment : DealerCommitment P)
    (ephemeral : X25519Key) (sealedShare : SealedSubShare) : Prop :=
  sealSubshare dealerSecret roster round subshare commitment ephemeral = .ok sealedShare ∧
  ∃ recipient, roster.publicKey subshare.playerIndex = .ok recipient ∧
    e = subshareSealing dealerSecret recipient ephemeral roster round subshare commitment
      sealedShare.ciphertext

section Ideal

variable {publicOf : X25519Key → X25519Key} {log : Set Sealing}
  {secret dealerSecret ephemeral : X25519Key} {j : UInt32} {roster roster' : SealedRoster}
  {round round' : UInt8} {sealedShare package : SealedSubShare}
  {commitment commitment' : DealerCommitment P} {subshare subshare' : SubShare S} {e : Sealing}

/-- **An accepted package was sealed for its recipient.** -/
theorem IdealNoise.exists_delivers (hnoise : IdealNoise publicOf log)
    (h : openSubshare secret j roster round sealedShare commitment = .ok subshare) :
    ∃ e ∈ log, e.message = sealedShare.ciphertext ∧
      e.Delivers publicOf secret roster round commitment subshare := by
  obtain ⟨hopen, -, -⟩ := openSubshare_eq_ok_iff.mp h
  obtain ⟨hindex, -, -, -⟩ := indices_of_openEnvelope hopen
  obtain ⟨dealer, bytes, hdealer, -, hread, hdecode⟩ := noiseOpen_of_openEnvelope hopen
  obtain ⟨e, he, rfl, hremote, hprologue, hplaintext, hmessage⟩ :=
    (hnoise.noiseOpen_eq_some_iff _ _ _ _ _).mp hread
  exact ⟨e, he, hmessage, hindex ▸ hdealer, hremote, hprologue, bytes, hplaintext, hdecode⟩

/-- **What an honest dealer seals is accepted.** -/
theorem IdealNoise.openSubshare_eq_ok [LawfulScalarBytes S] (hnoise : IdealNoise publicOf log)
    (hdealer : roster.publicKey subshare.dealerIndex = .ok (publicOf dealerSecret))
    (hrecipient : roster.publicKey subshare.playerIndex = .ok (publicOf secret))
    (hverify : commitment.verifySubshare subshare.playerIndex subshare.value = true)
    (he : e ∈ log)
    (hsealed : e.SealedBy dealerSecret roster round subshare commitment ephemeral sealedShare) :
    openSubshare secret subshare.playerIndex roster round sealedShare commitment
      = .ok subshare := by
  obtain ⟨hseal, recipient, hkey, rfl⟩ := hsealed
  obtain ⟨hindex, -, -, ciphertext, -, -, -, rfl⟩ := sealSubshare_eq_ok_iff.mp hseal
  obtain rfl : recipient = publicOf secret := Outcome.ok.inj (hkey.symm.trans hrecipient)
  have hread : noiseOpen secret (publicOf dealerSecret) (roster.prologue round) ciphertext
      = some (subshare.encodePlaintext ++ (commitmentDigest commitment).toList) :=
    (hnoise.noiseOpen_eq_some_iff _ _ _ _ _).mpr ⟨_, he, rfl, rfl, rfl, rfl, rfl⟩
  exact openSubshare_eq_ok_iff.mpr
    ⟨openEnvelope_eq_ok (SealedRoster.ne_zero_of_publicKey_eq_ok hdealer)
      (SealedRoster.ne_zero_of_publicKey_eq_ok hrecipient) hdealer hread, hindex, hverify⟩

/-- Where no two sealings wrote one message, a sealed message is accepted only for what it was
sealed for. -/
theorem IdealNoise.eq_of_openSubshare [LawfulScalarBytes S] (hnoise : IdealNoise publicOf log)
    (hfresh : Set.InjOn Sealing.message log) (he : e ∈ log)
    (hsealed : e.SealedBy dealerSecret roster' round' subshare' commitment' ephemeral package)
    (hcipher : sealedShare.ciphertext = package.ciphertext)
    (h : openSubshare secret j roster round sealedShare commitment = .ok subshare) :
    subshare' = subshare ∧ ((roster' = roster ∧ round' = round) ∨ roster'.Collide roster) := by
  obtain ⟨-, recipient, -, rfl⟩ := hsealed
  obtain ⟨e', he', hmessage, hdelivers⟩ := hnoise.exists_delivers h
  obtain rfl := hfresh he' he (hmessage.trans hcipher)
  exact ⟨hdelivers.eq_of_subshareSealing.1, hdelivers.eq_or_collide rfl⟩

end Ideal

/-! ### The dealers' packages -/

/-- What `sealRound2` does for one participant. -/
def sealRound2For (dealer : Dkg.Dealer P S) (dealerX25519Secret : X25519Key)
    (roster : SealedRoster) (round : UInt8) (ephemerals : UInt32 → X25519Key) (index : UInt32) :
    Outcome Error SealedSubShare := do
  let subshare ← .expect (dealer.generateSubshare index)
  sealSubshare dealerX25519Secret roster round subshare dealer.commitment (ephemerals index)

/-- Build a dealer's whole round-2 message set: one sealed package per roster participant, the
dealer included. -/
def sealRound2 (dealer : Dkg.Dealer P S) (dealerX25519Secret : X25519Key)
    (roster : SealedRoster) (round : UInt8) (ephemerals : UInt32 → X25519Key) :
    Outcome Error (List SealedSubShare) :=
  roster.participants.mapM fun p =>
    sealRound2For dealer dealerX25519Secret roster round ephemerals p.1

/-- Whoever holds `key` calls `noise_seal` from `sealRound2` only. -/
def OnlySealsRound2 (P : Type) {S : Type} [CurveScalar S] [CurvePoint P S]
    (publicOf : X25519Key → X25519Key) (log : Set Sealing) (key : X25519Key) : Prop :=
  ∀ e ∈ log, publicOf e.localPrivate = key →
    ∃ (dealer : Dkg.Dealer P S) (roster : SealedRoster) (round : UInt8)
      (ephemerals : UInt32 → X25519Key) (index : UInt32) (subshare : SubShare S)
      (package : SealedSubShare),
      index ∈ roster.participants.map Prod.fst ∧ dealer.generateSubshare index = .ok subshare ∧
      e.SealedBy e.localPrivate roster round subshare dealer.commitment (ephemerals index) package

/-- `sealedShare` is the package that a call of `sealRound2`, by the holder of `key`, made for
participant `j` out of `subshare`. -/
structure MadeByRound2 (publicOf : X25519Key → X25519Key) (key : X25519Key) (j : UInt32)
    (subshare : SubShare S) (sealedShare : SealedSubShare) (dealer : Dkg.Dealer P S)
    (dealerSecret : X25519Key) (roster : SealedRoster) (round : UInt8)
    (ephemerals : UInt32 → X25519Key) : Prop where
  key_eq : publicOf dealerSecret = key
  mem_participants : j ∈ roster.participants.map Prod.fst
  generateSubshare_eq : dealer.generateSubshare j = .ok subshare
  sealRound2For_eq : sealRound2For dealer dealerSecret roster round ephemerals j = .ok sealedShare

/-- It is one of the packages that the call returned. -/
theorem MadeByRound2.mem_sealRound2 {publicOf : X25519Key → X25519Key} {key : X25519Key}
    {j : UInt32} {subshare : SubShare S} {sealedShare : SealedSubShare} {dealer : Dkg.Dealer P S}
    {dealerSecret : X25519Key} {roster : SealedRoster} {round : UInt8}
    {ephemerals : UInt32 → X25519Key}
    (h : MadeByRound2 publicOf key j subshare sealedShare dealer dealerSecret roster round
      ephemerals) {packages : List SealedSubShare}
    (hpackages : sealRound2 dealer dealerSecret roster round ephemerals = .ok packages) :
    sealedShare ∈ packages := by
  obtain ⟨p, hp, rfl⟩ := List.mem_map.mp h.mem_participants
  obtain ⟨package, hmem, hpackage⟩ := Outcome.exists_of_mapM_eq_ok hpackages hp
  rwa [Outcome.ok.inj (h.sealRound2For_eq.symm.trans hpackage)]

/-- **A dealer that only uses `sealRound2` is heard only in the ceremony, the round and by the
recipient that it spoke to.** -/
theorem IdealNoise.exists_madeByRound2 [LawfulScalarBytes S] {publicOf : X25519Key → X25519Key}
    {log : Set Sealing} (hnoise : IdealNoise publicOf log) {key secret : X25519Key} {j : UInt32}
    {roster : SealedRoster} {round : UInt8} {sealedShare : SealedSubShare}
    {commitment : DealerCommitment P} {subshare : SubShare S}
    (hkey : roster.publicKey sealedShare.dealerIndex = .ok key)
    (honly : OnlySealsRound2 P publicOf log key)
    (h : openSubshare secret j roster round sealedShare commitment = .ok subshare) :
    ∃ (dealer : Dkg.Dealer P S) (dealerSecret : X25519Key) (roster' : SealedRoster)
      (round' : UInt8) (ephemerals : UInt32 → X25519Key),
      MadeByRound2 publicOf key j subshare sealedShare dealer dealerSecret roster' round'
        ephemerals ∧
      (∀ packages, sealRound2 dealer dealerSecret roster' round' ephemerals = .ok packages →
        sealedShare ∈ packages) ∧
      ((roster' = roster ∧ round' = round) ∨ roster'.Collide roster) := by
  obtain ⟨hopen, -, -⟩ := openSubshare_eq_ok_iff.mp h
  obtain ⟨hdealer, hplayer, -, -⟩ := indices_of_openEnvelope hopen
  obtain ⟨-, -, -, hrecipient, -, -⟩ := noiseOpen_of_openEnvelope hopen
  obtain ⟨e, he, hmessage, hdelivers⟩ := hnoise.exists_delivers h
  have hpublic : publicOf e.localPrivate = key := by
    have hpublicKey := hdelivers.publicKey_eq
    rw [hdealer, hkey] at hpublicKey
    exact (Outcome.ok.inj hpublicKey).symm
  obtain ⟨dealer, roster', round', ephemerals, index, subshare', package, hindex, hgenerate,
    hseal, recipient, -, hsealing⟩ := honly e he hpublic
  have hprologue : e.prologue = roster'.prologue round' := by rw [hsealing, subshareSealing]
  have hplace := hdelivers.eq_or_collide hprologue
  have hcipher : package.ciphertext = sealedShare.ciphertext := by
    rw [← hmessage, hsealing, subshareSealing]
  rw [hsealing] at hdelivers
  obtain ⟨rfl, -⟩ := hdelivers.eq_of_subshareSealing
  obtain rfl : j = index :=
    hplayer.symm.trans (Dkg.Dealer.playerIndex_of_generateSubshare hgenerate)
  have hpackage : package = sealedShare := by
    obtain ⟨-, -, -, ciphertext, -, -, -, rfl⟩ := sealSubshare_eq_ok_iff.mp hseal
    exact SealedSubShare.ext hdealer (hplayer.trans hrecipient.symm) hcipher
  have hmade : MadeByRound2 publicOf key j subshare' sealedShare dealer e.localPrivate roster'
      round' ephemerals := by
    refine ⟨hpublic, hindex, hgenerate, ?_⟩
    rw [sealRound2For, hgenerate, ← hpackage]
    exact hseal
  exact ⟨dealer, e.localPrivate, roster', round', ephemerals, hmade,
    fun _ => hmade.mem_sealRound2, hplace⟩

/-! ### The guarantee -/

/-- What a recipient knows of a sub-share it accepted: the indices are those of the envelope,
of the commitment and its own, the sub-share verifies, and it was sealed so by the holder of
the dealer's key, for this recipient, in this ceremony and round. -/
structure Authentic (publicOf : X25519Key → X25519Key) (log : Set Sealing) (secret : X25519Key)
    (j : UInt32) (roster : SealedRoster) (round : UInt8) (sealedShare : SealedSubShare)
    (commitment : DealerCommitment P) (subshare : SubShare S) : Prop where
  dealerIndex_eq : subshare.dealerIndex = sealedShare.dealerIndex
  commitment_dealerIndex_eq : commitment.dealerIndex = sealedShare.dealerIndex
  playerIndex_eq : subshare.playerIndex = j
  verifySubshare_eq : commitment.verifySubshare j subshare.value = true
  delivered : ∃ e ∈ log, e.message = sealedShare.ciphertext ∧
    e.Delivers publicOf secret roster round commitment subshare ∧
    (∀ (roster' : SealedRoster) (round' : UInt8), e.prologue = roster'.prologue round' →
      (roster' = roster ∧ round' = round) ∨ roster'.Collide roster) ∧
    ∀ (dealerSecret ephemeral : X25519Key) (roster' : SealedRoster) (round' : UInt8)
      (subshare' : SubShare S) (commitment' : DealerCommitment P) (package : SealedSubShare),
      e.SealedBy dealerSecret roster' round' subshare' commitment' ephemeral package →
        subshare' = subshare ∧ commitmentDigest commitment' = commitmentDigest commitment

theorem IdealNoise.authentic [LawfulScalarBytes S] {publicOf : X25519Key → X25519Key}
    {log : Set Sealing} (hnoise : IdealNoise publicOf log) {secret : X25519Key} {j : UInt32}
    {roster : SealedRoster} {round : UInt8} {sealedShare : SealedSubShare}
    {commitment : DealerCommitment P} {subshare : SubShare S}
    (h : openSubshare secret j roster round sealedShare commitment = .ok subshare) :
    Authentic publicOf log secret j roster round sealedShare commitment subshare := by
  obtain ⟨hopen, hindex, hverify⟩ := openSubshare_eq_ok_iff.mp h
  obtain ⟨hdealer, hplayer, -, -⟩ := indices_of_openEnvelope hopen
  obtain ⟨e, he, hmessage, hdelivers⟩ := hnoise.exists_delivers h
  refine ⟨hdealer, hindex.symm.trans hdealer, hplayer, hverify, e, he, hmessage, hdelivers,
    fun _ _ => hdelivers.eq_or_collide, ?_⟩
  rintro dealerSecret ephemeral roster' round' subshare' commitment' package
    ⟨-, recipient, -, rfl⟩
  exact hdelivers.eq_of_subshareSealing

/-- **Integrity of sealed delivery.**  Whatever arrives, what is accepted is authentic; what an
honest dealer seals for a recipient is accepted; what is accepted from a dealer that only uses
`sealRound2` it made for this recipient in this ceremony and round; and where no two sealings
wrote one message, none is accepted for anything else than it was sealed for. -/
theorem sealed_delivery [LawfulScalarBytes S] {publicOf : X25519Key → X25519Key}
    {log : Set Sealing} (hnoise : IdealNoise publicOf log) :
    (∀ (secret : X25519Key) (j : UInt32) (roster : SealedRoster) (round : UInt8)
      (sealedShare : SealedSubShare) (commitment : DealerCommitment P) (subshare : SubShare S),
      openSubshare secret j roster round sealedShare commitment = .ok subshare →
        Authentic publicOf log secret j roster round sealedShare commitment subshare) ∧
    (∀ (dealerSecret secret ephemeral : X25519Key) (roster : SealedRoster) (round : UInt8)
      (sealedShare : SealedSubShare) (commitment : DealerCommitment P) (subshare : SubShare S),
      ∀ e ∈ log,
      e.SealedBy dealerSecret roster round subshare commitment ephemeral sealedShare →
      roster.publicKey subshare.dealerIndex = .ok (publicOf dealerSecret) →
      roster.publicKey subshare.playerIndex = .ok (publicOf secret) →
      commitment.verifySubshare subshare.playerIndex subshare.value = true →
        openSubshare secret subshare.playerIndex roster round sealedShare commitment
          = .ok subshare) ∧
    (∀ (secret key : X25519Key) (j : UInt32) (roster : SealedRoster) (round : UInt8)
      (sealedShare : SealedSubShare) (commitment : DealerCommitment P) (subshare : SubShare S),
      openSubshare secret j roster round sealedShare commitment = .ok subshare →
      roster.publicKey sealedShare.dealerIndex = .ok key → OnlySealsRound2 P publicOf log key →
      ∃ (dealer : Dkg.Dealer P S) (dealerSecret : X25519Key) (roster' : SealedRoster)
        (round' : UInt8) (ephemerals : UInt32 → X25519Key),
        MadeByRound2 publicOf key j subshare sealedShare dealer dealerSecret roster' round'
          ephemerals ∧
        (∀ packages, sealRound2 dealer dealerSecret roster' round' ephemerals = .ok packages →
          sealedShare ∈ packages) ∧
        ((roster' = roster ∧ round' = round) ∨ roster'.Collide roster)) ∧
    (Set.InjOn Sealing.message log →
      ∀ (dealerSecret secret ephemeral : X25519Key) (j : UInt32) (roster roster' : SealedRoster)
        (round round' : UInt8) (package sealedShare : SealedSubShare)
        (commitment commitment' : DealerCommitment P) (subshare subshare' : SubShare S),
      ∀ e ∈ log,
      e.SealedBy dealerSecret roster' round' subshare' commitment' ephemeral package →
      sealedShare.ciphertext = package.ciphertext →
      openSubshare secret j roster round sealedShare commitment = .ok subshare →
        j = package.recipientIndex ∧
        ((roster' = roster ∧ round' = round) ∨ roster'.Collide roster)) := by
  refine ⟨fun _ _ _ _ _ _ _ h => hnoise.authentic h, ?_, ?_, ?_⟩
  · intro dealerSecret secret ephemeral roster round sealedShare commitment subshare e he hsealed
      hdealer hrecipient hverify
    exact hnoise.openSubshare_eq_ok hdealer hrecipient hverify he hsealed
  · intro secret key j roster round sealedShare commitment subshare h hkey honly
    exact hnoise.exists_madeByRound2 hkey honly h
  · intro hfresh dealerSecret secret ephemeral j roster roster' round round' package sealedShare
      commitment commitment' subshare subshare' e he hsealed hcipher h
    obtain ⟨rfl, hplace⟩ := hnoise.eq_of_openSubshare hfresh he hsealed hcipher h
    obtain ⟨hopen, -, -⟩ := openSubshare_eq_ok_iff.mp h
    obtain ⟨-, hplayer, -, -⟩ := indices_of_openEnvelope hopen
    obtain ⟨-, -, -, ciphertext, -, -, -, rfl⟩ := sealSubshare_eq_ok_iff.mp hsealed.1
    exact ⟨hplayer.symm, hplace⟩

end Integrity

/-! ### One package -/

section Delivery

open Reference

/-- The handshake of `snow`, which reads the message of one call only. -/
abbrev recording (e : Sealing) : Snow where
  writeMessage := snow.writeMessage
  readMessage _ prologue localPrivate remotePublic message :=
    if publicOf e.localPrivate = remotePublic ∧ e.remotePublic = publicOf localPrivate ∧
        e.prologue = prologue ∧ e.message = message then
      some e.plaintext
    else
      none

lemma idealNoise_recording {e : Sealing} (h : noiseSeal e.localPrivate e.remotePublic e.ephemeral
    e.prologue e.plaintext = some e.message) : @IdealNoise (recording e) publicOf {e} := by
  refine @IdealNoise.mk (recording e) _ _ ?_ ?_
  · rintro _ rfl
    exact h
  · intro secret remotePublic prologue message plaintext
    have hread : @noiseOpen (recording e) secret remotePublic prologue message
        = if publicOf e.localPrivate = remotePublic ∧ e.remotePublic = publicOf secret ∧
            e.prologue = prologue ∧ e.message = message then some e.plaintext else none := rfl
    rw [hread]
    simp only [Set.mem_singleton_iff, exists_eq_left, Option.ite_none_right_eq_some,
      Option.some.injEq]
    tauto

/-- The share `7` of dealer 1, whose polynomial is `5 + x`, for participant 2. -/
def lineShare : SubShare Residue := ⟨1, 2, ((7 : ℕ) : Residue)⟩

/-- The message that carries it. -/
def lineMessage : Bytes :=
  (noiseSeal (Vector.replicate 32 1) (publicOf (Vector.replicate 32 2)) (Vector.replicate 32 7)
    (roster.prologue 2) (lineShare.encodePlaintext ++
      (commitmentDigest (linePackage 1 5 1).commitment).toList)).getD []

/-- The call that wrote it. -/
def lineSealing : Sealing :=
  subshareSealing (Vector.replicate 32 1) (publicOf (Vector.replicate 32 2))
    (Vector.replicate 32 7) roster 2 lineShare (linePackage 1 5 1).commitment lineMessage

/-- Participant 2 accepts the share that dealer 1 sealed for it. -/
theorem opens_lineShare :
    @openSubshare Residue Residue _ _ _ (recording lineSealing) (Vector.replicate 32 2) 2 roster 2
      ⟨1, 2, lineMessage⟩ (linePackage 1 5 1).commitment = .ok lineShare := by
  have hmessage : noiseSeal (Vector.replicate 32 1) (publicOf (Vector.replicate 32 2))
      (Vector.replicate 32 7) (roster.prologue 2) (lineShare.encodePlaintext ++
        (commitmentDigest (linePackage 1 5 1).commitment).toList) = some lineMessage := rfl
  have hideal := idealNoise_recording (e := lineSealing) hmessage
  have hdealer : roster.publicKey lineShare.dealerIndex
      = .ok (publicOf (Vector.replicate 32 1)) := by decide
  have hrecipient : roster.publicKey lineShare.playerIndex
      = .ok (publicOf (Vector.replicate 32 2)) := by decide
  have hverify : (linePackage 1 5 1).commitment.verifySubshare lineShare.playerIndex
      lineShare.value = true := by decide +kernel
  have hsealed : @Sealing.SealedBy Residue Residue _ _ _ (recording lineSealing) lineSealing
      (Vector.replicate 32 1) roster 2 lineShare (linePackage 1 5 1).commitment
      (Vector.replicate 32 7) ⟨1, 2, lineMessage⟩ := by
    refine ⟨?_, publicOf (Vector.replicate 32 2), hrecipient, rfl⟩
    refine (@sealSubshare_eq_ok_iff Residue Residue _ _ _ (recording lineSealing) _ _ _ _ _ _ _).mpr
      ⟨rfl, _, _, lineMessage, hrecipient, hdealer, hmessage, rfl⟩
  exact (@sealed_delivery Residue Residue _ _ _ (recording lineSealing) _ _ _ hideal).2.1
    _ _ _ _ _ _ _ _ _ rfl hsealed hdealer hrecipient hverify

end Delivery

end Frostito
