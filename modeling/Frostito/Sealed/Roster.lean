import Frostito.DealerSet
import Frostito.Index
import Frostito.Lib.Keyed
import Frostito.Reshare.Commitment

/-!
# Sealed packages

The roster of a ceremony names every participant and its static key.  It is hashed into the
prologue of every message, so that a package opens only for a recipient with the same
participants, the same session and the same round in mind.  The message pattern itself is a
parameter: what a dealer writes and what a recipient reads from it.
-/

namespace Frostito

/-- The Noise pattern. -/
def noisePattern : String := "Noise_K_25519_ChaChaPoly_BLAKE2s"

/-- Domain tag for the ceremony transcript. -/
def transcriptDomain : Bytes := "frostito/sealed/transcript/v1".toUTF8.toList

/-- Domain tag for the Noise prologue. -/
def prologueDomain : Bytes := "frostito/sealed/prologue/v1".toUTF8.toList

/-- Domain tag for the sealed-ciphertext digest carried in complaint evidence. -/
def sealedDigestDomain : Bytes := "frostito/sealed/ciphertext/v1".toUTF8.toList

/-- An X25519 key, secret or public. -/
abbrev X25519Key := Vector UInt8 32

/-- The single message of a handshake pattern, as the `snow` crate runs it. -/
class Snow where
  /-- Build an initiator of a pattern with a prologue, its own private key and the remote
  public key, and write a payload under a fresh ephemeral key. -/
  writeMessage : String → Bytes → X25519Key → X25519Key → X25519Key → Bytes → Option Bytes
  /-- Build a responder of a pattern with a prologue, its own private key and the remote
  public key, and read a message. -/
  readMessage : String → Bytes → X25519Key → X25519Key → Bytes → Option Bytes

/-- `noise_seal`, with the ephemeral key that it draws. -/
def noiseSeal [Snow] (localPrivate remotePublic ephemeral : X25519Key)
    (prologue plaintext : Bytes) : Option Bytes :=
  Snow.writeMessage noisePattern prologue localPrivate remotePublic ephemeral plaintext

/-- `noise_open`. -/
def noiseOpen [Snow] (localPrivate remotePublic : X25519Key) (prologue message : Bytes) :
    Option Bytes :=
  Snow.readMessage noisePattern prologue localPrivate remotePublic message

/-- The participant set of one ceremony: every participant's identifier and static key,
ascending, plus the session id. -/
structure SealedRoster where
  participants : List (UInt32 × X25519Key)
  sessionId : Vector UInt8 32
  valid : ValidIndices (participants.map Prod.fst)
  sorted : (participants.map Prod.fst).Pairwise (· ≤ ·)

namespace SealedRoster

/-- `sort_by_key(|(i, _)| *i)`. -/
def sortByIndex (participants : List (UInt32 × X25519Key)) : List (UInt32 × X25519Key) :=
  participants.insertionSort fun a b => a.1 ≤ b.1

lemma perm_sortByIndex (participants : List (UInt32 × X25519Key)) :
    (sortByIndex participants).Perm participants :=
  List.perm_insertionSort _ _

lemma pairwise_sortByIndex (participants : List (UInt32 × X25519Key)) :
    ((sortByIndex participants).map Prod.fst).Pairwise (· ≤ ·) := by
  have : Std.Total fun a b : UInt32 × X25519Key => a.1 ≤ b.1 :=
    ⟨fun a b => UInt32.le_total a.1 b.1⟩
  have : IsTrans (UInt32 × X25519Key) fun a b => a.1 ≤ b.1 := ⟨fun _ _ _ => UInt32.le_trans⟩
  exact List.pairwise_map.mpr (List.pairwise_insertionSort (fun a b => a.1 ≤ b.1) participants)

/-- Build a roster. -/
def new (participants : List (UInt32 × X25519Key)) (sessionId : Vector UInt8 32) :
    Outcome Error SealedRoster :=
  let sorted := sortByIndex participants
  if hne : participants = [] then
    .err .emptyContributions
  -- after sorting, an index zero could only be the first
  else if h0 : (sorted.map Prod.fst).head? = some 0 then
    .err .invalidIndex
  else
    match hrepeat : Sorted.firstRepeat (sorted.map Prod.fst) with
    | some dup => .err (.duplicateIndex dup)
    | none =>
      .ok {
        participants := sorted
        sessionId := sessionId
        valid := {
          ne_nil := by
            simpa [sorted] using fun h => hne (h ▸ perm_sortByIndex participants).nil_eq.symm
          zero_notMem := fun h => h0 (head?_eq_some_zero_of_mem
            (pairwise_sortByIndex participants) h)
          nodup := (Sorted.firstRepeat_eq_none_iff
            (pairwise_sortByIndex participants)).mp hrepeat }
        sorted := pairwise_sortByIndex participants }

/-- A participant's advertised static key. -/
def publicKey (roster : SealedRoster) (index : UInt32) : Outcome Error X25519Key :=
  .okOr ((roster.participants.find? fun p => p.1 = index).map Prod.snd)
    (.unknownParticipant index)

/-- What the transcript hashes. -/
def transcriptPreimage (roster : SealedRoster) : Bytes :=
  transcriptDomain ++ lenToLeBytes roster.participants.length ++
    (roster.participants.flatMap fun p => u32ToLeBytes p.1 ++ p.2.toList) ++
    roster.sessionId.toList

variable [Sha2]

/-- Hash over the whole participant set, the ceremony's fingerprint. -/
def transcript (roster : SealedRoster) : Vector UInt8 32 := sha256 roster.transcriptPreimage

/-- The Noise prologue for one round of this ceremony. -/
def prologue (roster : SealedRoster) (round : UInt8) : Bytes :=
  prologueDomain ++ roster.transcript.toList ++ roster.sessionId.toList ++ [round]

omit [Sha2] in
/-- A roster is built exactly of a valid set of participants, and sorted by index. -/
theorem new_eq_ok_iff {participants : List (UInt32 × X25519Key)} {sessionId : Vector UInt8 32}
    {roster : SealedRoster} :
    new participants sessionId = .ok roster ↔ ValidIndices (participants.map Prod.fst) ∧
      roster.participants = sortByIndex participants ∧ roster.sessionId = sessionId := by
  have hperm := (perm_sortByIndex participants).map Prod.fst
  constructor
  · intro h
    have hroster : roster.participants = sortByIndex participants ∧
        roster.sessionId = sessionId := by
      unfold new at h
      dsimp only at h
      split at h
      · exact absurd h (by simp)
      · split at h
        · exact absurd h (by simp)
        · split at h
          · exact absurd h (by simp)
          · rw [← Outcome.ok.inj h]
            exact ⟨rfl, rfl⟩
    exact ⟨(hroster.1 ▸ roster.valid).perm hperm, hroster⟩
  · rintro ⟨hvalid, hparticipants, hsession⟩
    have hsorted := hvalid.perm hperm.symm
    unfold new
    dsimp only
    split
    · next hnil => exact absurd (hnil ▸ rfl) hvalid.ne_nil
    · split
      · next h0 => exact absurd (List.mem_of_mem_head? h0) hsorted.zero_notMem
      · split
        · next dup hrepeat =>
          rw [(Sorted.firstRepeat_eq_none_iff (pairwise_sortByIndex participants)).mpr
            hsorted.nodup] at hrepeat
          exact absurd hrepeat (by simp)
        · cases roster
          simp_all

omit [Sha2] in
@[ext] lemma ext {roster roster' : SealedRoster}
    (hparticipants : roster.participants = roster'.participants)
    (hsession : roster.sessionId = roster'.sessionId) : roster = roster' := by
  cases roster
  cases roster'
  simp_all

omit [Sha2] in
lemma publicKey_eq_ok_iff {roster : SealedRoster} {index : UInt32} {key : X25519Key} :
    roster.publicKey index = .ok key ↔ (index, key) ∈ roster.participants := by
  rw [publicKey, Outcome.okOr_eq_ok_iff, Option.map_eq_some_iff]
  constructor
  · rintro ⟨⟨i, k⟩, hfind, rfl⟩
    obtain rfl : i = index := by simpa using List.find?_some hfind
    exact List.mem_of_find?_eq_some hfind
  · intro hmem
    exact ⟨(index, key), (Keyed.find?_eq_some_iff roster.valid.nodup).mpr ⟨hmem, rfl⟩, rfl⟩

omit [Sha2] in
/-- Only participants have a key. -/
lemma ne_zero_of_publicKey_eq_ok {roster : SealedRoster} {index : UInt32} {key : X25519Key}
    (h : roster.publicKey index = .ok key) : index ≠ 0 := fun h0 =>
  roster.valid.zero_notMem (h0 ▸ List.mem_map.mpr ⟨_, publicKey_eq_ok_iff.mp h, rfl⟩)

/-! ### What the prologue binds -/

omit [Sha2] in
lemma length_participants_lt (roster : SealedRoster) : roster.participants.length < 2 ^ 64 := by
  have hle := length_le_of_nodup roster.valid.nodup
  rw [List.length_map, UInt32.size] at hle
  omega

omit [Sha2] in
/-- The transcript names all of the roster. -/
theorem transcriptPreimage_injective : Function.Injective transcriptPreimage := by
  intro roster roster' h
  have hentry : Framing.SelfDelimiting (fun _ => True)
      fun p : UInt32 × X25519Key => u32ToLeBytes p.1 ++ p.2.toList := by
    refine .of_width (n := 36) (fun p _ => by simp) fun p p' _ _ hp => ?_
    obtain ⟨hindex, hkey⟩ := List.append_inj hp (by simp)
    exact Prod.ext (u32ToLeBytes_inj hindex) (Vector.toList_inj.mp hkey)
  rw [transcriptPreimage, transcriptPreimage, List.append_assoc, List.append_assoc,
    List.append_assoc, List.append_assoc, List.append_cancel_left_eq] at h
  obtain ⟨hlen, hrest⟩ := selfDelimiting_u64 trivial trivial h
  have hlen' : roster.participants.length = roster'.participants.length := by
    have htoNat := congrArg UInt64.toNat hlen
    rwa [UInt64.toNat_ofNat_of_lt' roster.length_participants_lt,
      UInt64.toNat_ofNat_of_lt' roster'.length_participants_lt] at htoNat
  obtain ⟨hparticipants, hsession⟩ :=
    hentry.flatMap (fun _ _ => trivial) (fun _ _ => trivial) hlen' hrest
  exact ext hparticipants (Vector.toList_inj.mp hsession)

/-- The transcripts of two rosters are a collision of SHA-256. -/
def Collide (roster roster' : SealedRoster) : Prop :=
  roster.transcriptPreimage ≠ roster'.transcriptPreimage ∧
    sha256 roster.transcriptPreimage = sha256 roster'.transcriptPreimage

/-- **One prologue, one ceremony and round**, or a collision. -/
theorem eq_or_collide {roster roster' : SealedRoster} {round round' : UInt8}
    (h : roster.prologue round = roster'.prologue round') :
    (roster = roster' ∧ round = round') ∨ roster.Collide roster' := by
  rw [prologue, prologue] at h
  obtain ⟨hinit, hround⟩ := List.append_inj' h rfl
  obtain ⟨htranscript, -⟩ := List.append_inj' hinit (by simp)
  have hsha := Vector.toList_inj.mp (List.append_cancel_left htranscript)
  by_cases heq : roster.transcriptPreimage = roster'.transcriptPreimage
  · exact .inl ⟨transcriptPreimage_injective heq, List.singleton_inj.mp hround⟩
  · exact .inr ⟨heq, hsha⟩

end SealedRoster

/-- A sub-share sealed to one recipient. -/
@[ext]
structure SealedSubShare where
  dealerIndex : UInt32
  recipientIndex : UInt32
  /-- Noise_K message: ephemeral ‖ ciphertext ‖ tag. -/
  ciphertext : Bytes

/-- SHA-256 of a sealed package's ciphertext, as delivered. -/
def sealedCiphertextDigest [Sha2] (ciphertext : Bytes) : Vector UInt8 32 :=
  sha256 (sealedDigestDomain ++ lenToLeBytes ciphertext.length ++ ciphertext)

end Frostito
