import Frostito.Reference.Sha2
import Frostito.Sealed.Roster

/-!
# A handshake to compute with

The message carries the ephemeral key and the payload in the clear, behind which stands a
SHA-256 tag over the prologue, the two static keys and the rest.  A public key is the secret
it belongs to.  This hides nothing, and opens exactly for the pair of keys and the prologue
that it was written for, up to collisions of the tag.
-/

namespace Frostito.Reference

/-- The public key of a static secret. -/
def publicOf (staticSecret : X25519Key) : X25519Key := staticSecret

/-- The tag of a message. -/
def messageTag (pattern : String) (prologue : Bytes) (initiator responder : X25519Key)
    (body : Bytes) : Bytes :=
  (sha256 (pattern.toUTF8.toList ++ lenToLeBytes prologue.length ++ prologue ++
    initiator.toList ++ responder.toList ++ body)).toList

lemma length_messageTag (pattern : String) (prologue : Bytes) (initiator responder : X25519Key)
    (body : Bytes) : (messageTag pattern prologue initiator responder body).length = 32 := by
  simp [messageTag]

scoped instance snow : Snow where
  writeMessage pattern prologue localPrivate remotePublic ephemeral payload :=
    some (messageTag pattern prologue (publicOf localPrivate) remotePublic
      (ephemeral.toList ++ payload) ++ (ephemeral.toList ++ payload))
  readMessage pattern prologue localPrivate remotePublic message :=
    if message.take 32 = messageTag pattern prologue remotePublic (publicOf localPrivate)
        (message.drop 32) then
      some (message.drop 64)
    else
      none

/-- Sealing never fails. -/
lemma exists_noiseSeal (localPrivate remotePublic ephemeral : X25519Key)
    (prologue plaintext : Bytes) :
    ∃ message, noiseSeal localPrivate remotePublic ephemeral prologue plaintext = some message :=
  ⟨_, rfl⟩

/-- What was sealed between two static keys opens between them. -/
lemma noiseOpen_of_noiseSeal {sender recipient ephemeral : X25519Key}
    {prologue plaintext message : Bytes}
    (h : noiseSeal sender (publicOf recipient) ephemeral prologue plaintext = some message) :
    noiseOpen recipient (publicOf sender) prologue message = some plaintext := by
  have hmessage := Option.some.inj h
  have hlen : ∀ body, (messageTag noisePattern prologue (publicOf sender) (publicOf recipient)
      body).length = 32 := length_messageTag _ _ _ _
  have hdrop : message.drop 32 = ephemeral.toList ++ plaintext := by
    rw [← hmessage, List.drop_left' (hlen _)]
  have hpayload : message.drop 64 = plaintext := by
    rw [← List.drop_drop (i := 32) (j := 32), hdrop, List.drop_left' (by simp)]
  have htake : message.take 32 = messageTag noisePattern prologue (publicOf sender)
      (publicOf recipient) (message.drop 32) := by
    rw [hdrop, ← hmessage, List.take_left' (hlen _)]
  rw [← hpayload]
  exact if_pos htake

end Frostito.Reference
