import Frostito.Curve

/-!
# Signing contexts

What a group signs where the protocol chooses the bytes: the message together with the epoch
and the manifest that it was approved under.
-/

namespace Frostito

/-- Domain separation tag for the canonical encoding. -/
def signingContextDomain : Bytes := "frostito/signing-context/v1".toUTF8.toList

/-- A message bound to the epoch and manifest it was authorized under. -/
structure SigningContext where
  epoch : UInt64
  manifestHash : Vector UInt8 32
  message : Bytes

/-- Canonical encoding, the bytes the group signs. -/
def SigningContext.encode (ctx : SigningContext) : Bytes :=
  lenToLeBytes signingContextDomain.length ++ signingContextDomain ++ u64ToLeBytes ctx.epoch ++
    ctx.manifestHash.toList ++ lenToLeBytes ctx.message.length ++ ctx.message

/-- A context is read off the front of any byte string that starts with its encoding. -/
theorem SigningContext.selfDelimiting_encode :
    Framing.SelfDelimiting (fun ctx : SigningContext => ctx.message.length < 2 ^ 64) encode := by
  intro ctx hctx ctx' hctx' x y h
  simp only [encode, List.append_assoc, List.append_cancel_left_eq] at h
  obtain ⟨hepoch, h⟩ := selfDelimiting_u64 trivial trivial h
  obtain ⟨hmanifest, h⟩ := List.append_inj h (by simp)
  rw [← List.append_assoc, ← List.append_assoc, lenToLeBytes_append hctx,
    lenToLeBytes_append hctx'] at h
  obtain ⟨hmessage, hrest⟩ := Framing.selfDelimiting_lengthPrefixed hctx hctx' h
  refine ⟨?_, hrest⟩
  cases ctx
  cases ctx'
  simp_all [Vector.toList_inj]

end Frostito
