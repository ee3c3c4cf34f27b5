/-!
# Error values

The errors the modelled functions return.  Every function keeps the source's choice of
error and of the index it names.
-/

namespace Frostito

/-- Errors returned by the crate. -/
inductive Error where
  /-- No contributions provided. -/
  | emptyContributions
  /-- Not enough contributions for the threshold. -/
  | insufficientContributions (got need : Nat)
  /-- Duplicate custodian index. -/
  | duplicateIndex (index : UInt32)
  /-- Invalid commitment point. -/
  | invalidCommitment
  /-- Invalid response scalar. -/
  | invalidResponse
  /-- Index out of the valid range. -/
  | invalidIndex
  /-- Sub-share from a dealer outside the agreed dealer set. -/
  | unexpectedDealer (index : UInt32)
  /-- Dealers committed to different new thresholds. -/
  | thresholdMismatch (expected got : UInt32)
  /-- The signing package's message is not the message the signer approved. -/
  | messageMismatch
  /-- A commitment in the package is not the one produced in the local round. -/
  | unexpectedCommitment
  /-- Two rounds of the same protocol were mixed. -/
  | sessionMismatch
  /-- A dealer's proof of knowledge of its constant term did not verify. -/
  | invalidProofOfKnowledge (index : UInt32)
  /-- A dealer's sub-share did not verify against its commitment. -/
  | invalidSubShare (index : UInt32)
  /-- Too few dealers remain after disqualification. -/
  | dkgAborted (qualified need : Nat)
  /-- A sealed package did not open. -/
  | sealedOpenFailed (index : UInt32)
  /-- A participant is not on the sealed roster. -/
  | unknownParticipant (index : UInt32)
  /-- A member of the inner quorum has no round-1 commitment. -/
  | unknownQuorumMember (index : UInt32)
  /-- Two participants published different views of the round-1 set. -/
  | echoMismatch
  /-- A revealed inner commitment does not match its precommitment. -/
  | precommitMismatch (index : UInt32)
  /-- The session and holder have already produced a share. -/
  | sessionSpent
  /-- A complaint did not verify. -/
  | invalidComplaint
deriving DecidableEq, Repr

end Frostito
