import Mathlib.Data.Finset.Insert
import Frostito.Nested.Sign
import Frostito.Signer.Context

/-!
# Composable signing

A signer answers requests.  The base signer is a holder of an inner share, and a layer wraps a
signer in one more concern: `Spend` records the session of a request as spent before the
signer inside sees it.
-/

namespace Frostito

/-! ### Spent sessions -/

/-- A record of which pairs of a session and a holder have already produced a share. -/
class SpentSessions (T : Type) where
  /-- Mark a pair spent, or refuse if it already is. -/
  spend : T → Vector UInt8 32 → UInt32 → T × Outcome Error Unit
  /-- Whether the pair has already been spent. -/
  isSpent : T → Vector UInt8 32 → UInt32 → Bool

/-- An in-memory record. -/
structure MemorySpentSessions where
  spent : Finset (Vector UInt8 32 × UInt32)

namespace MemorySpentSessions

def new : MemorySpentSessions := ⟨∅⟩

instance : SpentSessions MemorySpentSessions where
  spend store sessionId holderIndex :=
    if (sessionId, holderIndex) ∈ store.spent then
      (store, .err .sessionSpent)
    else
      (⟨insert (sessionId, holderIndex) store.spent⟩, .ok ())
  isSpent store sessionId holderIndex := decide ((sessionId, holderIndex) ∈ store.spent)

end MemorySpentSessions

/-! ### Requests -/

section Stack

variable {P S : Type} [CurveScalar S]

variable (P S) in
/-- One signing request: everything that varies per round. -/
structure SignRequest where
  /-- This holder's nonces for the round. -/
  nonces : InnerNonces S
  /-- The outer round, as the coordinator published it. -/
  nested : NestedSigningRequest P S
  /-- The bytes this holder approved. -/
  message : Bytes

/-- Sign the approved message as given. -/
def SignRequest.raw (nonces : InnerNonces S) (approvedMessage : Bytes)
    (nested : NestedSigningRequest P S) : SignRequest P S where
  nonces := nonces
  nested := nested
  message := approvedMessage

/-- Sign the message with its epoch and manifest bound in. -/
def SignRequest.bound (nonces : InnerNonces S) (ctx : SigningContext)
    (nested : NestedSigningRequest P S) : SignRequest P S where
  nonces := nonces
  nested := nested
  message := ctx.encode

/-! ### Signers and layers -/

/-- A stage that turns a request into a signature share. -/
class Signer (suite : Ciphersuite P S) (σ : Type) where
  /-- Produce this holder's share, or refuse. -/
  sign : σ → SignRequest P S → σ × Outcome Error (InnerSignatureShare S)

/-- Wraps a signer in one more concern. -/
class Layer (L σ : Type) (σ' : outParam Type) where
  layer : L → σ → σ'

/-- Builder for a stack of layers, outermost applied last. -/
structure Stack (σ : Type) where
  inner : σ

namespace Stack

def new {σ : Type} (inner : σ) : Stack σ := ⟨inner⟩

/-- Wrap what is built so far. -/
def layer {L σ σ' : Type} [Layer L σ σ'] (stack : Stack σ) (l : L) : Stack σ' :=
  ⟨Layer.layer l stack.inner⟩

/-- The assembled signer. -/
def intoInner {σ : Type} (stack : Stack σ) : σ := stack.inner

end Stack

/-- The base signer: one inner holder's share and the group key it anchors to. -/
structure Holder (suite : Ciphersuite P S) where
  share : SecretShare S
  verifyingKey : P

/-- Records the session as spent before the inner signer runs. -/
structure Spend (T : Type) where
  store : T

/-- `Spend` wrapped around a signer. -/
structure Spending (T σ : Type) where
  store : T
  inner : σ

/-- The spent-session store, back out. -/
def Spending.intoStore {T σ : Type} (signer : Spending T σ) : T := signer.store

instance {T σ : Type} : Layer (Spend T) σ (Spending T σ) where
  layer l inner := ⟨l.store, inner⟩

instance {suite : Ciphersuite P S} {T σ : Type} [SpentSessions T] [Signer suite σ] :
    Signer suite (Spending T σ) where
  sign signer req :=
    match SpentSessions.spend signer.store req.nonces.sessionId req.nonces.holderIndex with
    | (store, .ok ()) =>
      let (inner, result) := Signer.sign suite signer.inner req
      (⟨store, inner⟩, result)
    | (store, .err e) => (⟨store, signer.inner⟩, .err e)
    | (store, .panic) => (⟨store, signer.inner⟩, .panic)

variable [CurvePoint P S] [Sha2]

instance {suite : Ciphersuite P S} : Signer suite (Holder suite) where
  sign holder req :=
    (holder, innerSign suite req.nonces holder.share holder.verifyingKey req.message req.nested)

/-! ### What the base signer returns -/

omit [CurvePoint P S] [Sha2] in
lemma identifierToIndex_ne_sessionSpent (suite : Ciphersuite P S) (id : Identifier S) :
    identifierToIndex suite id ≠ .err .sessionSpent := by
  rw [identifierToIndex, indexOfBytes]
  intro h
  simp only [Outcome.bind_eq_err_iff, Outcome.refuse_eq_err_iff, reduceCtorEq, and_false,
    false_or] at h
  obtain ⟨-, -, h⟩ := h
  split at h <;> simp [Outcome.bind_eq_err_iff, Outcome.refuse_eq_err_iff] at h

omit [CurvePoint P S] [Sha2] in
lemma computeLagrangeCoefficients_ne_sessionSpent (indices : List UInt32) :
    (computeLagrangeCoefficients indices : Outcome Error (List S)) ≠ .err .sessionSpent := by
  rw [computeLagrangeCoefficients]
  intro h
  rcases Outcome.bind_eq_err_iff.mp h with h | ⟨-, -, h⟩
  · simp [Outcome.refuse_eq_err_iff] at h
  rcases Outcome.bind_eq_err_iff.mp h with h | ⟨-, -, h⟩
  · exact Outcome.forM_ne_err (fun _ _ => by simp [Outcome.refuse_eq_err_iff]) h
  split at h
  · exact absurd h (by simp)
  · dsimp only at h
    split at h
    · exact absurd h (by simp)
    · split at h <;> exact absurd h (by simp)

omit [CurvePoint P S] [Sha2] in
lemma innerParamsFromZf_ne_sessionSpent (suite : Ciphersuite P S) (package : SigningPackage P S)
    (verifyingKey : P) (nestedIndex : UInt32) :
    innerParamsFromZf suite package verifyingKey nestedIndex ≠ .err .sessionSpent := by
  have hindices : package.identifiers.mapM (identifierToIndex suite) ≠ .err .sessionSpent :=
    Outcome.mapM_ne_err fun id _ => identifierToIndex_ne_sessionSpent suite id
  simp [innerParamsFromZf, Outcome.bind_eq_err_iff, Outcome.okOr_eq_err_iff, hindices,
    computeLagrangeCoefficients_ne_sessionSpent, Outcome.expectSome_ne_err]

omit [CurveScalar S] [CurvePoint P S] [Sha2] in
lemma checkQuorum_ne_sessionSpent (commitments : List (InnerCommitments P))
    (seen active : List UInt32) :
    checkQuorum commitments seen active ≠ .err .sessionSpent := by
  induction active generalizing seen with
  | nil => simp [checkQuorum]
  | cons k ks ih => simp [checkQuorum, Outcome.bind_eq_err_iff, Outcome.refuse_eq_err_iff, ih]

lemma verifyNestedCommitment_ne_sessionSpent (package : SigningPackage P S)
    (nestedIndex : UInt32) (sessionId : Vector UInt8 32)
    (precommits : List (UInt32 × Vector UInt8 32))
    (innerCommitments : List (InnerCommitments P)) :
    verifyNestedCommitment package nestedIndex sessionId precommits innerCommitments
      ≠ .err .sessionSpent := by
  have hfold : ∀ acc, innerCommitments.foldlM (addInnerCommitment sessionId precommits) acc
      ≠ .err .sessionSpent := fun acc =>
    Outcome.foldlM_ne_err (fun c _ b => by
      simp [addInnerCommitment, Outcome.bind_eq_err_iff, Outcome.refuse_eq_err_iff,
        Outcome.okOr_eq_err_iff]) acc
  simp [verifyNestedCommitment, aggregateInnerCommitmentPair, Outcome.bind_eq_err_iff,
    Outcome.refuse_eq_err_iff, Outcome.okOr_eq_err_iff, hfold]

/-- The base signer knows nothing of spent sessions. -/
lemma innerSign_ne_sessionSpent (suite : Ciphersuite P S) (nonces : InnerNonces S)
    (share : SecretShare S) (localGroupPubkey : P) (approvedMessage : Bytes)
    (request : NestedSigningRequest P S) :
    innerSign suite nonces share localGroupPubkey approvedMessage request
      ≠ .err .sessionSpent := by
  simp [innerSign, Outcome.bind_eq_err_iff, Outcome.refuse_eq_err_iff, Outcome.okOr_eq_err_iff,
    checkQuorum_ne_sessionSpent, verifyNestedCommitment_ne_sessionSpent,
    innerParamsFromZf_ne_sessionSpent, computeLagrangeCoefficients_ne_sessionSpent,
    Outcome.expectSome_ne_err]

/-- A share is attributed to the session of its request and the holder of its nonces, which
are of that session. -/
lemma attribution_of_innerSign {suite : Ciphersuite P S} {nonces : InnerNonces S}
    {share : SecretShare S} {localGroupPubkey : P} {approvedMessage : Bytes}
    {request : NestedSigningRequest P S} {sig : InnerSignatureShare S}
    (h : innerSign suite nonces share localGroupPubkey approvedMessage request = .ok sig) :
    (request.sessionId, sig.holderIndex) = (nonces.sessionId, nonces.holderIndex) := by
  simp only [innerSign, Outcome.bind_eq_ok_iff, Outcome.refuse_eq_ok_iff, not_not,
    Outcome.ok.injEq] at h
  obtain ⟨_, -, _, -, _, -, _, hsession, mine, -, _, -, _, -, params, -, lagrange, -, pos, -, mu,
    -, rfl⟩ := h
  rw [hsession]

end Stack

end Frostito
