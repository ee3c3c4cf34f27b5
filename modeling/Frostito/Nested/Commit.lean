import Frostito.Index
import Frostito.Nested.Package

/-!
# The commit–reveal round of the inner group

Every holder publishes a hash of its nonce commitments before any of them is revealed.  The
pair that the outer protocol is shown is the sum of the revealed commitments, and it is
formed only when every one of them is of this round, of a holder of its own, and the one its
holder committed to.
-/

namespace Frostito

/-- An inner holder's nonce pair. -/
structure InnerNonces (S : Type) where
  holderIndex : UInt32
  /-- The round this nonce pair belongs to. -/
  sessionId : Vector UInt8 32
  hidingNonce : S
  bindingNonce : S

/-- An inner holder's nonce commitments. -/
structure InnerCommitments (P : Type) where
  holderIndex : UInt32
  /-- The inner round this commitment was produced for. -/
  sessionId : Vector UInt8 32
  hidingCommitment : P
  bindingCommitment : P

/-- Domain tag for the round-0 hash commitment. -/
def innerPrecommitDomain : Bytes := "frostito-inner-precommit-v2".toUTF8.toList

section Round

variable {S P : Type} [CurveScalar S] [CurvePoint P S]

/-- The commitments to a nonce pair. -/
def InnerNonces.commitments (nonces : InnerNonces S) : InnerCommitments P :=
  ⟨nonces.holderIndex, nonces.sessionId, nonces.hidingNonce • generator,
    nonces.bindingNonce • generator⟩

/-- Generate nonces for an inner holder. -/
def innerCommit (holderIndex : UInt32) (sessionId : Vector UInt8 32) (rng : Rng S) :
    (InnerNonces S × InnerCommitments P) × Rng S :=
  let (hidingNonce, rng) := rng.random
  let (bindingNonce, rng) := rng.random
  let nonces : InnerNonces S := ⟨holderIndex, sessionId, hidingNonce, bindingNonce⟩
  ((nonces, nonces.commitments), rng)

variable [Sha2]

/-- Round-0 hash commitment to an inner holder's nonce commitments. -/
def innerPrecommit (c : InnerCommitments P) : Vector UInt8 32 :=
  sha512Trunc (innerPrecommitDomain ++ u32ToLeBytes c.holderIndex ++ c.sessionId.toList ++
    CurvePoint.compress c.hidingCommitment ++ CurvePoint.compress c.bindingCommitment)

/-- Verify a revealed commitment against its round-0 precommitment. -/
def verifyInnerPrecommit (precommit : Vector UInt8 32) (revealed : InnerCommitments P) : Bool :=
  Framing.diff (innerPrecommit revealed).toList precommit.toList == 0

/-- One round of the aggregation: the holders seen and the two sums so far. -/
def addInnerCommitment (sessionId : Vector UInt8 32)
    (precommits : List (UInt32 × Vector UInt8 32)) (acc : List UInt32 × P × P)
    (c : InnerCommitments P) : Outcome Error (List UInt32 × P × P) := do
  .refuse (c.holderIndex = 0) .invalidIndex
  .refuse (c.sessionId ≠ sessionId) .sessionMismatch
  .refuse (c.holderIndex ∈ acc.1) (.duplicateIndex c.holderIndex)
  let pre ← .okOr (lookup precommits c.holderIndex) (.precommitMismatch c.holderIndex)
  .refuse (verifyInnerPrecommit pre c = false) (.precommitMismatch c.holderIndex)
  .ok (acc.1 ++ [c.holderIndex], acc.2.1 + c.hidingCommitment, acc.2.2 + c.bindingCommitment)

/-- Aggregate inner nonce commitments into the pair the outer protocol consumes. -/
def aggregateInnerCommitmentPair (sessionId : Vector UInt8 32)
    (precommits : List (UInt32 × Vector UInt8 32))
    (innerCommitments : List (InnerCommitments P)) : Outcome Error (P × P) := do
  .refuse (innerCommitments = []) .emptyContributions
  let acc ← innerCommitments.foldlM (addInnerCommitment sessionId precommits) ([], 0, 0)
  .ok acc.2

/-- Check that the outer package's commitment for the nested position is the pair this inner
round produced. -/
def verifyNestedCommitment (package : SigningPackage P S) (nestedIndex : UInt32)
    (sessionId : Vector UInt8 32) (precommits : List (UInt32 × Vector UInt8 32))
    (innerCommitments : List (InnerCommitments P)) : Outcome Error Unit := do
  let id ← .okOr (Identifier.ofIndex nestedIndex) .invalidIndex
  let entry ← .okOr (package.signingCommitment id) .invalidIndex
  let pair ← aggregateInnerCommitmentPair sessionId precommits innerCommitments
  .refuse (entry.hidingCommitment ≠ pair.1 ∨ entry.bindingCommitment ≠ pair.2)
    .unexpectedCommitment

/-- The entry of the nested position in the package. -/
def nestedEntry (package : SigningPackage P S) (nestedIndex : UInt32) :
    Option (SigningCommitments P) := do
  let id ← Identifier.ofIndex nestedIndex
  package.signingCommitment id

/-- A revealed commitment of the round, and the one its holder committed to. -/
structure Revealed (sessionId : Vector UInt8 32) (precommits : List (UInt32 × Vector UInt8 32))
    (c : InnerCommitments P) : Prop where
  ne_zero : c.holderIndex ≠ 0
  sessionId_eq : c.sessionId = sessionId
  precommit_eq : lookup precommits c.holderIndex = some (innerPrecommit c)

/-! ### The aggregate pair -/

variable {sessionId : Vector UInt8 32} {precommits : List (UInt32 × Vector UInt8 32)}

lemma verifyInnerPrecommit_iff {precommit : Vector UInt8 32} {c : InnerCommitments P} :
    verifyInnerPrecommit precommit c = true ↔ precommit = innerPrecommit c := by
  have hlen : (innerPrecommit c).toList.length = precommit.toList.length := by simp
  rw [verifyInnerPrecommit, beq_iff_eq, Framing.diff_eq_zero_iff hlen, Vector.toList_inj, eq_comm]

lemma addInnerCommitment_eq_ok_iff {acc acc' : List UInt32 × P × P} {c : InnerCommitments P} :
    addInnerCommitment sessionId precommits acc c = .ok acc' ↔
      Revealed sessionId precommits c ∧ c.holderIndex ∉ acc.1 ∧
        acc' = (acc.1 ++ [c.holderIndex], acc.2.1 + c.hidingCommitment,
          acc.2.2 + c.bindingCommitment) := by
  simp only [addInnerCommitment, Outcome.bind_eq_ok_iff, Outcome.refuse_eq_ok_iff,
    Outcome.okOr_eq_ok_iff, Bool.not_eq_false, verifyInnerPrecommit_iff, not_not,
    Outcome.ok.injEq]
  constructor
  · rintro ⟨_, h0, _, hsession, _, hnew, pre, hpre, _, rfl, rfl⟩
    exact ⟨⟨h0, hsession, hpre⟩, hnew, rfl⟩
  · rintro ⟨hrevealed, hnew, rfl⟩
    exact ⟨(), hrevealed.ne_zero, (), hrevealed.sessionId_eq, (), hnew, _,
      hrevealed.precommit_eq, (), rfl, rfl⟩

/-- The loop checks every commitment, keeps the holders apart, and adds up. -/
lemma foldlM_addInnerCommitment_eq_ok_iff {cs : List (InnerCommitments P)}
    {acc acc' : List UInt32 × P × P} :
    cs.foldlM (addInnerCommitment sessionId precommits) acc = .ok acc' ↔
      (∀ c ∈ cs, Revealed sessionId precommits c) ∧
      (∀ c ∈ cs, c.holderIndex ∉ acc.1) ∧ (cs.map InnerCommitments.holderIndex).Nodup ∧
      acc' = (acc.1 ++ cs.map InnerCommitments.holderIndex,
        acc.2.1 + (cs.map InnerCommitments.hidingCommitment).sum,
        acc.2.2 + (cs.map InnerCommitments.bindingCommitment).sum) := by
  induction cs generalizing acc with
  | nil => simp [eq_comm]
  | cons c cs ih =>
    -- the holders seen so far are part of the accumulator, so the induction is over any of them
    rw [List.foldlM_cons, Outcome.bind_eq_ok_iff]
    simp only [addInnerCommitment_eq_ok_iff, ih, List.map_cons, List.nodup_cons,
      List.forall_mem_cons, List.sum_cons]
    constructor
    · rintro ⟨_, ⟨hc, hnew, rfl⟩, hcs, hnews, hnd, rfl⟩
      refine ⟨⟨hc, hcs⟩, ⟨hnew, fun c' hc' hmem => ?_⟩, ⟨?_, hnd⟩, ?_⟩
      · exact hnews c' hc' (List.mem_append_left _ hmem)
      · intro hmem
        obtain ⟨c', hc', heq⟩ := List.mem_map.mp hmem
        exact hnews c' hc' (List.mem_append_right _ (List.mem_singleton.mpr heq))
      · simp [add_assoc]
    · rintro ⟨⟨hc, hcs⟩, ⟨hnew, hnews⟩, ⟨hfresh, hnd⟩, rfl⟩
      refine ⟨_, ⟨hc, hnew, rfl⟩, hcs, fun c' hc' hmem => ?_, hnd, by simp [add_assoc]⟩
      rcases List.mem_append.mp hmem with hmem | hmem
      · exact hnews c' hc' hmem
      · exact hfresh (List.mem_singleton.mp hmem ▸ List.mem_map_of_mem hc')

/-- **The aggregate pair** is the sum of the revealed commitments, and exists exactly when
they are of distinct holders of this round, each the one its holder committed to. -/
theorem aggregateInnerCommitmentPair_eq_ok_iff {cs : List (InnerCommitments P)} {pair : P × P} :
    aggregateInnerCommitmentPair sessionId precommits cs = .ok pair ↔
      cs ≠ [] ∧ (∀ c ∈ cs, Revealed sessionId precommits c) ∧
      (cs.map InnerCommitments.holderIndex).Nodup ∧
      pair = ((cs.map InnerCommitments.hidingCommitment).sum,
        (cs.map InnerCommitments.bindingCommitment).sum) := by
  simp only [aggregateInnerCommitmentPair, Outcome.bind_eq_ok_iff, Outcome.refuse_eq_ok_iff,
    foldlM_addInnerCommitment_eq_ok_iff, List.not_mem_nil, not_false_iff, implies_true,
    true_and, zero_add, Outcome.ok.injEq]
  constructor
  · rintro ⟨_, hne, _, ⟨hrevealed, hnd, rfl⟩, rfl⟩
    exact ⟨hne, hrevealed, hnd, rfl⟩
  · rintro ⟨hne, hrevealed, hnd, rfl⟩
    exact ⟨(), hne, _, ⟨hrevealed, hnd, rfl⟩, rfl⟩

/-- The nested position's commitment is accepted exactly when the package's entry is the
aggregate pair. -/
theorem verifyNestedCommitment_eq_ok_iff {package : SigningPackage P S} {nestedIndex : UInt32}
    {cs : List (InnerCommitments P)} :
    verifyNestedCommitment package nestedIndex sessionId precommits cs = .ok () ↔
      ∃ entry, nestedEntry package nestedIndex = some entry ∧
        aggregateInnerCommitmentPair sessionId precommits cs
          = .ok (entry.hidingCommitment, entry.bindingCommitment) := by
  simp only [verifyNestedCommitment, nestedEntry, Outcome.bind_eq_ok_iff, Outcome.okOr_eq_ok_iff,
    Outcome.refuse_eq_ok_iff, Option.bind_eq_bind, Option.bind_eq_some_iff, not_or, not_not]
  constructor
  · rintro ⟨id, hid, entry, hentry, pair, hpair, hhiding, hbinding⟩
    exact ⟨entry, ⟨id, hid, hentry⟩, by rw [hpair, hhiding, hbinding]⟩
  · rintro ⟨entry, ⟨id, hid, hentry⟩, hpair⟩
    exact ⟨id, hid, entry, hentry, _, hpair, rfl, rfl⟩

end Round

end Frostito
