import Frostito.Nested.Package
import Frostito.Reference.Backend

/-!
# A ciphersuite to compute with

FROST over the reference backend, with SHA-512 for its hashes, a tag of its own in front of
each, and the identity refused wherever a point is encoded.
-/

namespace Frostito.Reference

/-- The tag in front of everything that is hashed. -/
def contextString : Bytes := "FROST-reference-SHA512-v1".toUTF8.toList

/-- The SHA-512 digest of a message under a tag. -/
def hashToArray (tag m : Bytes) : Bytes := (sha512 (contextString ++ tag ++ m)).toList

/-- The scalar that the digest spells. -/
def hashToScalar (tag m : Bytes) : Residue :=
  CurveScalar.fromBytesWide (sha512 (contextString ++ tag ++ m))

/-- The encoding of a point other than the identity. -/
def serializeElement (p : Residue) : Option Bytes :=
  if p = 0 then none else some (CurvePoint.compress p)

/-- The encoding of one signer's commitments, behind its identifier. -/
def encodeCommitments (entry : Identifier Residue × SigningCommitments Residue) :
    Option Bytes := do
  let hidingBytes ← serializeElement entry.2.hidingCommitment
  let bindingBytes ← serializeElement entry.2.bindingCommitment
  some ((CurveScalar.toBytes entry.1.val).toList ++ hidingBytes ++ bindingBytes)

/-- What the binding factors of a package hash, before the identifier. -/
def bindingFactorPrefix (package : SigningPackage Residue Residue) (verifyingKey : Residue)
    (additionalPrefix : Bytes) : Option Bytes := do
  let key ← serializeElement verifyingKey
  let commitments ← package.signingCommitments.mapM encodeCommitments
  some (key ++ hashToArray "msg".toUTF8.toList package.message ++
    hashToArray "com".toUTF8.toList commitments.flatten ++ additionalPrefix)

/-- One round of the sum `Σ (D_i + ρ_i · E_i)`. -/
def addCommitment (factors : List (Identifier Residue × Residue)) (r : Residue)
    (entry : Identifier Residue × SigningCommitments Residue) : Option Residue :=
  if entry.2.hidingCommitment = 0 ∨ entry.2.bindingCommitment = 0 then
    none
  else do
    let rho ← lookup factors entry.1
    some (r + entry.2.hidingCommitment + rho • entry.2.bindingCommitment)

/-- FROST over the reference backend. -/
def suite : Ciphersuite Residue Residue where
  serialize x := (CurveScalar.toBytes x).toList
  deserialize := Residue.ofBytes
  bindingFactorList package verifyingKey additionalPrefix := do
    let input ← bindingFactorPrefix package verifyingKey additionalPrefix
    some (package.identifiers.map fun id =>
      (id, hashToScalar "rho".toUTF8.toList (input ++ (CurveScalar.toBytes id.val).toList)))
  groupCommitment package factors :=
    package.signingCommitments.foldlM (addCommitment factors) 0
  challenge r verifyingKey message := do
    let rBytes ← serializeElement r
    let keyBytes ← serializeElement verifyingKey
    some (hashToScalar "chal".toUTF8.toList (rBytes ++ keyBytes ++ message))

lemma serialize_eq (x : Residue) : suite.serialize x = (Residue.toBytes x).toList := rfl

lemma suite_encodesScalars : suite.EncodesScalars where
  card_le := by
    rw [Nat.card_zmod]
    exact order_lt.le
  serialize_eq := by
    refine .inl fun n hn => ?_
    rw [Nat.card_zmod] at hn
    rw [Reference.serialize_eq, Residue.toList_toBytes, ZMod.val_natCast_of_lt hn]

lemma deserialize_serialize (x : Residue) : suite.deserialize (suite.serialize x) = some x := by
  have hdeserialize : suite.deserialize = Residue.ofBytes := rfl
  rw [hdeserialize, serialize_eq, Residue.ofBytes_toBytes]

/-- Every signer of a package has a binding factor. -/
lemma exists_bindingFactor {package : SigningPackage Residue Residue} {verifyingKey : Residue}
    {additionalPrefix : Bytes} {factors : List (Identifier Residue × Residue)}
    (h : suite.bindingFactorList package verifyingKey additionalPrefix = some factors)
    {id : Identifier Residue} (hid : id ∈ package.identifiers) :
    ∃ rho, lookup factors id = some rho := by
  obtain ⟨input, -, hmap⟩ := Option.bind_eq_some_iff.mp h
  rw [← Option.some.inj hmap]
  exact ⟨_, lookup_map_self package.nodup _ hid⟩

lemma suite_lawful : suite.Lawful :=
  ⟨suite_encodesScalars, deserialize_serialize, exists_bindingFactor⟩

/-! ### The package of two signers -/

/-- The identifier of signer 1. -/
def firstIdentifier : Identifier Residue := ⟨1, by decide⟩

/-- The identifier of signer 2. -/
def secondIdentifier : Identifier Residue := ⟨((2 : ℕ) : Residue), by decide⟩

/-- The commitments of two signers. -/
def outerCommitments (second : Identifier Residue) :
    List (Identifier Residue × SigningCommitments Residue) :=
  [(firstIdentifier, ⟨((13 : ℕ) : Residue), ((24 : ℕ) : Residue)⟩),
    (second, ⟨((2 : ℕ) : Residue), ((3 : ℕ) : Residue)⟩)]

/-- The outer package of the signers 1 and 2. -/
def outerPackage : SigningPackage Residue Residue where
  signingCommitments := outerCommitments secondIdentifier
  nodup := by decide
  message := "m".toUTF8.toList

end Frostito.Reference
