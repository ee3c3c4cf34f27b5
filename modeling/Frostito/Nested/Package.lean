import Frostito.Error
import Frostito.Lagrange

/-!
# The outer round

The types of `frost-core` that the crate reads, and a ciphersuite as the functions it calls:
the encoding of scalars, the binding factors and the group commitment of a signing package,
and the challenge.  A ciphersuite is a parameter of everything built on it; what its
documentation promises is stated apart, for the results that rely on it.
-/

namespace Frostito

/-- A participant identifier of the outer protocol: a scalar that is not zero. -/
@[ext] structure Identifier (S : Type) [CurveScalar S] where
  val : S
  ne_zero : val ≠ 0

/-- The nonce commitments of one signer. -/
structure SigningCommitments (P : Type) where
  hidingCommitment : P
  bindingCommitment : P
  deriving DecidableEq

variable {P S : Type} [CurveScalar S]

instance : DecidableEq (Identifier S) := fun a b =>
  decidable_of_iff (a.val = b.val) Identifier.ext_iff.symm

/-- `Identifier::new`. -/
def Identifier.new (x : S) : Option (Identifier S) := if h : x ≠ 0 then some ⟨x, h⟩ else none

/-- `u16::try_from` and then `Identifier::try_from`. -/
def Identifier.ofIndex (index : UInt32) : Option (Identifier S) :=
  if index.toNat < 2 ^ 16 then Identifier.new (fromU32 index) else none

lemma Identifier.ofIndex_eq_some_iff {index : UInt32} {id : Identifier S} :
    Identifier.ofIndex index = some id ↔ index.toNat < 2 ^ 16 ∧ id.val = fromU32 index := by
  unfold ofIndex Identifier.new
  constructor
  · intro h
    split at h
    · next hlt =>
      split at h
      · exact ⟨hlt, by rw [← Option.some.inj h]⟩
      · exact absurd h (by simp)
    · exact absurd h (by simp)
  · rintro ⟨hlt, hval⟩
    rw [if_pos hlt, dif_pos (hval ▸ id.ne_zero)]
    exact congrArg some (Identifier.ext hval.symm)

/-- The value of a key in a map. -/
def lookup {K V : Type} [DecidableEq K] (map : List (K × V)) (key : K) : Option V :=
  (map.find? fun p => p.1 = key).map Prod.snd

lemma lookup_eq_some_of_mem {K V : Type} [DecidableEq K] {map : List (K × V)} {p : K × V}
    (hnd : (map.map Prod.fst).Nodup) (hp : p ∈ map) : lookup map p.1 = some p.2 := by
  obtain ⟨q, hq⟩ := Option.isSome_iff_exists.mp
    (List.find?_isSome.mpr ⟨p, hp, by simp⟩ : (map.find? fun q => q.1 = p.1).isSome)
  have hkey : q.1 = p.1 := by simpa using List.find?_some hq
  have hqp : q = p := List.inj_on_of_nodup_map hnd (List.mem_of_find?_eq_some hq) hp hkey
  rw [lookup, hq, Option.map_some, hqp]

lemma lookup_map_self {K V : Type} [DecidableEq K] {l : List K} (hnd : l.Nodup) (f : K → V) {k : K}
    (hk : k ∈ l) : lookup (l.map fun k => (k, f k)) k = some (f k) := by
  have hkeys : (l.map fun k => (k, f k)).map Prod.fst = l := by
    rw [List.map_map]
    exact List.map_id' l
  exact lookup_eq_some_of_mem (p := (k, f k)) (hkeys.symm ▸ hnd)
    (List.mem_map_of_mem (f := fun k => (k, f k)) hk)

variable (P S) in
/-- The outer signing package: the message and the commitments of all signers. -/
structure SigningPackage where
  signingCommitments : List (Identifier S × SigningCommitments P)
  nodup : (signingCommitments.map Prod.fst).Nodup
  message : Bytes

namespace SigningPackage

/-- The signers of the package. -/
def identifiers (package : SigningPackage P S) : List (Identifier S) :=
  package.signingCommitments.map Prod.fst

/-- The commitments of a signer. -/
def signingCommitment (package : SigningPackage P S) (id : Identifier S) :
    Option (SigningCommitments P) :=
  lookup package.signingCommitments id

/-- The Lagrange coefficient of the signer `x` over the identifiers of the package, as the
outer protocol computes it. -/
def lagrangeCoefficient (package : SigningPackage P S) (x : S) : S :=
  ((package.identifiers.filter fun id => id.val ≠ x).map fun id => id.val / (id.val - x)).prod

lemma nodup_map_val (package : SigningPackage P S) :
    (package.identifiers.map Identifier.val).Nodup :=
  package.nodup.map fun _ _ h => Identifier.ext h

/-- It is the interpolation weight of the signer among the identifiers. -/
lemma lagrangeCoefficient_eq (package : SigningPackage P S) (x : S) :
    package.lagrangeCoefficient x
      = Interpolation.weight (package.identifiers.map Identifier.val).toFinset x := by
  have hnd : ((package.identifiers.map Identifier.val).filter (· ≠ x)).Nodup :=
    package.nodup_map_val.filter _
  have herase : (package.identifiers.map Identifier.val).toFinset.erase x
      = ((package.identifiers.map Identifier.val).filter (· ≠ x)).toFinset := by
    ext y
    simp [and_comm]
  rw [Interpolation.weight, herase, List.prod_toFinset _ hnd, lagrangeCoefficient,
    List.filter_map, List.map_map]
  rfl

end SigningPackage

variable (P S) in
/-- A ciphersuite, as the crate calls it. -/
structure Ciphersuite where
  /-- `Field::serialize`. -/
  serialize : S → Bytes
  /-- `Field::deserialize`, of bytes that may not even have the right length. -/
  deserialize : Bytes → Option S
  /-- `compute_binding_factor_list` of a package, a verifying key and a prefix. -/
  bindingFactorList : SigningPackage P S → P → Bytes → Option (List (Identifier S × S))
  /-- `compute_group_commitment` of a package and its binding factors. -/
  groupCommitment : SigningPackage P S → List (Identifier S × S) → Option P
  /-- `Ciphersuite::challenge` of a group commitment, a verifying key and a message. -/
  challenge : P → P → Bytes → Option S

/-- Scalars are encoded as the 32 bytes of their canonical representative, in one of the two
orders. -/
structure Ciphersuite.EncodesScalars (suite : Ciphersuite P S) : Prop where
  card_le : Nat.card S ≤ 256 ^ 32
  serialize_eq : (∀ n < Nat.card S, suite.serialize (n : S) = Framing.leBytes 32 n) ∨
    ∀ n < Nat.card S, suite.serialize (n : S) = Framing.beBytes 32 n

/-- What else the documentation promises: scalars survive their encoding, and the binding
factors are those of the signers of the package. -/
structure Ciphersuite.Lawful (suite : Ciphersuite P S) : Prop extends
    suite.EncodesScalars where
  deserialize_serialize : ∀ x, suite.deserialize (suite.serialize x) = some x
  exists_bindingFactor : ∀ {package verifyingKey additionalPrefix factors},
    suite.bindingFactorList package verifyingKey additionalPrefix = some factors →
    ∀ id ∈ package.identifiers, ∃ rho, lookup factors id = some rho

end Frostito
