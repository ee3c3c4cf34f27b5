import Frostito.DealerSet
import Frostito.Lib.Calls
import Frostito.Lib.Keyed
import Frostito.Reshare.Dealer

/-!
# The aggregator of resharing

A new custodian collects one verified sub-share from every dealer of the agreed set and
combines them, and the commitments they were verified against, with the Lagrange
coefficients of the set.  Here the commitment comes with the sub-share: what an aggregator
holds is described by the pairs of a commitment and a share on it that it accepted, and
what it computes from them is stated for any such pairs.
-/

namespace Frostito.Reshare

/-- The reshared polynomial in the exponent: `F' = Σ_{i∈S} λ_i^S · C_i`. -/
structure SharePolynomial (P : Type) where
  coefficients : List P
deriving DecidableEq

/-- Aggregator collects and combines sub-shares from a fixed dealer set. -/
structure Aggregator (P S : Type) where
  playerIndex : UInt32
  /-- Agreed dealer set, sorted ascending, no duplicates. -/
  dealerSet : List UInt32
  /-- Verified sub-shares from dealers in `dealerSet`. -/
  subshares : List (UInt32 × S)
  /-- Dealer commitments (for polynomial / group key derivation). -/
  commitments : List (DealerCommitment P)

variable {S P : Type}

namespace SharePolynomial

/-- Threshold (degree + 1) of the reshared polynomial. -/
def threshold (p : SharePolynomial P) : UInt32 := UInt32.ofNat p.coefficients.length

/-- Group public key `Y = F'(0)`, `&self.coefficients[0]`. -/
def groupKey (p : SharePolynomial P) : Outcome Error P := .expectSome p.coefficients.head?

variable [CurveScalar S] [CurvePoint P S]

/-- Evaluate `F'(index)` with Horner's method. -/
def evaluateAt (p : SharePolynomial P) (index : UInt32) : Outcome Error P := do
  .refuse (index = 0) .invalidIndex
  .ok (Horner.horner (fromU32 index : S) p.coefficients)

/-- Verifying share of player `j`: `Y_j = F'(j) = g^{s'_j}`. -/
def verifyingShare (p : SharePolynomial P) (playerIndex : UInt32) : Outcome Error P :=
  .expect (p.evaluateAt playerIndex)

/-- Check that `share` is player `j`'s share on this polynomial. -/
def verifyShare (p : SharePolynomial P) (playerIndex : UInt32) (share : S) :
    Outcome Error Bool :=
  if playerIndex = 0 then .ok false else do
    let expected ← .expect (p.evaluateAt playerIndex)
    .ok (decide (share • (generator : P) = expected))

/-- A share is accepted exactly when it is the player's share of the polynomial. -/
lemma verifyShare_eq {p : SharePolynomial P} {j : UInt32} (hj : j ≠ 0) (share : S) :
    p.verifyShare j share =
      .ok (decide (Sharing.IsShare (generator : P) p.coefficients (fromU32 j) share)) := by
  rw [verifyShare, if_neg hj, evaluateAt, Outcome.refuse_of_neg hj]
  rfl

end SharePolynomial

namespace Aggregator

/-- Create an aggregator for `player_index` that will combine sub-shares from exactly the
dealers in `dealer_set`. -/
def new (playerIndex : UInt32) (dealerSet : List UInt32) : Outcome Error (Aggregator P S) := do
  let sorted ← sortedDealerSet playerIndex dealerSet
  .ok ⟨playerIndex, sorted, [], []⟩

/-- True once a verified sub-share has arrived from every dealer in the set. -/
def isComplete (a : Aggregator P S) : Bool := a.subshares.length == a.dealerSet.length

/-- Dealers in the set whose sub-share has not arrived yet. -/
def missingDealers (a : Aggregator P S) : List UInt32 :=
  a.dealerSet.filter fun d => !a.subshares.any fun p => p.1 == d

/-- All dealers must have committed to the same new threshold. -/
def checkThreshold (a : Aggregator P S) (commitment : DealerCommitment P) :
    Outcome Error Unit :=
  match a.commitments.head? with
  | none => .ok ()
  | some first =>
    .refuse (first.threshold ≠ commitment.threshold)
      (.thresholdMismatch first.threshold commitment.threshold)

variable [CurveScalar S] [CurvePoint P S]

/-- The checks of `add_subshare`, and on success the reply and the state with the pair
added. -/
def recordSubshare (a : Aggregator P S) (subshare : SubShare S)
    (commitment : DealerCommitment P) : Outcome Error (Bool × Aggregator P S) := do
  .refuse (subshare.playerIndex ≠ a.playerIndex) .invalidIndex
  .refuse (subshare.dealerIndex ≠ commitment.dealerIndex) .invalidIndex
  .refuse (subshare.dealerIndex = 0) .invalidIndex
  .refuse (subshare.dealerIndex ∉ a.dealerSet) (.unexpectedDealer subshare.dealerIndex)
  a.checkThreshold commitment
  -- a dealer that was heard is not verified again
  if subshare.dealerIndex ∈ a.subshares.map Prod.fst then .ok (false, a) else
  .refuse (commitment.verifySubshare a.playerIndex subshare.value = false) .invalidResponse
  .ok (true, { a with
    subshares := a.subshares ++ [(subshare.dealerIndex, subshare.value)]
    commitments := a.commitments ++ [commitment] })

/-- Add a sub-share with verification. -/
def addSubshare (a : Aggregator P S) (subshare : SubShare S) (commitment : DealerCommitment P) :
    Aggregator P S × Outcome Error Bool :=
  Outcome.runIn a (a.recordSubshare subshare commitment)

/-- The loop of `add_subshares_batch`; a refused sub-share is skipped. -/
def addPairs (a : Aggregator P S) :
    List (SubShare S × DealerCommitment P) → ℕ → Aggregator P S × Outcome Error ℕ
  | [], added => (a, .ok added)
  | (subshare, commitment) :: pairs, added =>
    let r := a.addSubshare subshare commitment
    match r.2 with
    | .ok true => r.1.addPairs pairs (added + 1)
    | .ok false => r.1.addPairs pairs added
    | .err _ => r.1.addPairs pairs added
    | .panic => (r.1, .panic)

/-- Batch add sub-shares: adds only valid ones from dealers in the set, and returns the count
of added. -/
def addSubsharesBatch (a : Aggregator P S) (subshares : List (SubShare S))
    (commitments : List (DealerCommitment P)) : Aggregator P S × Outcome Error ℕ :=
  a.addPairs (subshares.zip commitments) 0

/-- Lagrange coefficients over the agreed dealer set, in `dealer_set` order. -/
def lagrange (a : Aggregator P S) : Outcome Error (List S) := do
  .refuse (a.isComplete = false)
    (.insufficientContributions a.subshares.length a.dealerSet.length)
  computeLagrangeCoefficients a.dealerSet

/-- The verified sub-share of a dealer. -/
def subshareOf (a : Aggregator P S) (dealerIndex : UInt32) : Outcome Error S :=
  .expectSome ((a.subshares.find? fun s => s.1 = dealerIndex).map Prod.snd)

/-- The commitment of a dealer. -/
def commitmentOf (a : Aggregator P S) (dealerIndex : UInt32) :
    Outcome Error (DealerCommitment P) :=
  .expectSome (a.commitments.find? fun c => c.dealerIndex = dealerIndex)

/-- Aggregate sub-shares into the new secret share: `s'_j = Σ_{i∈S} λ_i^S · σ_{i,j}`. -/
def aggregate (a : Aggregator P S) : Outcome Error S := do
  let lagrange ← a.lagrange
  (a.dealerSet.zip lagrange).foldlM (fun newShare p => do
    return newShare + p.2 * (← a.subshareOf p.1)) 0

/-- The loop `coefficients[k] = coefficients[k] + c·λ` over one commitment; a commitment
longer than the accumulator indexes out of bounds. -/
def accumulate (lambda : S) : List P → List P → Outcome Error (List P)
  | acc, [] => .ok acc
  | [], _ :: _ => .panic
  | a :: acc, c :: cs => do
    let rest ← accumulate lambda acc cs
    .ok ((a + lambda • c) :: rest)

/-- The reshared polynomial in the exponent. -/
def polynomial (a : Aggregator P S) : Outcome Error (SharePolynomial P) := do
  let lagrange ← a.lagrange
  let first ← .expectSome a.commitments.head?
  let coefficients ← (a.dealerSet.zip lagrange).foldlM (fun coefficients p => do
    let commitment ← a.commitmentOf p.1
    accumulate p.2 coefficients commitment.coefficients)
    (List.replicate first.threshold.toNat 0)
  .ok ⟨coefficients⟩

/-- Derive group public key from dealer commitments: `Y = F'(0)`. -/
def deriveGroupKey (a : Aggregator P S) : Outcome Error P := do
  let polynomial ← a.polynomial
  polynomial.groupKey

/-- Finalize reshare: derive the polynomial, verify the group-key invariant, aggregate the
share, and verify the share lies on the polynomial. -/
def finalize (a : Aggregator P S) (expectedGroupKey : P) :
    Outcome Error (S × SharePolynomial P) := do
  let polynomial ← a.polynomial
  let groupKey ← polynomial.groupKey
  .refuse (groupKey ≠ expectedGroupKey) .invalidCommitment
  let share ← a.aggregate
  let valid ← polynomial.verifyShare a.playerIndex share
  .refuse (valid = false) .invalidResponse
  .ok (share, polynomial)

omit [CurveScalar S] [CurvePoint P S] in
lemma new_eq_ok_iff {j : UInt32} {dealerSet : List UInt32} {a : Aggregator P S} :
    new j dealerSet = .ok a ↔ j ≠ 0 ∧ ValidIndices dealerSet ∧
      a = ⟨j, dealerSet.insertionSort (· ≤ ·), [], []⟩ := by
  simp only [new, Outcome.bind_eq_ok_iff, sortedDealerSet_eq_ok_iff, Outcome.ok.injEq]
  constructor
  · rintro ⟨_, ⟨hj, hvalid, rfl⟩, rfl⟩
    exact ⟨hj, hvalid, rfl⟩
  · rintro ⟨hj, hvalid, rfl⟩
    exact ⟨_, ⟨hj, hvalid, rfl⟩, rfl⟩

omit [CurveScalar S] [CurvePoint P S] in
lemma checkThreshold_eq_ok_iff {a : Aggregator P S} {c : DealerCommitment P} :
    a.checkThreshold c = .ok () ↔
      ∀ first, a.commitments.head? = some first → first.threshold = c.threshold := by
  unfold checkThreshold
  split
  · next h => simp [h]
  · next first h => simp [h]

/-! ### What is added -/

/-- What a sub-share and its commitment have to satisfy to be added. -/
structure Accepts (a : Aggregator P S) (s : SubShare S) (c : DealerCommitment P) : Prop where
  playerIndex_eq : s.playerIndex = a.playerIndex
  dealerIndex_eq : s.dealerIndex = c.dealerIndex
  ne_zero : c.dealerIndex ≠ 0
  mem : c.dealerIndex ∈ a.dealerSet
  threshold : a.checkThreshold c = .ok ()
  notMem : c.dealerIndex ∉ a.subshares.map Prod.fst
  verify : c.verifySubshare a.playerIndex s.value = true

/-- The aggregator with a sub-share and its commitment added. -/
def add (a : Aggregator P S) (s : SubShare S) (c : DealerCommitment P) : Aggregator P S :=
  { a with
    subshares := a.subshares ++ [(c.dealerIndex, s.value)]
    commitments := a.commitments ++ [c] }

variable {a : Aggregator P S} {s : SubShare S} {c : DealerCommitment P}

/-- A sub-share that passes every check is added. -/
lemma Accepts.addSubshare_eq (h : a.Accepts s c) : a.addSubshare s c = (a.add s c, .ok true) := by
  have hrecord : a.recordSubshare s c = .ok (true, a.add s c) := by
    rw [recordSubshare, Outcome.refuse_of_neg (not_not.mpr h.playerIndex_eq), Outcome.ok_bind,
      Outcome.refuse_of_neg (not_not.mpr h.dealerIndex_eq), Outcome.ok_bind, h.dealerIndex_eq,
      Outcome.refuse_of_neg h.ne_zero, Outcome.ok_bind,
      Outcome.refuse_of_neg (not_not.mpr h.mem), Outcome.ok_bind, h.threshold, Outcome.ok_bind,
      if_neg h.notMem, Outcome.refuse_of_neg (by simp [h.verify]), Outcome.ok_bind]
    rfl
  rw [addSubshare, hrecord]
  rfl

/-- A sub-share is added when it is the player's own, of a dealer of the set that has not
delivered yet, on a commitment of the common threshold, and verifies; anything else leaves
the aggregator as it was. -/
theorem addSubshare_cases (a : Aggregator P S) (s : SubShare S) (c : DealerCommitment P) :
    (a.Accepts s c ∧ a.addSubshare s c = (a.add s c, .ok true)) ∨
      ((a.addSubshare s c).1 = a ∧ (a.addSubshare s c).2 ≠ .ok true) := by
  rcases Outcome.runIn_cases a (a.recordSubshare s c) with ⟨b, a', hok, hrun⟩ | ⟨-, hsame, hne⟩
  · have hrecord := hok
    simp only [recordSubshare, Outcome.bind_eq_ok_iff, Outcome.refuse_eq_ok_iff, not_not] at hok
    obtain ⟨_, hplayer, _, hdealer, _, h0, _, hset, _, hthr, hadd⟩ := hok
    rw [hdealer] at h0 hset hadd
    split at hadd
    · rw [addSubshare, hrun, ← (Prod.mk.inj (Outcome.ok.inj hadd)).1,
        ← (Prod.mk.inj (Outcome.ok.inj hadd)).2]
      exact .inr ⟨rfl, by simp⟩
    · next hnew =>
      simp only [Outcome.bind_eq_ok_iff, Outcome.refuse_eq_ok_iff, Bool.not_eq_false] at hadd
      obtain ⟨_, hverify, -⟩ := hadd
      have hacc : a.Accepts s c := ⟨hplayer, hdealer, h0, hset, hthr, hnew, hverify⟩
      exact .inl ⟨hacc, hacc.addSubshare_eq⟩
  · exact .inr ⟨hsame, hne true⟩

/-- Only `Ok(true)` says that the sub-share was added. -/
lemma addSubshare_eq_ok_true_iff : (a.addSubshare s c).2 = .ok true ↔ a.Accepts s c := by
  refine ⟨fun h => ?_, fun h => by rw [h.addSubshare_eq]⟩
  rcases a.addSubshare_cases s c with ⟨hacc, -⟩ | ⟨-, hne⟩
  · exact hacc
  · exact absurd h hne

/-- What was not added left no trace. -/
lemma addSubshare_unchanged (h : (a.addSubshare s c).2 ≠ .ok true) :
    (a.addSubshare s c).1 = a := by
  rcases a.addSubshare_cases s c with ⟨-, hadd⟩ | ⟨hsame, -⟩
  · exact absurd (congrArg Prod.snd hadd) h
  · exact hsame

end Aggregator

variable [CurveScalar S] [CurvePoint P S]

/-! ### What an aggregator holds -/

/-- The aggregator holds the listed pairs of a commitment and a share on it. -/
structure Holds (a : Aggregator P S) (received : List (DealerCommitment P × S)) : Prop where
  subshares_eq : a.subshares = received.map fun r => (r.1.dealerIndex, r.2)
  commitments_eq : a.commitments = received.map Prod.fst
  share : ∀ r ∈ received,
    Sharing.IsShare (generator : P) r.1.coefficients (fromU32 a.playerIndex) r.2
  nodup : (received.map fun r => r.1.dealerIndex).Nodup
  mem : ∀ r ∈ received, r.1.dealerIndex ∈ a.dealerSet
  threshold : ∀ r ∈ received, ∀ r' ∈ received, r.1.threshold = r'.1.threshold

/-- What every aggregator satisfies, whatever was delivered. -/
structure Inv (j : UInt32) (dealerSet : List UInt32) (a : Aggregator P S) : Prop where
  playerIndex_eq : a.playerIndex = j
  player_ne_zero : j ≠ 0
  valid : ValidIndices dealerSet
  dealerSet_eq : a.dealerSet = dealerSet.insertionSort (· ≤ ·)
  holds : ∃ received, Holds a received

variable {j : UInt32} {dealerSet : List UInt32} {a : Aggregator P S}

lemma inv_new (h : Aggregator.new j dealerSet = .ok a) : Inv j dealerSet a := by
  obtain ⟨hj, hvalid, rfl⟩ := Aggregator.new_eq_ok_iff.mp h
  exact ⟨rfl, hj, hvalid, rfl, [], rfl, rfl, by simp, .nil, by simp, by simp⟩

/-- Adding a sub-share keeps the invariant, whatever it returns. -/
lemma Inv.addSubshare (h : Inv j dealerSet a) (s : SubShare S) (c : DealerCommitment P) :
    Inv j dealerSet (a.addSubshare s c).1 := by
  rcases a.addSubshare_cases s c with ⟨hacc, hadd⟩ | ⟨hsame, -⟩
  · obtain ⟨received, hr⟩ := h.holds
    have hshare := (DealerCommitment.verifySubshare_iff.mp hacc.verify).2
    -- the check compares with the first commitment, and those before have its threshold
    have hthr' : ∀ r ∈ received, r.1.threshold = c.threshold := by
      intro r hrm
      obtain ⟨r₀, rest, rfl⟩ := List.exists_cons_of_ne_nil (List.ne_nil_of_mem hrm)
      rw [hr.threshold r hrm r₀ List.mem_cons_self]
      refine Aggregator.checkThreshold_eq_ok_iff.mp hacc.threshold r₀.1 ?_
      rw [hr.commitments_eq, List.map_cons, List.head?_cons]
    rw [hadd]
    refine ⟨h.playerIndex_eq, h.player_ne_zero, h.valid, h.dealerSet_eq,
      received ++ [(c, s.value)], ?_, ?_, ?_, ?_, ?_, ?_⟩
    · simp [Aggregator.add, hr.subshares_eq]
    · simp [Aggregator.add, hr.commitments_eq]
    · exact List.forall_mem_append.mpr ⟨hr.share, List.forall_mem_singleton.mpr hshare⟩
    · have hnew := hacc.notMem
      rw [hr.subshares_eq, List.map_map] at hnew
      exact Keyed.nodup_map_append_singleton hr.nodup hnew
    · exact List.forall_mem_append.mpr ⟨hr.mem, List.forall_mem_singleton.mpr hacc.mem⟩
    · have hboth : ∀ q ∈ received ++ [(c, s.value)], q.1.threshold = c.threshold :=
        List.forall_mem_append.mpr ⟨hthr', List.forall_mem_singleton.mpr rfl⟩
      intro r hrm r' hrm'
      rw [hboth r hrm, hboth r' hrm']
  · rwa [hsame]

/-- One call: a sub-share and the commitment that came with it. -/
def deliver (a : Aggregator P S) (delivery : SubShare S × DealerCommitment P) :
    Aggregator P S × Outcome Error Bool :=
  a.addSubshare delivery.1 delivery.2

/-- Every run of deliveries keeps the invariant. -/
theorem inv_run (h : Inv j dealerSet a) (deliveries : List (SubShare S × DealerCommitment P)) :
    Inv j dealerSet (Calls.run deliver a deliveries) :=
  Calls.run_invariant h fun delivery _ _ hs => hs.addSubshare delivery.1 delivery.2

/-! ### Whom an aggregator heard -/

section Heard

variable {received : List (DealerCommitment P × S)}

lemma Holds.indices_eq (hr : Holds a received) :
    a.subshares.map Prod.fst = received.map fun r => r.1.dealerIndex := by
  rw [hr.subshares_eq, List.map_map]
  rfl

lemma Holds.nodup_indices (hr : Holds a received) : (a.subshares.map Prod.fst).Nodup :=
  hr.indices_eq ▸ hr.nodup

lemma Holds.indices_subset (hr : Holds a received) : a.subshares.map Prod.fst ⊆ a.dealerSet := by
  rw [hr.indices_eq]
  intro i hi
  obtain ⟨r, hrm, rfl⟩ := List.mem_map.mp hi
  exact hr.mem r hrm

end Heard

/-! ### Complete aggregators -/

lemma Inv.perm_dealerSet (h : Inv j dealerSet a) : a.dealerSet.Perm dealerSet := by
  rw [h.dealerSet_eq]
  exact List.perm_insertionSort _ _

lemma Inv.validIndices (h : Inv j dealerSet a) : ValidIndices a.dealerSet := by
  obtain ⟨hne, h0, hnd⟩ := h.valid
  refine ⟨fun hnil => hne ?_, fun hmem => h0 (h.perm_dealerSet.mem_iff.mp hmem),
    h.perm_dealerSet.nodup_iff.mpr hnd⟩
  exact (hnil ▸ h.perm_dealerSet).nil_eq.symm

/-- A complete aggregator has heard from every dealer. -/
lemma Holds.perm_dealerSet {received : List (DealerCommitment P × S)} (hr : Holds a received)
    (hcomplete : a.subshares.length = a.dealerSet.length) :
    (received.map fun r => r.1.dealerIndex).Perm a.dealerSet := by
  rw [← hr.indices_eq]
  refine (List.subperm_of_subset hr.nodup_indices hr.indices_subset).perm_of_length_le ?_
  rw [List.length_map, hcomplete]

/-- What is found for a dealer is what was received from it. -/
lemma Holds.find {received : List (DealerCommitment P × S)} (hr : Holds a received)
    {r : DealerCommitment P × S} (hrm : r ∈ received) :
    a.subshareOf r.1.dealerIndex = .ok r.2 ∧ a.commitmentOf r.1.dealerIndex = .ok r.1 := by
  have hfind : received.find? (fun q => q.1.dealerIndex = r.1.dealerIndex) = some r :=
    (Keyed.find?_eq_some_iff hr.nodup).mpr ⟨hrm, rfl⟩
  constructor
  · rw [Aggregator.subshareOf, hr.subshares_eq, List.find?_map]
    change Outcome.expectSome (((received.find? fun q =>
      q.1.dealerIndex = r.1.dealerIndex).map _).map _) = _
    rw [hfind]
    rfl
  · rw [Aggregator.commitmentOf, hr.commitments_eq, List.find?_map]
    change Outcome.expectSome ((received.find? fun q =>
      q.1.dealerIndex = r.1.dealerIndex).map _) = _
    rw [hfind]
    rfl

end Frostito.Reshare
