import Frostito.DealerSet
import Frostito.Dkg.Echo
import Frostito.Lib.Keyed

/-!
# The aggregator of key generation

A player collects one verified sub-share from every dealer of the agreed set and sums them.
Deliveries come in any order, with duplicates, with sub-shares for others and with invalid
ones among them; each is checked against the commitment its dealer has in the agreed set.
Whatever was delivered, the aggregator holds one valid sub-share for each dealer that
delivered any, and nothing else.
-/

namespace Frostito.Dkg

/-- DKG aggregator: collects sub-shares from a fixed dealer set, sums directly. -/
structure Aggregator (P S : Type) where
  playerIndex : UInt32
  /-- Agreed dealer set, sorted ascending, no duplicates. -/
  dealerSet : List UInt32
  /-- Verified sub-share values keyed by dealer index. -/
  subshares : List (UInt32 × S)
  /-- Constant-term commitments for group key derivation. -/
  constantCommitments : List P

variable {S P : Type}

namespace Aggregator

/-- Create an aggregator for `player_index` summing exactly `dealer_set`. -/
def new (playerIndex : UInt32) (dealerSet : List UInt32) : Outcome Error (Aggregator P S) := do
  let sorted ← sortedDealerSet playerIndex dealerSet
  .ok ⟨playerIndex, sorted, [], []⟩

/-- Aggregator over all dealers `1..=n`. -/
def allDealers (playerIndex n : UInt32) : Outcome Error (Aggregator P S) :=
  new playerIndex (participants n)

/-- Aggregator whose dealer set is the one the echo round agreed on. -/
def fromAgreed (playerIndex : UInt32) (agreed : AgreedRound1 P) :
    Outcome Error (Aggregator P S) :=
  new playerIndex agreed.dealerSet

/-- True once a verified sub-share has arrived from every dealer in the set. -/
def isComplete (a : Aggregator P S) : Bool := a.subshares.length == a.dealerSet.length

/-- Dealers in the set whose sub-share has not arrived yet. -/
def missingDealers (a : Aggregator P S) : List UInt32 :=
  a.dealerSet.filter fun d => !a.subshares.any fun p => p.1 == d

variable [CurveScalar S] [CurvePoint P S]

/-- The checks of `add_subshare`: whether the sub-share is to be added. -/
def checkSubshare (a : Aggregator P S) (subshare : SubShare S)
    (commitment : DealerCommitment P) : Outcome Error Bool := do
  .refuse (subshare.playerIndex ≠ a.playerIndex) .invalidIndex
  .refuse (subshare.dealerIndex ≠ commitment.dealerIndex) .invalidIndex
  .refuse (subshare.dealerIndex = 0) .invalidIndex
  .refuse (subshare.dealerIndex ∉ a.dealerSet) (.unexpectedDealer subshare.dealerIndex)
  if subshare.dealerIndex ∈ a.subshares.map Prod.fst then .ok false else
  .refuse (commitment.verifySubshare a.playerIndex subshare.value = false)
    (.invalidSubShare subshare.dealerIndex)
  .ok true

/-- Add a verified sub-share.  The value is stored before the constant term is asked for,
so a commitment without coefficients panics with the value already in. -/
def addSubshare (a : Aggregator P S) (subshare : SubShare S) (commitment : DealerCommitment P) :
    Aggregator P S × Outcome Error Bool :=
  match a.checkSubshare subshare commitment with
  | .ok true =>
    let a := { a with subshares := a.subshares ++ [(subshare.dealerIndex, subshare.value)] }
    Outcome.runIn a do
      let c0 ← commitment.shareCommitment
      .ok (true, { a with constantCommitments := a.constantCommitments ++ [c0] })
  | result => (a, result)

/-- Errors until every dealer in the set has delivered. -/
def requireComplete (a : Aggregator P S) : Outcome Error Unit :=
  .refuse (a.isComplete = false)
    (.insufficientContributions a.subshares.length a.dealerSet.length)

/-- Derive group public key: `Y = sum(C_{i,0})` over the dealer set. -/
def deriveGroupKey (a : Aggregator P S) : Outcome Error P := do
  a.requireComplete
  .ok (a.constantCommitments.foldl (fun key c0 => key + c0) 0)

/-- Aggregate final share: `s_j = sum_{i in S} f_i(j)`. -/
def finalize (a : Aggregator P S) : Outcome Error S := do
  a.requireComplete
  .ok (a.subshares.foldl (fun share p => share + p.2) 0)

/-- `add_subshare(s, agreed.commitment(s.dealer_index)?)`: a sub-share is checked against
the commitment its dealer has in the agreed set. -/
def deliver (agreed : AgreedRound1 P) (a : Aggregator P S) (subshare : SubShare S) :
    Aggregator P S × Outcome Error Bool :=
  match agreed.commitment subshare.dealerIndex with
  | .ok commitment => a.addSubshare subshare commitment
  | .err e => (a, .err e)
  | .panic => (a, .panic)

omit [CurveScalar S] [CurvePoint P S] in
lemma new_eq_ok_iff {j : UInt32} {dealerSet : List UInt32} {a : Aggregator P S} :
    new j dealerSet = .ok a ↔ j ≠ 0 ∧ ValidIndices dealerSet ∧
      a = ⟨j, dealerSet.insertionSort (· ≤ ·), [], []⟩ := by
  simp only [new, Outcome.bind_eq_ok_iff, sortedDealerSet_eq_ok_iff, Outcome.ok.injEq]
  constructor
  · rintro ⟨_, ⟨hj, hvalid, rfl⟩, rfl⟩
    exact ⟨hj, hvalid, rfl⟩
  · rintro ⟨hj, hvalid, rfl⟩
    exact ⟨_, ⟨hj, hvalid, rfl⟩, rfl⟩

/-- A sub-share is to be added exactly when it is the player's own, of a dealer of the set
that has not delivered yet, and verifies. -/
lemma checkSubshare_eq_ok_true_iff {a : Aggregator P S} {s : SubShare S}
    {c : DealerCommitment P} :
    a.checkSubshare s c = .ok true ↔
      s.playerIndex = a.playerIndex ∧ s.dealerIndex = c.dealerIndex ∧ s.dealerIndex ≠ 0 ∧
        s.dealerIndex ∈ a.dealerSet ∧ s.dealerIndex ∉ a.subshares.map Prod.fst ∧
        c.verifySubshare a.playerIndex s.value = true := by
  simp only [checkSubshare, Outcome.bind_eq_ok_iff, Outcome.refuse_eq_ok_iff, not_not]
  constructor
  · rintro ⟨_, hplayer, _, hdealer, _, h0, _, hset, h⟩
    split at h
    · exact absurd h (by simp)
    · next hnew =>
      simp only [Outcome.bind_eq_ok_iff, Outcome.refuse_eq_ok_iff, Bool.not_eq_false] at h
      obtain ⟨_, hverify, -⟩ := h
      exact ⟨hplayer, hdealer, h0, hset, hnew, hverify⟩
  · rintro ⟨hplayer, hdealer, h0, hset, hnew, hverify⟩
    refine ⟨(), hplayer, (), hdealer, (), h0, (), hset, ?_⟩
    rw [if_neg hnew, Outcome.refuse_of_neg (by simp [hverify]), Outcome.ok_bind]

/-- A sub-share that passes the checks is added, against a commitment with a constant term. -/
lemma addSubshare_eq_ok_true {a : Aggregator P S} {s : SubShare S} {c : DealerCommitment P}
    (hc : c.coefficients ≠ []) (hcheck : a.checkSubshare s c = .ok true) :
    a.addSubshare s c = ({ a with
      subshares := a.subshares ++ [(s.dealerIndex, s.value)]
      constantCommitments := a.constantCommitments ++ [c.coefficients.headD 0] }, .ok true) := by
  rw [addSubshare, hcheck]
  simp only [DealerCommitment.shareCommitment_eq_ok hc 0, Outcome.ok_bind]
  rfl

/-- What adding a sub-share does, against a commitment with a constant term. -/
lemma addSubshare_cases (a : Aggregator P S) (s : SubShare S) {c : DealerCommitment P}
    (hc : c.coefficients ≠ []) :
    (a.checkSubshare s c = .ok true ∧ (a.addSubshare s c).1 =
      { a with
        subshares := a.subshares ++ [(s.dealerIndex, s.value)]
        constantCommitments := a.constantCommitments ++ [c.coefficients.headD 0] }) ∨
    (a.checkSubshare s c ≠ .ok true ∧ (a.addSubshare s c).1 = a) := by
  by_cases hcheck : a.checkSubshare s c = .ok true
  · exact .inl ⟨hcheck, by rw [addSubshare_eq_ok_true hc hcheck]⟩
  · refine .inr ⟨hcheck, ?_⟩
    unfold addSubshare
    split
    · next hok => exact absurd hok hcheck
    · rfl

end Aggregator

/-! ### Agreed sets -/

/-- What holds of the agreed set of a reachable state: the dealers are distinct and not
zero, and every commitment has a constant term. -/
structure ValidAgreed (agreed : AgreedRound1 P) : Prop where
  pairwise : agreed.commitments.Pairwise fun a b => a.dealerIndex < b.dealerIndex
  ne_zero : ∀ c ∈ agreed.commitments, c.dealerIndex ≠ 0
  coefficients_ne_nil : ∀ c ∈ agreed.commitments, c.coefficients ≠ []

lemma ValidAgreed.nodup_dealerSet {agreed : AgreedRound1 P} (h : ValidAgreed agreed) :
    agreed.dealerSet.Nodup := by
  refine List.pairwise_map.mpr (h.pairwise.imp fun {a b} hlt heq => ?_)
  rw [heq] at hlt
  exact UInt32.lt_irrefl _ hlt

lemma ValidAgreed.commitment_eq_ok_iff {agreed : AgreedRound1 P} (h : ValidAgreed agreed)
    {i : UInt32} {c : DealerCommitment P} :
    agreed.commitment i = .ok c ↔ c ∈ agreed.commitments ∧ c.dealerIndex = i := by
  refine ⟨AgreedRound1.commitment_eq_ok, ?_⟩
  rintro ⟨hc, rfl⟩
  have hfound : (agreed.commitments.find? fun d => d.dealerIndex = c.dealerIndex).isSome :=
    List.find?_isSome.mpr ⟨c, hc, by simp⟩
  obtain ⟨d, hd⟩ := Option.isSome_iff_exists.mp hfound
  have hdc : d.dealerIndex = c.dealerIndex := by simpa using List.find?_some hd
  have heq : d = c := List.inj_on_of_nodup_map h.nodup_dealerSet
    (List.mem_of_find?_eq_some hd) hc hdc
  rw [AgreedRound1.commitment, hd, heq, Outcome.okOr_some]

variable [CurveScalar S] [CurvePoint P S]

/-- A delivery is valid for the player `j` when it verifies against the commitment its
dealer has in the agreed set. -/
def ValidDelivery (agreed : AgreedRound1 P) (j : UInt32) (s : SubShare S) : Prop :=
  s.playerIndex = j ∧ ∃ c, agreed.commitment s.dealerIndex = .ok c ∧
    c.verifySubshare j s.value = true

/-! ### What an aggregator holds -/

/-- The aggregator holds, for the listed commitments of the agreed set, one share each. -/
structure Holds (agreed : AgreedRound1 P) (a : Aggregator P S)
    (received : List (DealerCommitment P × S)) : Prop where
  subshares_eq : a.subshares = received.map fun r => (r.1.dealerIndex, r.2)
  constants_eq : a.constantCommitments = received.map fun r => r.1.coefficients.headD 0
  mem : ∀ r ∈ received, r.1 ∈ agreed.commitments
  share : ∀ r ∈ received,
    Sharing.IsShare (generator : P) r.1.coefficients (fromU32 a.playerIndex) r.2
  nodup : (received.map fun r => r.1.dealerIndex).Nodup

/-- What every aggregator over the agreed set satisfies, whatever was delivered. -/
structure Inv (agreed : AgreedRound1 P) (j : UInt32) (a : Aggregator P S) : Prop where
  playerIndex_eq : a.playerIndex = j
  dealerSet_eq : a.dealerSet = agreed.dealerSet.insertionSort (· ≤ ·)
  holds : ∃ received, Holds agreed a received

lemma Inv.mem_dealerSet {agreed : AgreedRound1 P} {j : UInt32} {a : Aggregator P S}
    (h : Inv agreed j a) {i : UInt32} : i ∈ a.dealerSet ↔ i ∈ agreed.dealerSet := by
  rw [h.dealerSet_eq]
  exact (List.perm_insertionSort _ _).mem_iff

lemma inv_fromAgreed {agreed : AgreedRound1 P} {j : UInt32} {a : Aggregator P S}
    (h : Aggregator.fromAgreed j agreed = .ok a) : Inv agreed j a := by
  obtain ⟨-, -, rfl⟩ := Aggregator.new_eq_ok_iff.mp h
  exact ⟨rfl, rfl, [], rfl, rfl, by simp, by simp, .nil⟩

/-- A delivery is added when it is valid and its dealer has not delivered yet, and changes
nothing otherwise. -/
theorem Inv.deliver_cases {agreed : AgreedRound1 P} (hagreed : ValidAgreed agreed) {j : UInt32}
    {a : Aggregator P S} (h : Inv agreed j a) (s : SubShare S) :
    (∃ c ∈ agreed.commitments, c.dealerIndex = s.dealerIndex ∧ ValidDelivery agreed j s ∧
      s.dealerIndex ∉ a.subshares.map Prod.fst ∧ c.verifySubshare j s.value = true ∧
      (a.deliver agreed s).1 =
        { a with
          subshares := a.subshares ++ [(s.dealerIndex, s.value)]
          constantCommitments := a.constantCommitments ++ [c.coefficients.headD 0] }) ∨
    ((ValidDelivery agreed j s → s.dealerIndex ∈ a.subshares.map Prod.fst) ∧
      (a.deliver agreed s).1 = a) := by
  unfold Aggregator.deliver
  split
  · next c hc =>
    obtain ⟨hmem, hidx⟩ := hagreed.commitment_eq_ok_iff.mp hc
    rcases a.addSubshare_cases s (hagreed.coefficients_ne_nil c hmem) with
      ⟨hcheck, hadd⟩ | ⟨hcheck, hsame⟩
    · -- the checks passed, and the commitment they were made against is the agreed one
      obtain ⟨hplayer, -, -, -, hnew, hverify⟩ :=
        Aggregator.checkSubshare_eq_ok_true_iff.mp hcheck
      rw [h.playerIndex_eq] at hplayer hverify
      exact .inl ⟨c, hmem, hidx, ⟨hplayer, c, hc, hverify⟩, hnew, hverify, hadd⟩
    · -- a valid sub-share of a dealer not heard yet would have passed them
      refine .inr ⟨?_, hsame⟩
      rintro ⟨hplayer, c', hc', hverify⟩
      by_contra hnew
      obtain rfl := Outcome.ok.inj (hc.symm.trans hc')
      rw [← h.playerIndex_eq] at hplayer hverify
      refine hcheck (Aggregator.checkSubshare_eq_ok_true_iff.mpr
        ⟨hplayer, hidx.symm, hidx ▸ hagreed.ne_zero c hmem, ?_, hnew, hverify⟩)
      exact h.mem_dealerSet.mpr (hidx ▸ List.mem_map_of_mem hmem)
  · next hc =>
    refine .inr ⟨?_, rfl⟩
    rintro ⟨-, c', hc', -⟩
    exact absurd (hc.symm.trans hc') (by simp)
  · next hc =>
    refine .inr ⟨?_, rfl⟩
    rintro ⟨-, c', hc', -⟩
    exact absurd (hc.symm.trans hc') (by simp)

/-- A delivery keeps the invariant. -/
lemma Inv.deliver {agreed : AgreedRound1 P} (hagreed : ValidAgreed agreed) {j : UInt32}
    {a : Aggregator P S} (h : Inv agreed j a) (s : SubShare S) :
    Inv agreed j (a.deliver agreed s).1 := by
  rcases h.deliver_cases hagreed s with ⟨c, hmem, hidx, -, hnew, hverify, hadd⟩ | ⟨-, hsame⟩
  · obtain ⟨received, hr⟩ := h.holds
    have hshare := (DealerCommitment.verifySubshare_iff.mp hverify).2
    rw [← h.playerIndex_eq] at hshare
    rw [hadd]
    refine ⟨h.playerIndex_eq, h.dealerSet_eq, received ++ [(c, s.value)], ?_, ?_, ?_, ?_, ?_⟩
    · simp [hr.subshares_eq, hidx]
    · simp [hr.constants_eq]
    · exact List.forall_mem_append.mpr ⟨hr.mem, List.forall_mem_singleton.mpr hmem⟩
    · exact List.forall_mem_append.mpr ⟨hr.share, List.forall_mem_singleton.mpr hshare⟩
    · -- the dealer has not delivered before, so its commitment is not among the received ones
      rw [hr.subshares_eq, List.map_map, ← hidx] at hnew
      exact Keyed.nodup_map_append_singleton hr.nodup hnew
  · rwa [hsame]

/-- Who has delivered, after one more delivery. -/
lemma Inv.mem_subshares_deliver {agreed : AgreedRound1 P} (hagreed : ValidAgreed agreed)
    {j : UInt32} {a : Aggregator P S} (h : Inv agreed j a) (s : SubShare S) {i : UInt32} :
    i ∈ (a.deliver agreed s).1.subshares.map Prod.fst ↔
      i ∈ a.subshares.map Prod.fst ∨ (s.dealerIndex = i ∧ ValidDelivery agreed j s) := by
  rcases h.deliver_cases hagreed s with ⟨c, -, -, hvalid, -, -, hadd⟩ | ⟨hold, hsame⟩
  · rw [hadd, List.map_append, List.mem_append]
    simp [hvalid, eq_comm]
  · rw [hsame]
    refine ⟨.inl, ?_⟩
    rintro (hi | ⟨rfl, hvalid⟩)
    · exact hi
    · exact hold hvalid

/-- After any run of deliveries the aggregator keeps its invariant and has heard from
exactly the dealers a valid sub-share of which was among them. -/
theorem inv_run {agreed : AgreedRound1 P} (hagreed : ValidAgreed agreed) {j : UInt32}
    {a : Aggregator P S} (h : Inv agreed j a) (deliveries : List (SubShare S)) :
    Inv agreed j (Calls.run (Aggregator.deliver agreed) a deliveries) ∧
    ∀ i, i ∈ (Calls.run (Aggregator.deliver agreed) a deliveries).subshares.map Prod.fst ↔
      i ∈ a.subshares.map Prod.fst ∨
        ∃ s ∈ deliveries, s.dealerIndex = i ∧ ValidDelivery agreed j s := by
  induction deliveries generalizing a with
  | nil => simpa using h
  | cons s deliveries ih =>
    obtain ⟨hinv, hmem⟩ := ih (h.deliver hagreed s)
    refine ⟨hinv, fun i => ?_⟩
    rw [Calls.run_cons, hmem i, h.mem_subshares_deliver hagreed s, or_assoc]
    simp

/-! ### Complete aggregators -/

variable {agreed : AgreedRound1 P} {j : UInt32} {a : Aggregator P S}

omit [CurveScalar S] [CurvePoint P S] in
lemma requireComplete_eq_ok_iff :
    a.requireComplete = .ok () ↔ a.subshares.length = a.dealerSet.length := by
  simp [Aggregator.requireComplete, Aggregator.isComplete]

/-- The dealers heard from are distinct dealers of the set. -/
lemma Inv.subperm_dealerSet (h : Inv agreed j a) :
    (a.subshares.map Prod.fst).Subperm a.dealerSet := by
  obtain ⟨received, hr⟩ := h.holds
  rw [hr.subshares_eq, List.map_map]
  refine List.subperm_of_subset hr.nodup fun i hi => ?_
  obtain ⟨r, hrm, rfl⟩ := List.mem_map.mp hi
  exact h.mem_dealerSet.mpr (List.mem_map_of_mem (hr.mem r hrm))

/-- An aggregator is complete once every dealer of the set has been heard from. -/
theorem Inv.length_eq_iff (hagreed : ValidAgreed agreed) (h : Inv agreed j a) :
    a.subshares.length = a.dealerSet.length ↔
      ∀ i ∈ agreed.dealerSet, i ∈ a.subshares.map Prod.fst := by
  have hsub := h.subperm_dealerSet
  constructor
  · intro hlen i hi
    have hperm := hsub.perm_of_length_le (by rw [List.length_map, hlen])
    exact hperm.mem_iff.mpr (h.mem_dealerSet.mpr hi)
  · intro hall
    have hnd : a.dealerSet.Nodup := by
      rw [h.dealerSet_eq]
      exact (List.perm_insertionSort _ _).nodup_iff.mpr hagreed.nodup_dealerSet
    have hle := hsub.length_le
    have hge := (List.subperm_of_subset hnd fun i hi => hall i (h.mem_dealerSet.mp hi)).length_le
    rw [List.length_map] at hle hge
    exact le_antisymm hle hge

/-- A complete aggregator holds one share of every commitment of the agreed set. -/
lemma Inv.exists_perm (h : Inv agreed j a)
    (hlen : a.subshares.length = a.dealerSet.length) :
    ∃ received, Holds agreed a received ∧
      (received.map Prod.fst).Perm agreed.commitments := by
  obtain ⟨received, hr⟩ := h.holds
  refine ⟨received, hr, ?_⟩
  have hnd : (received.map Prod.fst).Nodup := by
    refine List.Nodup.of_map DealerCommitment.dealerIndex ?_
    rw [List.map_map]
    exact hr.nodup
  have hsub : (received.map Prod.fst).Subperm agreed.commitments := by
    refine List.subperm_of_subset hnd fun c hc => ?_
    obtain ⟨r, hrm, rfl⟩ := List.mem_map.mp hc
    exact hr.mem r hrm
  refine hsub.perm_of_length_le ?_
  rw [hr.subshares_eq, h.dealerSet_eq, List.length_map, List.length_insertionSort,
    AgreedRound1.dealerSet, List.length_map] at hlen
  rw [List.length_map, hlen]

/-- **A complete aggregator's share is the player's share of the sum of the agreed
sharings, and its key the sum of their keys.** -/
theorem Inv.finalize_eq (h : Inv agreed j a)
    (hlen : a.subshares.length = a.dealerSet.length) :
    ∃ share : S, a.finalize = .ok share ∧
      share • (generator : P)
        = (agreed.commitments.map fun c => Horner.horner (fromU32 j : S) c.coefficients).sum ∧
      a.deriveGroupKey = .ok (agreed.commitments.map fun c => c.coefficients.headD 0).sum := by
  obtain ⟨received, hr, hperm⟩ := h.exists_perm hlen
  have hcomplete := requireComplete_eq_ok_iff.mpr hlen
  refine ⟨(received.map Prod.snd).sum, ?_, ?_, ?_⟩
  · rw [Aggregator.finalize, hcomplete, Outcome.ok_bind, hr.subshares_eq, List.foldl_map,
      List.sum_eq_foldl, List.foldl_map]
  · rw [← (hperm.map _).sum_eq, List.sum_smul, List.map_map, List.map_map]
    congr 1
    refine List.map_congr_left fun r hrm => ?_
    rw [Function.comp_apply, Function.comp_apply, ← h.playerIndex_eq]
    exact hr.share r hrm
  · rw [Aggregator.deriveGroupKey, hcomplete, Outcome.ok_bind, hr.constants_eq,
      ← List.sum_eq_foldl, ← (hperm.map _).sum_eq, List.map_map]
    rfl

/-! ### Finishing -/

/-- A player finishes exactly when a valid sub-share of every agreed dealer was among the
deliveries. -/
theorem finalize_run_iff (hagreed : ValidAgreed agreed)
    (ha : Aggregator.fromAgreed j agreed = .ok a) (deliveries : List (SubShare S)) :
    (∃ share, (Calls.run (Aggregator.deliver agreed) a deliveries).finalize = .ok share) ↔
      ∀ i ∈ agreed.dealerSet, ∃ s ∈ deliveries,
        s.dealerIndex = i ∧ ValidDelivery agreed j s := by
  obtain ⟨hrun, hheard⟩ := inv_run hagreed (inv_fromAgreed ha) deliveries
  have hempty : a.subshares = [] := by
    obtain ⟨-, -, rfl⟩ := Aggregator.new_eq_ok_iff.mp ha
    rfl
  have hiff := hrun.length_eq_iff hagreed
  simp only [hheard, hempty, List.map_nil, List.not_mem_nil, false_or] at hiff
  rw [← hiff]
  constructor
  · rintro ⟨share, hfin⟩
    obtain ⟨_, hcheck, -⟩ := Outcome.bind_eq_ok_iff.mp hfin
    exact requireComplete_eq_ok_iff.mp hcheck
  · intro hfull
    obtain ⟨share, hfin, -⟩ := hrun.finalize_eq hfull
    exact ⟨share, hfin⟩

/-- What a player that finished holds. -/
theorem finalize_run (hagreed : ValidAgreed agreed)
    (ha : Aggregator.fromAgreed j agreed = .ok a) {deliveries : List (SubShare S)} {share : S}
    (hfin : (Calls.run (Aggregator.deliver agreed) a deliveries).finalize = .ok share) :
    j ≠ 0 ∧
      share • (generator : P)
        = (agreed.commitments.map fun c => Horner.horner (fromU32 j : S) c.coefficients).sum ∧
      (Calls.run (Aggregator.deliver agreed) a deliveries).deriveGroupKey
        = .ok (agreed.commitments.map fun c => c.coefficients.headD 0).sum := by
  obtain ⟨hj, -, -⟩ := Aggregator.new_eq_ok_iff.mp ha
  obtain ⟨hrun, -⟩ := inv_run hagreed (inv_fromAgreed ha) deliveries
  obtain ⟨_, hcheck, -⟩ := Outcome.bind_eq_ok_iff.mp hfin
  obtain ⟨share', hfin', hshare, hgroup⟩ :=
    hrun.finalize_eq (requireComplete_eq_ok_iff.mp hcheck)
  rw [hfin] at hfin'
  rw [Outcome.ok.inj hfin']
  exact ⟨hj, hshare, hgroup⟩

end Frostito.Dkg
