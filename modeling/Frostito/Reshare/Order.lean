import Frostito.Reference.Lines
import Frostito.Reference.Padded
import Frostito.Reshare.Aggregator

/-!
# The order of arrival

The first sub-share that an aggregator accepts fixes the threshold that every later
commitment is compared with.  Messages of one threshold can arrive in any order: the same
dealers are heard, and the aggregator computes the same.  Between messages of different
thresholds the order decides who is heard.
-/

namespace Frostito.Reshare

section Order

variable {S P : Type} [CurveScalar S] [CurvePoint P S]

/-- The message is for player `j`, names one dealer of the set in both its parts, and the
sub-share verifies against the commitment. -/
def ValidFor (j : UInt32) (dealerSet : List UInt32) (m : SubShare S × DealerCommitment P) :
    Prop :=
  m.1.playerIndex = j ∧ m.1.dealerIndex = m.2.dealerIndex ∧ m.2.dealerIndex ∈ dealerSet ∧
    m.2.verifySubshare j m.1.value = true

instance (j : UInt32) (dealerSet : List UInt32) (m : SubShare S × DealerCommitment P) :
    Decidable (ValidFor j dealerSet m) :=
  inferInstanceAs (Decidable (_ ∧ _ ∧ _ ∧ _))

/-- The valid messages have one threshold. -/
def OneThreshold (j : UInt32) (dealerSet : List UInt32)
    (ms : List (SubShare S × DealerCommitment P)) : Prop :=
  ∀ m ∈ ms, ∀ m' ∈ ms, ValidFor j dealerSet m → ValidFor j dealerSet m' →
    m.2.threshold = m'.2.threshold

namespace Aggregator

/-- Two aggregators that look the same to their player. -/
structure SameOutcome (a b : Aggregator P S) : Prop where
  heard : ∀ d, d ∈ a.subshares.map Prod.fst ↔ d ∈ b.subshares.map Prod.fst
  isComplete_eq : a.isComplete = b.isComplete
  missingDealers_eq : a.missingDealers = b.missingDealers
  finalize_eq : ∀ key, a.finalize key = b.finalize key

/-! ### Outcomes do not depend on the order of what is stored -/

omit [CurvePoint P S] in
lemma lagrange_congr {a b : Aggregator P S} (hset : a.dealerSet = b.dealerSet)
    (hlen : a.subshares.length = b.subshares.length) : a.lagrange = b.lagrange := by
  rw [lagrange, lagrange, isComplete, isComplete, hset, hlen]

end Aggregator

variable {j : UInt32} {dealerSet : List UInt32} {a b : Aggregator P S}

section Perm

variable (ha : Inv j dealerSet a) (hb : Inv j dealerSet b)
  (hsub : a.subshares.Perm b.subshares) (hcom : a.commitments.Perm b.commitments)
include ha hb hsub hcom

lemma Inv.polynomial_perm : a.polynomial = b.polynomial := by
  obtain ⟨received, hr⟩ := ha.holds
  have hset : a.dealerSet = b.dealerSet := ha.dealerSet_eq.trans hb.dealerSet_eq.symm
  have hnd : (a.commitments.map DealerCommitment.dealerIndex).Nodup := by
    rw [hr.commitments_eq, List.map_map]
    exact hr.nodup
  have hcommitmentOf : ∀ d, a.commitmentOf d = b.commitmentOf d := fun d => by
    rw [Aggregator.commitmentOf, Aggregator.commitmentOf, Keyed.find?_perm hnd hcom]
  simp only [Aggregator.polynomial, Aggregator.lagrange_congr hset hsub.length_eq, hset,
    hcommitmentOf]
  -- which commitment came first does not matter, they have one threshold
  cases hfirst : a.commitments.head? with
  | none =>
    have hnil := hcom
    rw [List.head?_eq_none_iff.mp hfirst] at hnil
    rw [hnil.nil_eq.symm]
    rfl
  | some first =>
    cases hfirst' : b.commitments.head? with
    | none =>
      have hnil := hcom
      rw [List.head?_eq_none_iff.mp hfirst'] at hnil
      rw [hnil.eq_nil] at hfirst
      exact absurd hfirst (by simp)
    | some first' =>
      have hmem := List.mem_of_mem_head? (Option.mem_def.mpr hfirst)
      have hmem' := hcom.mem_iff.mpr (List.mem_of_mem_head? (Option.mem_def.mpr hfirst'))
      rw [hr.commitments_eq] at hmem hmem'
      obtain ⟨r, hrm, rfl⟩ := List.mem_map.mp hmem
      obtain ⟨r', hrm', rfl⟩ := List.mem_map.mp hmem'
      simp only [Outcome.expectSome_some, Outcome.ok_bind, hr.threshold r hrm r' hrm']

omit hcom in
lemma Inv.aggregate_perm : a.aggregate = b.aggregate := by
  obtain ⟨received, hr⟩ := ha.holds
  have hset : a.dealerSet = b.dealerSet := ha.dealerSet_eq.trans hb.dealerSet_eq.symm
  have hsubshareOf : ∀ d, a.subshareOf d = b.subshareOf d := fun d => by
    rw [Aggregator.subshareOf, Aggregator.subshareOf, Keyed.find?_perm hr.nodup_indices hsub]
  simp only [Aggregator.aggregate, Aggregator.lagrange_congr hset hsub.length_eq, hset,
    hsubshareOf]

/-- Aggregators that hold the same in different orders have the same outcome. -/
theorem Inv.sameOutcome : a.SameOutcome b := by
  have hset : a.dealerSet = b.dealerSet := ha.dealerSet_eq.trans hb.dealerSet_eq.symm
  refine ⟨fun d => (hsub.map _).mem_iff, ?_, ?_, fun key => ?_⟩
  · rw [Aggregator.isComplete, Aggregator.isComplete, hset, hsub.length_eq]
  · rw [Aggregator.missingDealers, Aggregator.missingDealers, hset]
    refine List.filter_congr fun d _ => ?_
    rw [hsub.any_eq]
  · simp only [Aggregator.finalize, ha.polynomial_perm hb hsub hcom,
      ha.aggregate_perm hb hsub, ha.playerIndex_eq, hb.playerIndex_eq]

end Perm

/-- Every order of arrival of the messages leads to the same outcome, and no valid message
is refused in any of them. -/
structure OrderIndependent (j : UInt32) (dealerSet : List UInt32) (a₀ : Aggregator P S)
    (ms : List (SubShare S × DealerCommitment P)) : Prop where
  same : ∀ order order' : List (SubShare S × DealerCommitment P), order.Perm ms →
    order'.Perm ms → (Calls.run deliver a₀ order).SameOutcome (Calls.run deliver a₀ order')
  accepted : ∀ before m after, (before ++ m :: after).Perm ms → ValidFor j dealerSet m →
    (deliver (Calls.run deliver a₀ before) m).2 = .ok true

/-! ### What a run stores -/

/-- An aggregator accepts the valid messages of the dealers it has not heard, if they have
the threshold of the first it accepted. -/
lemma Inv.accepts_iff (h : Inv j dealerSet a) {m : SubShare S × DealerCommitment P} :
    a.Accepts m.1 m.2 ↔ ValidFor j dealerSet m ∧ a.checkThreshold m.2 = .ok () ∧
      m.2.dealerIndex ∉ a.subshares.map Prod.fst := by
  constructor
  · intro hacc
    exact ⟨⟨hacc.playerIndex_eq.trans h.playerIndex_eq, hacc.dealerIndex_eq,
      h.perm_dealerSet.mem_iff.mp hacc.mem, h.playerIndex_eq ▸ hacc.verify⟩, hacc.threshold,
      hacc.notMem⟩
  · rintro ⟨⟨hplayer, hdealer, hmem, hverify⟩, hthr, hnew⟩
    have hmem' := h.perm_dealerSet.mem_iff.mpr hmem
    refine ⟨hplayer.trans h.playerIndex_eq.symm, hdealer, ?_, hmem', hthr, hnew,
      h.playerIndex_eq ▸ hverify⟩
    intro h0
    exact h.validIndices.zero_notMem (h0 ▸ hmem')

/-- The run stored exactly the listed messages, in their order. -/
structure Stores (a : Aggregator P S) (ms : List (SubShare S × DealerCommitment P)) : Prop where
  subshares_eq : a.subshares = ms.map fun m => (m.2.dealerIndex, m.1.value)
  commitments_eq : a.commitments = ms.map Prod.snd

/-- A valid message is accepted after messages of its threshold from other dealers. -/
lemma Inv.accepts_of_stores (h : Inv j dealerSet a)
    {before : List (SubShare S × DealerCommitment P)} {m : SubShare S × DealerCommitment P}
    (hstores : Stores a (before.filter fun m => ValidFor j dealerSet m))
    (hvalid : ValidFor j dealerSet m)
    (hnew : m.1.dealerIndex ∉ before.map fun m => m.1.dealerIndex)
    (hthr : ∀ m' ∈ before, ValidFor j dealerSet m' → m'.2.threshold = m.2.threshold) :
    a.Accepts m.1 m.2 := by
  have hstored : ∀ m' ∈ before.filter fun m => ValidFor j dealerSet m,
      m' ∈ before ∧ ValidFor j dealerSet m' := by
    intro m' hm'
    simpa using List.mem_filter.mp hm'
  refine h.accepts_iff.mpr ⟨hvalid, ?_, ?_⟩
  · refine Aggregator.checkThreshold_eq_ok_iff.mpr fun first hfirst => ?_
    rw [hstores.commitments_eq] at hfirst
    obtain ⟨m', hm', rfl⟩ := List.mem_map.mp (List.mem_of_mem_head? (Option.mem_def.mpr hfirst))
    exact hthr m' (hstored m' hm').1 (hstored m' hm').2
  · rw [hstores.subshares_eq, List.map_map]
    intro hd
    obtain ⟨m', hm', hd⟩ := List.mem_map.mp hd
    refine hnew (List.mem_map.mpr ⟨m', (hstored m' hm').1, ?_⟩)
    rw [(hstored m' hm').2.2.1, hvalid.2.1]
    exact hd

/-- Messages of one threshold from distinct dealers are stored when they are valid. -/
theorem Inv.run_stores {a₀ : Aggregator P S} (h : Inv j dealerSet a₀) (hstores : Stores a₀ [])
    {order : List (SubShare S × DealerCommitment P)}
    (hone : (order.map fun m => m.1.dealerIndex).Nodup) (hthr : OneThreshold j dealerSet order) :
    Stores (Calls.run deliver a₀ order) (order.filter fun m => ValidFor j dealerSet m) := by
  induction order using List.reverseRecOn with
  | nil => exact hstores
  | append_singleton before m ih =>
    rw [List.map_append, List.nodup_append] at hone
    have hthr' : OneThreshold j dealerSet before := fun m hm m' hm' =>
      hthr m (List.mem_append_left _ hm) m' (List.mem_append_left _ hm')
    have hbefore := ih hone.1 hthr'
    have hinv := inv_run h before
    rw [Calls.run_append, Calls.run_cons, Calls.run_nil, List.filter_append]
    by_cases hvalid : ValidFor j dealerSet m
    · have hacc : (Calls.run deliver a₀ before).Accepts m.1 m.2 := by
        refine hinv.accepts_of_stores hbefore hvalid (fun hd => ?_) fun m' hm' hvalid' => ?_
        · exact hone.2.2 _ hd _ (List.mem_singleton_self _) rfl
        · exact hthr m' (List.mem_append_left _ hm') m
            (List.mem_append_right _ (List.mem_singleton_self m)) hvalid' hvalid
      rw [deliver, hacc.addSubshare_eq, List.filter_cons_of_pos (by simpa using hvalid),
        List.filter_nil]
      refine ⟨?_, ?_⟩
      · rw [Aggregator.add, hbefore.subshares_eq, List.map_append, List.map_singleton]
      · rw [Aggregator.add, hbefore.commitments_eq, List.map_append, List.map_singleton]
    · have hsame : (deliver (Calls.run deliver a₀ before) m).1 = Calls.run deliver a₀ before :=
        Aggregator.addSubshare_unchanged fun hadd =>
          hvalid (hinv.accepts_iff.mp (Aggregator.addSubshare_eq_ok_true_iff.mp hadd)).1
      rwa [hsame, List.filter_cons_of_neg (by simpa using hvalid), List.filter_nil,
        List.append_nil]

/-- **When the order of arrival does not matter.**  Of messages of distinct dealers it does
not exactly when the valid ones have one threshold. -/
theorem orderIndependent_iff {a₀ : Aggregator P S} (hnew : Aggregator.new j dealerSet = .ok a₀)
    {ms : List (SubShare S × DealerCommitment P)}
    (hone : (ms.map fun m => m.1.dealerIndex).Nodup) :
    OrderIndependent j dealerSet a₀ ms ↔ OneThreshold j dealerSet ms := by
  have hinv := inv_new hnew
  obtain ⟨-, -, ha₀⟩ := Aggregator.new_eq_ok_iff.mp hnew
  have hstores : Stores a₀ [] := ⟨by rw [ha₀]; rfl, by rw [ha₀]; rfl⟩
  have hnodup : ∀ {order : List (SubShare S × DealerCommitment P)}, order.Perm ms →
      (order.map fun m => m.1.dealerIndex).Nodup := fun h => (h.map _).nodup_iff.mpr hone
  constructor
  · intro h m hm m' hm' hvalid hvalid'
    rcases eq_or_ne m m' with rfl | hne
    · rfl
    -- let the two messages arrive first
    obtain ⟨rest, hrest⟩ : ∃ rest, (m :: m' :: rest).Perm ms := by
      have hsubset : [m, m'] ⊆ ms :=
        List.cons_subset.mpr ⟨hm, List.cons_subset.mpr ⟨hm', List.nil_subset _⟩⟩
      obtain ⟨l, hl, hsublist⟩ :=
        List.subperm_iff.mp (List.subperm_of_subset (by simpa using hne) hsubset)
      obtain ⟨rest, hrest⟩ := hsublist.exists_perm_append
      exact ⟨rest, hrest.symm.trans hl⟩
    have hacc : a₀.Accepts m.1 m.2 :=
      hinv.accepts_iff.mpr ⟨hvalid, Aggregator.checkThreshold_eq_ok_iff.mpr
        (by simp [hstores.commitments_eq]), by simp [hstores.subshares_eq]⟩
    have hadd := h.accepted [m] m' rest hrest hvalid'
    rw [Calls.run_cons, Calls.run_nil, deliver, deliver, hacc.addSubshare_eq,
      Aggregator.addSubshare_eq_ok_true_iff] at hadd
    refine Aggregator.checkThreshold_eq_ok_iff.mp hadd.threshold m.2 ?_
    rw [Aggregator.add, hstores.commitments_eq]
    rfl
  · intro hthr
    have hthr' : ∀ {order : List (SubShare S × DealerCommitment P)}, order.Perm ms →
        OneThreshold j dealerSet order := fun h m hm m' hm' =>
      hthr m (h.mem_iff.mp hm) m' (h.mem_iff.mp hm')
    refine ⟨fun order order' ho ho' => ?_, fun before m after ho hvalid => ?_⟩
    · have hrun := hinv.run_stores hstores (hnodup ho) (hthr' ho)
      have hrun' := hinv.run_stores hstores (hnodup ho') (hthr' ho')
      have hperm := (ho.trans ho'.symm).filter fun m => ValidFor j dealerSet m
      refine (inv_run hinv order).sameOutcome (inv_run hinv order') ?_ ?_
      · rw [hrun.subshares_eq, hrun'.subshares_eq]
        exact hperm.map _
      · rw [hrun.commitments_eq, hrun'.commitments_eq]
        exact hperm.map _
    · have hnd := hnodup ho
      rw [List.map_append, List.nodup_append] at hnd
      have hmem : ∀ m' ∈ before, m' ∈ before ++ m :: after := fun m' => List.mem_append_left _
      have hm : m ∈ before ++ m :: after := List.mem_append_right _ List.mem_cons_self
      have hbefore := hinv.run_stores hstores hnd.1
        fun m hm m' hm' => hthr' ho m (hmem m hm) m' (hmem m' hm')
      refine Aggregator.addSubshare_eq_ok_true_iff.mpr ((inv_run hinv before).accepts_of_stores
        hbefore hvalid (fun hd => ?_) fun m' hm' hvalid' =>
          hthr' ho m' (hmem m' hm') m hm hvalid' hvalid)
      exact hnd.2.2 _ hd _ (List.mem_map_of_mem List.mem_cons_self) rfl

end Order

/-! ### Two dealers with different thresholds -/

section TwoThresholds

open Reference

/-- Dealer 1 commits to one coefficient. -/
def shortMessage : SubShare Residue × DealerCommitment Residue :=
  paddedDelivery 1 0 fits_zero

/-- Dealer 2 commits to two coefficients. -/
def longMessage : SubShare Residue × DealerCommitment Residue :=
  paddedDelivery 2 1 (by norm_num)

lemma twoDealers_accepts {i : UInt32} (hi : i ∈ [1, 2]) {m : ℕ} {h : m + 1 < 2 ^ 58} :
    twoDealers.Accepts (paddedDelivery i m h).1 (paddedDelivery i m h).2 := by
  have hi0 : i ≠ 0 := by
    rintro rfl
    exact absurd hi (by decide)
  exact ⟨rfl, rfl, hi0, hi, rfl, List.not_mem_nil, verifySubshare_padded h (by decide)⟩

/-- A second message of another threshold is refused. -/
lemma run_pair {m m' : SubShare Residue × DealerCommitment Residue}
    (hacc : twoDealers.Accepts m.1 m.2) (hthr : m.2.threshold ≠ m'.2.threshold) :
    Calls.run deliver twoDealers [m, m'] = twoDealers.add m.1 m.2 := by
  rw [Calls.run_cons, Calls.run_cons, Calls.run_nil, deliver, deliver, hacc.addSubshare_eq]
  refine Aggregator.addSubshare_unchanged fun hadd => hthr ?_
  have hacc' := Aggregator.addSubshare_eq_ok_true_iff.mp hadd
  exact Aggregator.checkThreshold_eq_ok_iff.mp hacc'.threshold m.2 rfl

/-- Whoever of the two comes first is heard, and the other one is missing. -/
theorem first_message_decides :
    ¬∀ (j : UInt32) (dealerSet : List UInt32) (a₀ : Aggregator Residue Residue)
      (ms : List (SubShare Residue × DealerCommitment Residue)),
      Aggregator.new j dealerSet = .ok a₀ → (ms.map fun m => m.1.dealerIndex).Nodup →
      OrderIndependent j dealerSet a₀ ms := by
  intro hall
  have hnd : ([shortMessage, longMessage].map fun m => m.1.dealerIndex).Nodup := by decide
  have hsame := (hall 1 [1, 2] twoDealers [shortMessage, longMessage] new_twoDealers hnd).same
    [shortMessage, longMessage] [longMessage, shortMessage] (.refl _) (.swap _ _ _)
  have hthr : shortMessage.2.threshold ≠ longMessage.2.threshold := by
    rw [shortMessage, longMessage, paddedDelivery, paddedDelivery, threshold_padded,
      threshold_padded]
    decide
  have hshort : twoDealers.Accepts shortMessage.1 shortMessage.2 :=
    twoDealers_accepts (by decide)
  have hlong : twoDealers.Accepts longMessage.1 longMessage.2 := twoDealers_accepts (by decide)
  rw [run_pair hshort hthr, run_pair hlong hthr.symm] at hsame
  exact absurd hsame.missingDealers_eq (by decide)

/-- Two messages of one threshold can arrive in either order. -/
theorem orderIndependent_shortMessage :
    OrderIndependent 1 [1, 2] twoDealers [shortMessage, paddedDelivery 2 0 fits_zero] := by
  refine (orderIndependent_iff new_twoDealers (by decide)).mpr ?_
  have hthr : ∀ m ∈ [shortMessage, paddedDelivery 2 0 fits_zero],
      m.2.threshold = UInt32.ofNat (0 + 1) := by
    intro m hm
    rcases List.mem_cons.mp hm with rfl | hm
    · exact threshold_padded (by norm_num)
    · rw [List.mem_singleton.mp hm]
      exact threshold_padded (by norm_num)
  intro m hm m' hm' _ _
  rw [hthr m hm, hthr m' hm']

end TwoThresholds

end Frostito.Reshare
