import Frostito.Dkg.Tally
import Frostito.Dkg.Threshold

/-!
# Nodes that see the same events

Nodes process packages, disqualifications and verdicts as they arrive, each in its own order
and some of them more than once, and a submission may come before or after its dealer is
disqualified.  As long as the packages that verify for one dealer carry one commitment, what
a node ends up with depends on which events there were and on nothing else.
-/

namespace Frostito

/-- Something that happens at a node: a call on its round state, or a verdict for its
tally. -/
inductive NodeEvent (P S : Type) where
  | call (c : DkgCall P S)
  | verdict (triple : VerdictTriple)

/-- A node of the ceremony. -/
structure Node (P : Type) where
  state : DkgState P
  tally : ComplaintTally

variable {S P : Type}

/-- `for dealer in dealers { state.disqualify(dealer)?; }`. -/
def DkgState.disqualifyAll (s : DkgState P) : List UInt32 → DkgState P × Outcome Error Unit
  | [] => (s, .ok ())
  | d :: ds =>
    let r := s.disqualify d
    match r.2 with
    | .ok () => r.1.disqualifyAll ds
    | .err e => (r.1, .err e)
    | .panic => (r.1, .panic)

namespace Node

/-- A node at the start of the ceremony. -/
def new (epoch : UInt64) (threshold n tallyThreshold : UInt32) : Node P :=
  ⟨DkgState.new epoch threshold n, ComplaintTally.new tallyThreshold⟩

variable [CurveScalar S] [CurvePoint P S] [Sha2]

/-- One event, and what the call returns. -/
def step (node : Node P) :
    NodeEvent P S → Node P × (Outcome Error Bool ⊕ Outcome Error Unit)
  | .call c => let r := node.state.call c; ({ node with state := r.1 }, r.2)
  | .verdict triple =>
    let r := node.tally.recordTriple triple
    ({ node with tally := r.1 }, .inr r.2)

/-- The documented loop over the dealers that have reached the threshold. -/
def finish (node : Node P) : DkgState P × Outcome Error Unit :=
  node.state.disqualifyAll node.tally.disqualifiable

end Node

section Convergence

variable [CurveScalar S] [CurvePoint P S] [Sha2]

/-! ### The calls and the verdicts of a run -/

/-- The calls on the round state among the events. -/
def NodeEvent.calls (events : List (NodeEvent P S)) : List (DkgCall P S) :=
  events.filterMap fun
    | .call c => some c
    | .verdict _ => none

/-- The verdicts among the events. -/
def NodeEvent.triples (events : List (NodeEvent P S)) : List VerdictTriple :=
  events.filterMap fun
    | .call _ => none
    | .verdict triple => some triple

omit [CurveScalar S] [CurvePoint P S] [Sha2] in
lemma NodeEvent.mem_calls {events : List (NodeEvent P S)} {c : DkgCall P S} :
    c ∈ calls events ↔ .call c ∈ events := by
  rw [calls, List.mem_filterMap]
  constructor
  · rintro ⟨e, he, hc⟩
    cases e with
    | call c' => exact Option.some.inj hc ▸ he
    | verdict triple => exact absurd hc (by simp)
  · exact fun h => ⟨_, h, rfl⟩

omit [CurveScalar S] [CurvePoint P S] [Sha2] in
lemma NodeEvent.mem_triples {events : List (NodeEvent P S)} {triple : VerdictTriple} :
    triple ∈ triples events ↔ .verdict triple ∈ events := by
  rw [triples, List.mem_filterMap]
  constructor
  · rintro ⟨e, he, hc⟩
    cases e with
    | call c' => exact absurd hc (by simp)
    | verdict triple' => exact Option.some.inj hc ▸ he
  · exact fun h => ⟨_, h, rfl⟩

/-- The two objects of a node do not see each other's calls. -/
lemma Node.run_eq (node : Node P) (events : List (NodeEvent P S)) :
    Calls.run Node.step node events =
      ⟨Calls.run DkgState.call node.state (NodeEvent.calls events),
        Calls.run ComplaintTally.recordTriple node.tally (NodeEvent.triples events)⟩ := by
  induction events generalizing node with
  | nil => rfl
  | cons e events ih =>
    rw [Calls.run_cons, ih]
    cases e with
    | call c => rfl
    | verdict triple => rfl

/-! ### The commitments of a state -/

/-- Among the submitted packages that verify, those of one dealer carry one commitment. -/
def ConsistentPackages (epoch : UInt64) (calls : List (DkgCall P S)) : Prop :=
  ∀ package package' : Round1Package P S, .submit package ∈ calls → .submit package' ∈ calls →
    package.verify epoch = .ok () → package'.verify epoch = .ok () →
    package.commitment.dealerIndex = package'.commitment.dealerIndex →
    package.commitment = package'.commitment

lemma ConsistentPackages.mono {epoch : UInt64} {calls calls' : List (DkgCall P S)}
    (h : ConsistentPackages epoch calls) (hsub : calls' ⊆ calls) :
    ConsistentPackages epoch calls' :=
  fun package package' hmem hmem' => h package package' (hsub hmem) (hsub hmem')

/-- A commitment the ceremony takes up: some submitted package that verifies carries it, for
the ceremony's threshold and a participant that no call disqualifies. -/
structure TakenUp (epoch : UInt64) (threshold n : UInt32) (calls : List (DkgCall P S))
    (c : DealerCommitment P) : Prop where
  submitted : ∃ package, .submit package ∈ calls ∧ package.verify epoch = .ok () ∧
    package.commitment = c
  mem_participants : c.dealerIndex ∈ participants n
  threshold_eq : c.threshold = threshold
  qualified : .disqualify c.dealerIndex ∉ calls

namespace DkgState

variable {epoch : UInt64} {threshold n : UInt32} {calls calls' : List (DkgCall P S)}

/-- A package that passes every check but is not recorded found its slot taken. -/
lemma exists_slot_of_not_recorded {s : DkgState P} {package : Round1Package P S} {idx : ℕ}
    (hverify : package.verify s.epoch = .ok ())
    (hqual : package.commitment.dealerIndex ∉ s.disqualified)
    (hidx : slotOf package.commitment.dealerIndex = some idx) (hlt : idx < s.commitments.length)
    (hthr : package.commitment.threshold = s.threshold)
    (hnot : (s.submitCommitment package).2 ≠ .ok true) :
    ∃ c, s.commitments[idx]? = some (some c) := by
  rw [List.getElem?_eq_getElem hlt]
  cases hslot : s.commitments[idx] with
  | some c => exact ⟨c, rfl⟩
  | none =>
    have hrec : s.Records idx package :=
      ⟨hverify, hqual, hidx, hthr, by rw [List.getElem?_eq_getElem hlt, hslot]⟩
    exact absurd (by rw [hrec.submitCommitment_eq]) hnot

/-- What a submission adds to what the ceremony takes up. -/
lemma takenUp_submit {before : List (DkgCall P S)} {package : Round1Package P S}
    {c : DealerCommitment P} :
    TakenUp epoch threshold n (before ++ [.submit package]) c ↔
      TakenUp epoch threshold n before c ∨ (package.verify epoch = .ok () ∧
        package.commitment = c ∧ c.dealerIndex ∈ participants n ∧ c.threshold = threshold ∧
        .disqualify c.dealerIndex ∉ before) := by
  constructor
  · rintro ⟨⟨package', hmem, hverify, hc⟩, hrange, hthr, hqual⟩
    have hqual' : .disqualify c.dealerIndex ∉ before := fun h => hqual (List.mem_append_left _ h)
    rcases List.mem_append.mp hmem with hmem | hmem
    · exact .inl ⟨⟨package', hmem, hverify, hc⟩, hrange, hthr, hqual'⟩
    · obtain rfl : package' = package := by simpa using hmem
      exact .inr ⟨hverify, hc, hrange, hthr, hqual'⟩
  · have hnew : ∀ i, .disqualify i ∉ before →
        (.disqualify i : DkgCall P S) ∉ before ++ [.submit package] := by
      intro i hi hmem
      rcases List.mem_append.mp hmem with hmem | hmem
      · exact hi hmem
      · exact absurd (List.mem_singleton.mp hmem) (by simp)
    rintro (⟨⟨package', hmem, hverify, hc⟩, hrange, hthr, hqual⟩ |
      ⟨hverify, hc, hrange, hthr, hqual⟩)
    · exact ⟨⟨package', List.mem_append_left _ hmem, hverify, hc⟩, hrange, hthr,
        hnew _ hqual⟩
    · exact ⟨⟨package, List.mem_append_right _ (List.mem_singleton_self _), hverify, hc⟩, hrange,
        hthr, hnew _ hqual⟩

/-- What a disqualification takes from it. -/
lemma takenUp_disqualify {before : List (DkgCall P S)} {i : UInt32}
    {c : DealerCommitment P} :
    TakenUp epoch threshold n (before ++ [.disqualify i]) c ↔
      TakenUp epoch threshold n before c ∧ c.dealerIndex ≠ i := by
  constructor
  · rintro ⟨⟨package, hmem, hverify, hc⟩, hrange, hthr, hqual⟩
    refine ⟨⟨⟨package, ?_, hverify, hc⟩, hrange, hthr, fun h => ?_⟩, ?_⟩
    · rcases List.mem_append.mp hmem with hmem | hmem
      · exact hmem
      · exact absurd (List.mem_singleton.mp hmem) (by simp)
    · exact hqual (List.mem_append_left _ h)
    · rintro rfl
      exact hqual (List.mem_append_right _ (List.mem_singleton_self _))
  · rintro ⟨⟨⟨package, hmem, hverify, hc⟩, hrange, hthr, hqual⟩, hne⟩
    refine ⟨⟨package, List.mem_append_left _ hmem, hverify, hc⟩, hrange, hthr, fun h => ?_⟩
    rcases List.mem_append.mp h with h | h
    · exact hqual h
    · rw [List.mem_singleton, DkgCall.disqualify.injEq] at h
      exact hne h

/-- The participants are those with a slot. -/
lemma mem_participants_iff_slot (calls : List (DkgCall P S)) {i : UInt32} :
    i ∈ participants n ↔
      ∃ idx, slotOf i = some idx ∧ idx < (reach epoch threshold n calls).commitments.length := by
  rw [← (inv_reach epoch threshold n calls).mem_participants_iff,
    (reach_params epoch threshold n calls).2.2]

section Step

variable {before : List (DkgCall P S)}
  (hbefore : ∀ c, c ∈ (reach epoch threshold n before).commitments.reduceOption ↔
    TakenUp epoch threshold n before c)
include hbefore

/-- A package that passes every check and is not recorded carries the commitment that is already
taken up. -/
lemma takenUp_of_not_recorded {package : Round1Package P S}
    (hcons : ConsistentPackages epoch (before ++ [.submit package]))
    (hnot : ((reach epoch threshold n before).submitCommitment package).2 ≠ .ok true)
    (hverify : package.verify epoch = .ok ())
    (hrange : package.commitment.dealerIndex ∈ participants n)
    (hthr : package.commitment.threshold = threshold)
    (hqual : .disqualify package.commitment.dealerIndex ∉ before) :
    TakenUp epoch threshold n before package.commitment := by
  have hinv := inv_reach epoch threshold n before
  obtain ⟨hepoch, hthreshold, -⟩ := reach_params epoch threshold n before
  obtain ⟨idx, hidx, hlt⟩ := (mem_participants_iff_slot before).mp hrange
  have hnotDisq : package.commitment.dealerIndex
      ∉ (reach epoch threshold n before).disqualified := fun hmem =>
    hqual (DkgCall.mem_targets.mp (mem_disqualified_reach.mp hmem)).2
  have hverify' : package.verify (reach epoch threshold n before).epoch = .ok () := by
    rw [hepoch]
    exact hverify
  obtain ⟨c, hc⟩ := exists_slot_of_not_recorded hverify' hnotDisq hidx hlt
    (hthr.trans hthreshold.symm) hnot
  have hmem := List.reduceOption_mem_iff.mpr (List.mem_of_getElem? hc)
  have htaken := (hbefore c).mp hmem
  obtain ⟨package', hsubmit, hproof, rfl⟩ := htaken.submitted
  -- what stands in the slot is of the same dealer
  have hkey := (slotKey_eq_iff (hinv.accepted _ hmem).ne_zero hidx).mp (hinv.indexed idx _ hc)
  have hsame : package'.commitment = package.commitment :=
    hcons package' package (List.mem_append_left _ hsubmit)
      (List.mem_append_right _ (List.mem_singleton_self _)) hproof hverify hkey
  exact hsame ▸ htaken

/-- A submission leaves the commitments that the ceremony takes up. -/
lemma mem_commitments_submit_iff {package : Round1Package P S}
    (hcons : ConsistentPackages epoch (before ++ [.submit package])) {c : DealerCommitment P} :
    c ∈ ((reach epoch threshold n before).submitCommitment package).1.commitments.reduceOption ↔
      TakenUp epoch threshold n (before ++ [.submit package]) c := by
  obtain ⟨hepoch, hthreshold, -⟩ := reach_params epoch threshold n before
  rw [takenUp_submit]
  rcases submitCommitment_cases (reach epoch threshold n before) package with
    ⟨idx, hrec, hs⟩ | ⟨hs, hnot⟩
  · -- recorded: every check passed, and nothing else changed
    have hrange : package.commitment.dealerIndex ∈ participants n :=
      (mem_participants_iff_slot before).mpr ⟨idx, hrec.slotOf_eq, hrec.lt_length⟩
    rw [hs, record, Slots.mem_reduceOption_set_some hrec.empty, hbefore, or_comm]
    refine or_congr_right ⟨?_, fun h => h.2.1.symm⟩
    rintro rfl
    refine ⟨hepoch ▸ hrec.verify, rfl, hrange, ?_, fun hmem => ?_⟩
    · rw [hrec.threshold_eq, hthreshold]
    · exact hrec.notMem_disqualified
        (mem_disqualified_reach.mpr (DkgCall.mem_targets.mpr ⟨hrange, hmem⟩))
  · -- not recorded: the dealer's commitment is there already
    rw [hs, hbefore]
    refine ⟨.inl, ?_⟩
    rintro (h | ⟨hverify, rfl, hrange, hthr, hqual⟩)
    · exact h
    · exact takenUp_of_not_recorded hbefore hcons hnot hverify hrange hthr hqual

/-- So does a disqualification. -/
lemma mem_commitments_disqualify_iff {i : UInt32} {c : DealerCommitment P} :
    c ∈ ((reach epoch threshold n before).disqualify i).1.commitments.reduceOption ↔
      TakenUp epoch threshold n (before ++ [.disqualify i]) c := by
  have hinv := inv_reach epoch threshold n before
  rw [takenUp_disqualify]
  rcases disqualify_cases (reach epoch threshold n before) i with
    ⟨idx, hidx, hlt, hs⟩ | ⟨hout, hs⟩
  · rw [hs, exclude, hinv.indexed.mem_reduceOption_set_none hlt, hbefore]
    exact and_congr_right fun htaken => not_congr
      (slotKey_eq_iff (mem_participants.mp htaken.mem_participants).1 hidx)
  · rw [hs, hbefore]
    refine ⟨fun htaken => ⟨htaken, ?_⟩, fun h => h.1⟩
    rintro rfl
    obtain ⟨idx, hidx, hlt⟩ := (mem_participants_iff_slot before).mp htaken.mem_participants
    exact absurd (hout idx hidx) (not_le.mpr hlt)

end Step

/-- **The commitments of a state are those the ceremony takes up**, whatever the order of the
calls. -/
theorem mem_commitments_reach_iff (hcons : ConsistentPackages epoch calls)
    {c : DealerCommitment P} :
    c ∈ (reach epoch threshold n calls).commitments.reduceOption ↔
      TakenUp epoch threshold n calls c := by
  induction calls using List.reverseRecOn generalizing c with
  | nil =>
    constructor
    · simp [reach, new]
    · rintro ⟨⟨package, hmem, -⟩, -⟩
      exact absurd hmem List.not_mem_nil
  | append_singleton before last ih =>
    have hbefore := fun c => ih (hcons.mono (List.subset_append_left _ _)) (c := c)
    rw [reach_concat]
    cases last with
    | submit package => exact mem_commitments_submit_iff hbefore hcons
    | disqualify i => exact mem_commitments_disqualify_iff hbefore

/-- **Runs with the same calls end in the same state.** -/
theorem reach_congr (hcons : ConsistentPackages epoch calls)
    (hsame : ∀ c, c ∈ calls ↔ c ∈ calls') :
    reach epoch threshold n calls = reach epoch threshold n calls' := by
  have hinv := inv_reach epoch threshold n calls
  have hinv' := inv_reach epoch threshold n calls'
  obtain ⟨hepoch, hthreshold, hn⟩ := reach_params epoch threshold n calls
  obtain ⟨hepoch', hthreshold', hn'⟩ := reach_params epoch threshold n calls'
  have hcons' := hcons.mono fun c => (hsame c).mpr
  have htaken : ∀ c, TakenUp epoch threshold n calls c ↔ TakenUp epoch threshold n calls' c := by
    intro c
    constructor
    · rintro ⟨⟨package, hmem, hpackage⟩, hrange, hthr, hqual⟩
      exact ⟨⟨package, (hsame _).mp hmem, hpackage⟩, hrange, hthr,
        fun h => hqual ((hsame _).mpr h)⟩
    · rintro ⟨⟨package, hmem, hpackage⟩, hrange, hthr, hqual⟩
      exact ⟨⟨package, (hsame _).mpr hmem, hpackage⟩, hrange, hthr,
        fun h => hqual ((hsame _).mp h)⟩
  have hslots : (reach epoch threshold n calls).commitments
      = (reach epoch threshold n calls').commitments := by
    refine hinv.indexed.eq_of_mem_iff hinv'.indexed ?_ fun c => ?_
    · rw [hinv.length_commitments, hinv'.length_commitments, hn, hn']
    · rw [mem_commitments_reach_iff hcons, mem_commitments_reach_iff hcons', htaken]
  have hdisqualified : (reach epoch threshold n calls).disqualified
      = (reach epoch threshold n calls').disqualified := by
    refine Sorted.eq_of_mem_iff hinv.sorted hinv'.sorted hinv.nodup hinv'.nodup fun i => ?_
    rw [mem_disqualified_reach, mem_disqualified_reach, DkgCall.mem_targets,
      DkgCall.mem_targets, hsame]
  cases hs : reach epoch threshold n calls
  cases hs' : reach epoch threshold n calls'
  simp_all

/-! ### Aborts -/

/-- Some disqualification of the run reported `DkgAborted`. -/
def ReportsAbort (epoch : UInt64) (threshold n : UInt32) (calls : List (DkgCall P S)) : Prop :=
  ∃ before i after, calls = before ++ .disqualify i :: after ∧
    ∃ qualified need, ((reach epoch threshold n before).disqualify i).2
      = .err (.dkgAborted qualified need)

/-- A disqualification reports it when its dealer is a participant and too few are left. -/
lemma Inv.disqualify_aborts_iff {s : DkgState P} (h : s.Inv) (i : UInt32) :
    (∃ qualified need, (s.disqualify i).2 = .err (.dkgAborted qualified need)) ↔
      i ∈ participants s.numParticipants ∧
        s.numParticipants.toNat - (s.disqualify i).1.disqualified.length
          < s.threshold.toNat := by
  rcases h.disqualify_eq i with ⟨hrange, hs⟩ | ⟨hrange, hs⟩
  · rw [hs]
    constructor
    · rintro ⟨qualified, need, herr⟩
      exact ⟨hrange, (Outcome.refuse_eq_err_iff.mp herr).1⟩
    · rintro ⟨-, hfew⟩
      exact ⟨_, _, Outcome.refuse_eq_err_iff.mpr ⟨hfew, rfl⟩⟩
  · simp [hs, hrange]

lemma reportsAbort_concat {before : List (DkgCall P S)} {last : DkgCall P S} :
    ReportsAbort epoch threshold n (before ++ [last]) ↔
      ReportsAbort epoch threshold n before ∨ ∃ i, last = .disqualify i ∧
        ∃ qualified need, ((reach epoch threshold n before).disqualify i).2
          = .err (.dkgAborted qualified need) := by
  constructor
  · rintro ⟨before', i, after, heq, habort⟩
    rcases List.eq_nil_or_concat after with rfl | ⟨after, last', rfl⟩
    · obtain ⟨rfl, hlast⟩ := List.append_inj' heq rfl
      exact .inr ⟨i, by simpa using hlast, habort⟩
    · rw [List.concat_eq_append, ← List.cons_append, ← List.append_assoc] at heq
      obtain ⟨rfl, -⟩ := List.append_inj' heq rfl
      exact .inl ⟨before', i, after, rfl, habort⟩
  · rintro (⟨before', i, after, rfl, habort⟩ | ⟨i, rfl, habort⟩)
    · exact ⟨before', i, after ++ [last], by simp, habort⟩
    · exact ⟨before, i, [], rfl, habort⟩

/-- A run reports it exactly when it has disqualified somebody and too few are left at its
end: its last disqualification already finds so. -/
theorem reportsAbort_iff :
    ReportsAbort epoch threshold n calls ↔
      (reach epoch threshold n calls).disqualified ≠ [] ∧
        n.toNat - (reach epoch threshold n calls).disqualified.length < threshold.toNat := by
  induction calls using List.reverseRecOn with
  | nil =>
    constructor
    · rintro ⟨before, i, after, heq, -⟩
      exact absurd heq (by simp)
    · rintro ⟨hne, -⟩
      exact absurd rfl hne
  | append_singleton before last ih =>
    have hinv := inv_reach epoch threshold n before
    obtain ⟨-, hthreshold, hn⟩ := reach_params epoch threshold n before
    rw [reportsAbort_concat, ih, reach_concat]
    cases last with
    | submit package =>
      have hsame : ((reach epoch threshold n before).call (.submit package)).1.disqualified
          = (reach epoch threshold n before).disqualified := by
        rcases submitCommitment_cases (reach epoch threshold n before) package with
          ⟨idx, -, hs⟩ | ⟨hs, -⟩
        all_goals rw [call, hs]
        rfl
      simp [hsame]
    | disqualify i =>
      have hlast : (∃ i', DkgCall.disqualify i = (.disqualify i' : DkgCall P S) ∧
          ∃ qualified need, ((reach epoch threshold n before).disqualify i').2
            = .err (.dkgAborted qualified need)) ↔
          i ∈ participants n ∧
            n.toNat - ((reach epoch threshold n before).disqualify i).1.disqualified.length
              < threshold.toNat := by
        have hiff := hinv.disqualify_aborts_iff i
        rw [hn, hthreshold] at hiff
        rw [← hiff]
        simp
      have hmem := fun j => hinv.mem_disqualified_call (.disqualify i : DkgCall P S) (i := j)
      rw [hlast]
      by_cases hrange : i ∈ participants n
      · -- whoever was disqualified before still is, so no more are left than before
        have hi := (hmem i).mpr (.inr ⟨hn.symm ▸ hrange, rfl⟩)
        have hle := (List.subperm_of_subset hinv.nodup fun j hj =>
          (hmem j).mpr (.inl hj)).length_le
        have hne := List.ne_nil_of_mem hi
        rw [call] at hne hle ⊢
        constructor
        · rintro (⟨-, hfew⟩ | ⟨-, hfew⟩)
          · exact ⟨hne, by omega⟩
          · exact ⟨hne, hfew⟩
        · rintro ⟨-, hfew⟩
          exact .inr ⟨hrange, hfew⟩
      · rcases hinv.disqualify_eq i with ⟨hrange', -⟩ | ⟨-, hs⟩
        · exact absurd (hn ▸ hrange') hrange
        · simp [call, hs, hrange]

end DkgState

namespace Node

variable {epoch : UInt64} {threshold n tallyThreshold : UInt32} {events : List (NodeEvent P S)}

/-- A node after a list of events. -/
def after (epoch : UInt64) (threshold n tallyThreshold : UInt32)
    (events : List (NodeEvent P S)) : Node P :=
  Calls.run step (new epoch threshold n tallyThreshold) events

lemma after_eq : after epoch threshold n tallyThreshold events =
    ⟨DkgState.reach epoch threshold n (NodeEvent.calls events),
      ComplaintTally.tallied tallyThreshold (NodeEvent.triples events)⟩ :=
  run_eq _ _

/-- Some disqualification at the node reported `DkgAborted`, in its run or in the loop at
the end. -/
def Aborts (epoch : UInt64) (threshold n tallyThreshold : UInt32)
    (events : List (NodeEvent P S)) : Prop :=
  DkgState.ReportsAbort epoch threshold n (NodeEvent.calls events) ∨
    ∃ qualified need, (after epoch threshold n tallyThreshold events).finish.2
      = .err (.dkgAborted qualified need)

/-- What two nodes agree on at the end. -/
structure Agree (epoch : UInt64) (threshold n tallyThreshold : UInt32)
    (events events' : List (NodeEvent P S)) (s s' : DkgState P) : Prop where
  commitments_eq : s.commitments = s'.commitments
  disqualified_eq : s.disqualified = s'.disqualified
  aborts_iff : Aborts epoch threshold n tallyThreshold events ↔
    Aborts epoch threshold n tallyThreshold events'
  agreedRound1_eq : s.agreedRound1 = s'.agreedRound1
  deriveGroupKey_eq : s.deriveGroupKey = s'.deriveGroupKey

/-- Nodes that saw the same events are in the same state. -/
theorem after_congr {events' : List (NodeEvent P S)}
    (hcons : ConsistentPackages epoch (NodeEvent.calls events))
    (hsame : ∀ e, e ∈ events ↔ e ∈ events') :
    after epoch threshold n tallyThreshold events
      = after epoch threshold n tallyThreshold events' := by
  have hcalls : ∀ c, c ∈ NodeEvent.calls events ↔ c ∈ NodeEvent.calls events' := fun c => by
    rw [NodeEvent.mem_calls, NodeEvent.mem_calls, hsame]
  have htriples : ∀ triple, triple ∈ NodeEvent.triples events ↔
      triple ∈ NodeEvent.triples events' := fun triple => by
    rw [NodeEvent.mem_triples, NodeEvent.mem_triples, hsame]
  rw [after_eq, after_eq, DkgState.reach_congr hcons hcalls,
    ComplaintTally.tallied_congr htriples]

/-- **Nodes that see the same events converge**, in whatever order each of them sees them and
however often; and the dealers they would disqualify are those that enough distinct accusers,
from 1 on, have an upheld verdict against. -/
theorem nodes_converge (ht : tallyThreshold ≠ 0) {events' : List (NodeEvent P S)}
    (hcons : ConsistentPackages epoch (NodeEvent.calls events))
    (hsame : ∀ e, e ∈ events ↔ e ∈ events') :
    Agree epoch threshold n tallyThreshold events events'
      (after epoch threshold n tallyThreshold events).finish.1
      (after epoch threshold n tallyThreshold events').finish.1 ∧
    ∀ d, d ∈ (after epoch threshold n tallyThreshold events).tally.disqualifiable ↔
      d ≠ 0 ∧ ∃ accusers : Finset UInt32, tallyThreshold.toNat ≤ accusers.card ∧
        ∀ a ∈ accusers, a ≠ 0 ∧ a ≠ d ∧ .verdict (a, d, .upheld) ∈ events := by
  have hafter : after epoch threshold n tallyThreshold events
      = after epoch threshold n tallyThreshold events' := after_congr hcons hsame
  refine ⟨?_, fun d => ?_⟩
  · refine ⟨by rw [hafter], by rw [hafter], ?_, by rw [hafter], by rw [hafter]⟩
    have hstate : DkgState.reach epoch threshold n (NodeEvent.calls events)
        = DkgState.reach epoch threshold n (NodeEvent.calls events') :=
      DkgState.reach_congr hcons fun c => by
        rw [NodeEvent.mem_calls, NodeEvent.mem_calls, hsame]
    rw [Aborts, Aborts, DkgState.reportsAbort_iff, DkgState.reportsAbort_iff, hstate, hafter]
  · rw [after_eq, ComplaintTally.mem_disqualifiable_iff ht]
    simp only [NodeEvent.mem_triples]

end Node

end Convergence

/-! ### The index zero -/

section Zero

open Reference

/-- An upheld verdict of the accuser 0 is not counted. -/
theorem accuser_zero_not_counted :
    ¬∀ (epoch : UInt64) (threshold n tallyThreshold : UInt32)
      (events : List (NodeEvent Residue Residue)), tallyThreshold ≠ 0 →
      ∀ d, d ∈ (Node.after epoch threshold n tallyThreshold events).tally.disqualifiable ↔
        ∃ accusers : Finset UInt32, tallyThreshold.toNat ≤ accusers.card ∧
          ∀ a ∈ accusers, a ≠ d ∧ .verdict (a, d, .upheld) ∈ events := by
  intro hall
  have hiff := hall 7 2 2 1 [.verdict (0, 5, .upheld)] (by decide) 5
  have hmem := hiff.mpr ⟨{0}, by decide, by simp⟩
  rw [Node.after_eq, ComplaintTally.mem_disqualifiable_iff (by decide)] at hmem
  obtain ⟨-, accusers, hcard, haccusers⟩ := hmem
  obtain ⟨a, ha⟩ := Finset.card_pos.mp (lt_of_lt_of_le (by decide) hcard)
  obtain ⟨ha0, -, hverdict⟩ := haccusers a ha
  rw [NodeEvent.mem_triples, List.mem_singleton, NodeEvent.verdict.injEq, Prod.mk.injEq] at hverdict
  exact ha0 hverdict.1

/-- A package and a verdict, in two orders and with a repetition. -/
theorem converge_package_verdict :
    Node.Agree 7 2 2 1
      [.call (.submit (linePackage 1 5 1)), .verdict (2, 1, .upheld)]
      [.verdict (2, 1, .upheld), .call (.submit (linePackage 1 5 1)), .verdict (2, 1, .upheld)]
      (Node.after 7 2 2 1
        [.call (.submit (linePackage 1 5 1)), .verdict (2, 1, .upheld)]).finish.1
      (Node.after 7 2 2 1 [.verdict (2, 1, .upheld), .call (.submit (linePackage 1 5 1)),
        .verdict (2, 1, .upheld)]).finish.1 := by
  refine (Node.nodes_converge (by decide) (fun package package' h h' _ _ _ => ?_) fun e => ?_).1
  · rw [NodeEvent.mem_calls] at h h'
    have heq : package = linePackage 1 5 1 := by simpa using h
    have heq' : package' = linePackage 1 5 1 := by simpa using h'
    rw [heq, heq']
  · simp only [List.mem_cons, List.not_mem_nil, or_false]
    constructor
    · rintro (rfl | rfl)
      · exact .inr (.inl rfl)
      · exact .inl rfl
    · rintro (rfl | rfl | rfl)
      · exact .inr rfl
      · exact .inl rfl
      · exact .inr rfl

end Zero

end Frostito
