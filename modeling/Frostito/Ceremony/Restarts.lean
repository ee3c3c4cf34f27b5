import Mathlib.Order.Interval.Finset.Nat
import Frostito.Ceremony.Agreement

/-!
# How often a participant starts round 2 again

A participant that disqualifies dealers publishes the digest of what is left and starts round 2
again.  Each set that it publishes is contained in those that it published before, and lacks only
dealers that it has disqualified.  So among sets of at least the threshold it has no more to
choose from than participants above the threshold, and one.
-/

namespace Frostito

namespace World

variable {S P : Type}

/-- The sets whose digests participant `j` has published, the last one first. -/
def echoes (w : World P S) (j : UInt32) : List (AgreedRound1 P) :=
  w.published.filterMap fun entry =>
    match entry.2 with
    | .echo agreed => if entry.1 = j then some agreed else none
    | .complaint _ => none

variable {w : World P S} {i j : UInt32} {p : Participant P S} {agreed : AgreedRound1 P}

lemma mem_echoes : agreed ∈ w.echoes j ↔ w.Echoed j agreed := by
  rw [echoes, List.mem_filterMap, Echoed]
  constructor
  · rintro ⟨⟨i, b⟩, hmem, hb⟩
    cases b with
    | echo agreed' =>
      obtain ⟨rfl, hagreed⟩ := Option.ite_none_right_eq_some.mp hb
      rwa [Option.some.inj hagreed] at hmem
    | complaint _ => exact absurd hb (by simp)
  · intro hmem
    exact ⟨_, hmem, if_pos rfl⟩

/-- A set that is published goes to the front. -/
lemma echoes_after_echo : (w.after j p (some (.echo agreed))).echoes j = agreed :: w.echoes j := by
  simp [echoes, after]

lemma echoes_after_of_ne {b : Option (Broadcast P S)} (h : i ≠ j) :
    (w.after j p b).echoes i = w.echoes i := by
  cases b with
  | none => rfl
  | some b => cases b <;> simp [echoes, after, h.symm]

lemma echoes_after_quiet {b : Option (Broadcast P S)} (h : ∀ agreed, b ≠ some (.echo agreed)) :
    (w.after j p b).echoes i = w.echoes i := by
  cases b with
  | none => rfl
  | some b =>
    cases b with
    | echo agreed => exact absurd rfl (h agreed)
    | complaint _ => simp [echoes, after]

end World

section Restarts

variable {S P : Type} [CurveScalar S] [CurvePoint P S] [Sha2]

namespace Ceremony

variable {c : Ceremony P S} {w : World P S} {i j : UInt32} {agreed : AgreedRound1 P}

/-- What holds of the sets that a participant has published. -/
structure Descends (w : World P S) (j : UInt32) (p : Participant P S) : Prop where
  pairwise : (w.echoes j).Pairwise fun later earlier => later.commitments ⊆ earlier.commitments
  last : p.echoed = (w.echoes j).head?

omit [CurveScalar S] [CurvePoint P S] [Sha2] in
lemma Descends.congr {w' : World P S} {p p' : Participant P S} (h : Descends w j p)
    (hechoes : w'.echoes j = w.echoes j) (hlast : p'.echoed = p.echoed) : Descends w' j p' :=
  ⟨hechoes ▸ h.pairwise, hlast.trans (hechoes ▸ h.last)⟩

/-- What is published next is contained in all of them. -/
lemma Descends.echo {p : Participant P S} (h : Descends w j p) (hkeeps : c.Keeps w j p)
    (hagreed : p.state.agreedRound1 = .ok agreed) :
    Descends (w.after j { p with echoed := some agreed, round2 := none } (some (.echo agreed))) j
      { p with echoed := some agreed, round2 := none } := by
  obtain ⟨-, heq⟩ := hkeeps.attains.inv.agreedRound1_eq_ok_iff.mp hagreed
  have hcommitments : p.state.commitments.reduceOption = agreed.commitments := by rw [heq]
  refine ⟨?_, ?_⟩
  · rw [World.echoes_after_echo]
    refine List.pairwise_cons.mpr ⟨fun earlier hearlier => ?_, h.pairwise⟩
    exact hcommitments ▸ (hkeeps.published earlier (World.mem_echoes.mp hearlier)).2.2
  · rw [World.echoes_after_echo, List.head?_cons]

variable [Snow]

/-- **Every honest participant's sets descend.** -/
theorem Reachable.descends (hvalid : c.Valid) (h : c.Reachable w) :
    ∀ i ∈ c.honest, Descends w i (w.participant i) := by
  refine Reachable.invariant (I := fun w => ∀ i ∈ c.honest, Descends w i (w.participant i)) ?_ ?_ h
  · exact fun i _ => ⟨List.Pairwise.nil, rfl⟩
  · intro w j a p b hbefore ih hj hallowed hacts i hi
    by_cases hij : i = j
    · subst hij
      rw [World.participant_after_self]
      have hp := ih i hi
      cases hacts with
      | echo agreed hagreed => exact hp.echo (hbefore.keeps hvalid i hi) hagreed
      | stay => exact hp.congr (World.echoes_after_quiet (by simp)) rfl
      | calls calls hsubmit => exact hp.congr (World.echoes_after_quiet (by simp)) rfl
      | confirm peers agreed aggregator ha hechoed henter =>
        exact hp.congr (World.echoes_after_quiet (by simp)) rfl
      | accept agreed aggregator subshare hround2 =>
        exact hp.congr (World.echoes_after_quiet (by simp)) rfl
      | accuse sealedShare agreed aggregator evidence complaint rng rng' hround2 hevidence hsign =>
        exact hp.congr (World.echoes_after_quiet (by simp)) rfl
      | record complaint verdict ha hjudge =>
        exact hp.congr (World.echoes_after_quiet (by simp)) rfl
    · rw [World.participant_after_of_ne hij]
      exact (ih i hi).congr (World.echoes_after_of_ne hij) rfl

/-- Of two sets that a participant has published one contains the other. -/
lemma Reachable.comparable (hvalid : c.Valid) (h : c.Reachable w) (hj : j ∈ c.honest)
    {agreed' : AgreedRound1 P} (hechoed : agreed ∈ w.echoes j) (hechoed' : agreed' ∈ w.echoes j) :
    agreed.commitments ⊆ agreed'.commitments ∨ agreed'.commitments ⊆ agreed.commitments := by
  have hpairwise := (h.descends hvalid j hj).pairwise
  exact List.Pairwise.forall_of_forall_of_flip
    (R := fun a b : AgreedRound1 P =>
      a.commitments ⊆ b.commitments ∨ b.commitments ⊆ a.commitments)
    (fun _ _ => .inl (List.Subset.refl _)) (hpairwise.imp .inl) (hpairwise.imp .inr) hechoed
    hechoed'

/-- Sets of one size are the same. -/
lemma Reachable.eq_of_length_eq (hvalid : c.Valid) (h : c.Reachable w) (hj : j ∈ c.honest)
    {agreed' : AgreedRound1 P} (hechoed : agreed ∈ w.echoes j) (hechoed' : agreed' ∈ w.echoes j)
    (hlen : agreed.dealerSet.length = agreed'.dealerSet.length) : agreed = agreed' := by
  have hpublishable := ((h.keeps hvalid j hj).published agreed (World.mem_echoes.mp hechoed)).1
  have hpublishable' := ((h.keeps hvalid j hj).published agreed' (World.mem_echoes.mp hechoed')).1
  -- a set without repetitions is all of a set of its size that it is contained in
  have hback : ∀ {a b : AgreedRound1 P}, c.Publishable S a → a.commitments ⊆ b.commitments →
      a.dealerSet.length = b.dealerSet.length → b.commitments ⊆ a.commitments := by
    intro a b ha hsub hlen
    have hsubperm := List.subperm_of_subset ha.valid.nodup_dealerSet.of_map hsub
    rw [AgreedRound1.dealerSet, AgreedRound1.dealerSet, List.length_map, List.length_map] at hlen
    exact (hsubperm.perm_of_length_le hlen.ge).symm.subset
  rcases h.comparable hvalid hj hechoed hechoed' with hsub | hsub
  · exact hpublishable.eq_of_subset hpublishable' hsub (hback hpublishable hsub hlen)
  · exact hpublishable.eq_of_subset hpublishable' (hback hpublishable' hsub hlen.symm) hsub

/-- Whoever is not in a published set was disqualified. -/
lemma Reachable.disqualified_of_notMem (hvalid : c.Valid) (h : c.Reachable w) (hj : j ∈ c.honest)
    (hechoed : agreed ∈ w.echoes j) {d : UInt32} (hd : d ∈ participants c.numParticipants)
    (hnot : d ∉ agreed.dealerSet) : d ∈ (w.participant j).state.disqualified := by
  have hkeeps := h.keeps hvalid j hj
  obtain ⟨-, hcomplete, hsub⟩ := hkeeps.published agreed (World.mem_echoes.mp hechoed)
  rw [← hkeeps.attains.params.2.2] at hd
  rcases hkeeps.attains.inv.isComplete_iff_forall.mp hcomplete d hd with hqualified | hdisq
  · exact absurd (List.map_subset _ hsub hqualified) hnot
  · exact hdisq

/-- **Restarts are bounded.**  In every state that can be reached, the sets that an honest
participant has published descend, round 2 goes on with the last of them, whoever is missing from
one was disqualified, and no more different ones have as many dealers as the threshold than there
are sizes from the threshold to the number of participants. -/
theorem Reachable.restarts_bounded (hvalid : c.Valid) (h : c.Reachable w) (hj : j ∈ c.honest) :
    (w.echoes j).Pairwise (fun later earlier => later.commitments ⊆ earlier.commitments) ∧
    (∀ agreed, InRound2 w j agreed → (w.echoes j).head? = some agreed) ∧
    (∀ agreed ∈ w.echoes j, ∀ d ∈ participants c.numParticipants, d ∉ agreed.dealerSet →
      d ∈ (w.participant j).state.disqualified) ∧
    ∀ sets : List (AgreedRound1 P), sets.Nodup → sets ⊆ w.echoes j →
      (∀ agreed ∈ sets, c.threshold.toNat ≤ agreed.dealerSet.length) →
      sets.length ≤ c.numParticipants.toNat + 1 - c.threshold.toNat := by
  have hdescends := h.descends hvalid j hj
  have hkeeps := h.keeps hvalid j hj
  refine ⟨hdescends.pairwise, fun agreed hround2 => ?_,
    fun agreed hechoed d hd hnot => h.disqualified_of_notMem hvalid hj hechoed hd hnot,
    fun sets hnd hsub hmany => ?_⟩
  · obtain ⟨aggregator, hround2⟩ := hround2
    rw [← hdescends.last, (hkeeps.confirmed agreed aggregator hround2).1]
  · have hsizes : (sets.map fun agreed => agreed.dealerSet.length).Nodup :=
      hnd.map_on fun a ha b hb hlen => h.eq_of_length_eq hvalid hj (hsub ha) (hsub hb) hlen
    have hrange : (sets.map fun agreed => agreed.dealerSet.length).toFinset
        ⊆ Finset.Icc c.threshold.toNat c.numParticipants.toNat := by
      intro n hn
      obtain ⟨agreed, hmem, rfl⟩ := List.mem_map.mp (List.mem_toFinset.mp hn)
      have hpublishable := (hkeeps.published agreed (World.mem_echoes.mp (hsub hmem))).1
      have hle := (List.subperm_of_subset hpublishable.valid.nodup_dealerSet
        hpublishable.dealerSet_subset).length_le
      rw [length_participants] at hle
      exact Finset.mem_Icc.mpr ⟨hmany agreed hmem, hle⟩
    have hcard := Finset.card_le_card hrange
    rwa [List.toFinset_card_of_nodup hsizes, List.length_map, Nat.card_Icc] at hcard

end Ceremony

end Restarts

open Reference Ceremony in
/-- Two participants that go on without the third have published one set of theirs. -/
theorem restarts_bounded_three : ∃ w, three.Reachable w ∧ ∀ j ∈ three.honest,
    (w.echoes j).head? = some (three.agreedOn [1, 2]) ∧
      3 ∈ (w.participant j).state.disqualified ∧
      ∀ sets : List (AgreedRound1 Residue), sets.Nodup → sets ⊆ w.echoes j →
        (∀ agreed ∈ sets, 2 ≤ agreed.dealerSet.length) → sets.length ≤ 2 := by
  obtain ⟨w, hsteps, hentered⟩ := exists_entered (w := three.init) remaining_three.permits_spares
    valid_three remaining_three fun _ hj => spared_start valid_three hj
  have hreachable : three.Reachable w := reachable_of_steps hsteps
  refine ⟨w, hreachable, fun j hj => ?_⟩
  obtain ⟨-, hlast, hmissing, hbound⟩ := hreachable.restarts_bounded valid_three hj
  obtain ⟨fresh, deliveries, -, hround2, -⟩ := hentered j hj
  have hhead := hlast _ ⟨_, hround2⟩
  refine ⟨hhead, hmissing _ (List.mem_of_mem_head? hhead) 3
    (mem_participants_three.mpr (.inr (.inr rfl))) ?_, hbound⟩
  rw [remaining_three.dealerSet_agreedOn]
  decide

end Frostito
