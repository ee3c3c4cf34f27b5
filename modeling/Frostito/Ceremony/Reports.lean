import Frostito.Ceremony.Blame

/-!
# What the reports of a tally say

At the end of a ceremony the tally says whom it can disqualify, which dealers were accused by too
few, and who accused without reason.  The second kind is what is left of cheating that the rule
does not reach; the third kind names a participant.  So neither may hit those that follow the
protocol: none of them accuses another, and what one of them has signed, no other that hears it
calls unfounded.
-/

namespace Frostito

section Reports

variable {S P : Type} [CurveScalar S] [CurvePoint P S] [Sha2]

/-- A verdict depends on what is signed. -/
lemma Complaint.adjudicate_congr {x y : Complaint P S} (h : x.content = y.content)
    (agreed : Option (AgreedRound1 P)) : x.adjudicate agreed = y.adjudicate agreed := by
  have hepoch := congrArg Complaint.Content.epoch h
  have hsession := congrArg Complaint.Content.sessionId h
  have hround := congrArg Complaint.Content.round h
  have haccuser := congrArg Complaint.Content.accuserIndex h
  have haccused := congrArg Complaint.Content.accusedIndex h
  have hevidence := congrArg Complaint.Content.evidence h
  simp only [content] at hepoch hsession hround haccuser haccused hevidence
  simp only [adjudicate, hepoch, hsession, hround, haccuser, haccused, hevidence]

namespace Ceremony

variable [Snow]
variable {c : Ceremony P S} {w : World P S} {i j : UInt32}

omit [Snow] in
/-- An accusation carries the evidence it is made with. -/
lemma content_of_accuse {evidence : BadSubShareEvidence} {rng rng' : Rng S}
    {complaint : Complaint P S} (h : c.accuse i evidence rng = .ok (complaint, rng')) :
    complaint.accusedIndex = evidence.dealerIndex ∧
      complaint.evidence = .badSubShare evidence := by
  simp only [accuse, Complaint.sign, Outcome.bind_eq_ok_iff] at h
  obtain ⟨-, -, hc⟩ := h
  obtain ⟨rfl, -⟩ := Prod.mk.inj (Outcome.ok.inj hc)
  exact ⟨rfl, rfl⟩

/-- Whoever reaches a verdict on a complaint of an honest participant upholds it. -/
lemma Reachable.judge_ne_unfounded [LawfulCompress P] [LawfulScalarBytes S]
    {publicOf : X25519Key → X25519Key} (hvalid : c.Valid) (hrostered : c.Rostered publicOf)
    (h : c.Reachable w) (hcollision : ¬c.EchoCollision w) (hj : j ∈ c.honest)
    {complaint : Complaint P S} (hallowed : c.Allows w (.hear complaint))
    (haccuser : complaint.accuserIndex ∈ c.honest) :
    c.judge (w.participant j) complaint ≠ .ok .unfounded := by
  intro hjudge
  obtain ⟨pubkey, hkey, hverify⟩ := Outcome.bind_eq_ok_iff.mp hjudge
  rw [Outcome.okOr_eq_ok_iff] at hkey
  obtain ⟨hauthentic, hadjudicate⟩ := Complaint.verify_eq_ok_iff.mp hverify
  obtain ⟨signed, hsigned, hbody⟩ := hallowed pubkey haccuser hkey hauthentic
  -- it is what the accuser has signed
  have hcontent := Complaint.Content.body_injective scalarBytes_injective hbody
  rw [← Complaint.adjudicate_congr hcontent] at hadjudicate
  obtain ⟨_, _, evidence, _, _, -, -, -, hsign⟩ :=
    (h.accuses hvalid _ haccuser).signed signed hsigned
  obtain ⟨haccused, hevidence⟩ := content_of_accuse hsign
  obtain ⟨-, agreed, hagreed, -, _, hcommit, -⟩ :=
    (Complaint.adjudicate_badSubShare_eq_ok_iff hevidence).mp hadjudicate
  obtain ⟨⟨agreed, aggregator⟩, hround2, rfl⟩ := Option.map_eq_some_iff.mp hagreed
  obtain ⟨hmem, hindex⟩ := AgreedRound1.commitment_eq_ok hcommit
  -- so every participant that has its dealer upholds it
  obtain ⟨-, hupheld⟩ := h.judge_eq_upheld hvalid hrostered hcollision hj ⟨aggregator, hround2⟩ rfl
    haccuser hsigned (haccused ▸ hindex ▸ List.mem_map_of_mem hmem)
  obtain ⟨_, -, hverify'⟩ := Outcome.bind_eq_ok_iff.mp hupheld
  have hboth := (Complaint.verify_eq_ok_iff.mp hverify').2.symm.trans hadjudicate
  exact absurd hboth (by simp)

/-- Tallies are of verdicts, none of which calls an honest participant's complaint unfounded. -/
lemma Reachable.exists_tallied [LawfulCompress P] [LawfulScalarBytes S]
    {publicOf : X25519Key → X25519Key} (hvalid : c.Valid) (hrostered : c.Rostered publicOf)
    (h : c.Reachable w) : ∀ i ∈ c.honest, ∃ triples,
      (w.participant i).tally = ComplaintTally.tallied c.threshold triples ∧
        (¬c.EchoCollision w → ∀ triple ∈ triples, triple.2.2 = .unfounded →
          triple.1 ∉ c.honest) := by
  refine Reachable.invariant (I := fun w => ∀ i ∈ c.honest, ∃ triples,
    (w.participant i).tally = ComplaintTally.tallied c.threshold triples ∧
      (¬c.EchoCollision w → ∀ triple ∈ triples, triple.2.2 = .unfounded →
        triple.1 ∉ c.honest)) ?_ ?_ h
  · exact fun i _ => ⟨[], rfl, fun _ _ hmem => absurd hmem List.not_mem_nil⟩
  · intro w j a p b hbefore ih hj hallowed hacts i hi
    have hearlier : ¬c.EchoCollision (w.after j p b) → ¬c.EchoCollision w := fun hnot hcollision =>
      hnot (hcollision.mono fun _ _ hechoed => World.echoed_after.mpr (.inr hechoed))
    obtain ⟨triples, htally, hhonest⟩ := ih i hi
    by_cases hij : i = j
    · subst hij
      rw [World.participant_after_self]
      cases hacts with
      | record complaint verdict ha hjudge =>
        subst ha
        refine ⟨triples ++ [(complaint.accuserIndex, complaint.accusedIndex, verdict)], ?_,
          fun hnot triple hmem hunfounded haccuser => ?_⟩
        · rw [htally, ComplaintTally.tallied, ComplaintTally.tallied, Calls.run_append]
          rfl
        · rcases List.mem_append.mp hmem with hmem | hmem
          · exact hhonest (hearlier hnot) triple hmem hunfounded haccuser
          · obtain rfl := List.mem_singleton.mp hmem
            obtain rfl : verdict = .unfounded := hunfounded
            exact hbefore.judge_ne_unfounded hvalid hrostered (hearlier hnot) hi hallowed haccuser
              hjudge
      | stay => exact ⟨triples, htally, fun hnot => hhonest (hearlier hnot)⟩
      | calls calls hsubmit => exact ⟨triples, htally, fun hnot => hhonest (hearlier hnot)⟩
      | echo agreed hagreed => exact ⟨triples, htally, fun hnot => hhonest (hearlier hnot)⟩
      | confirm peers agreed aggregator ha hechoed henter =>
        exact ⟨triples, htally, fun hnot => hhonest (hearlier hnot)⟩
      | accept agreed aggregator subshare hround2 =>
        exact ⟨triples, htally, fun hnot => hhonest (hearlier hnot)⟩
      | accuse sealedShare agreed aggregator evidence complaint rng rng' hround2 hevidence hsign =>
        exact ⟨triples, htally, fun hnot => hhonest (hearlier hnot)⟩
    · rw [World.participant_after_of_ne hij]
      exact ⟨triples, htally, fun hnot => hhonest (hearlier hnot)⟩

/-- **The reports are right about those that follow the protocol.**  In every state that can be
reached, the accused dealers stand in exactly one of the two lists of an honest participant's
tally, sorted, each with all its accusers; and unless two published sets collide, no honest
participant is flagged, and an honest dealer is accused by others only. -/
theorem Reachable.reports [LawfulCompress P] [LawfulScalarBytes S]
    {publicOf : X25519Key → X25519Key} {log : Set Sealing} (hvalid : c.Valid)
    (hrostered : c.Rostered publicOf) (hseals : c.SealsOwn publicOf log)
    (hnoise : IdealNoise publicOf log) (h : c.Reachable w) (hj : j ∈ c.honest) :
    (w.participant j).tally.ReportsPartition ∧
      (c.EchoCollision w ∨
        (∀ a ∈ (w.participant j).tally.flaggedAccusers, a ∉ c.honest) ∧
        ∀ d ∈ c.honest, ∀ a ∈ (w.participant j).tally.accusers d, a ∉ c.honest) := by
  obtain ⟨triples, htally, hhonest⟩ := h.exists_tallied hvalid hrostered j hj
  refine ⟨htally ▸ ComplaintTally.nonvoid_tallied.reportsPartition, ?_⟩
  by_cases hcollision : c.EchoCollision w
  · exact .inl hcollision
  refine .inr ⟨fun a ha => ?_, fun d hd a ha haccuser => ?_⟩
  · rw [ComplaintTally.mem_flaggedAccusers, htally, ComplaintTally.mem_flagged_tallied] at ha
    obtain ⟨triple, hmem, -, rfl, hunfounded⟩ := ha
    exact hhonest hcollision triple hmem hunfounded
  · obtain ⟨signed, hsigned, rfl⟩ :=
      ((h.accuses hvalid j hj).accusers d a (ComplaintTally.mem_accusers.mp ha)).2 haccuser
    exact h.accused_notMem_honest hvalid hrostered hseals hnoise hcollision haccuser hsigned hd

end Ceremony

end Reports

section Three

open Reference Ceremony

local instance cheatingNoise : Snow := badNoise

/-- The participants 1 and 2 have accused 3, and participant 1 hears both accusations. -/
theorem reports_three : ∃ w x y, three.Reachable w ∧ w.Signed 1 x ∧ w.Signed 2 y ∧
    ((three.hearAll 1 w [x, y]).participant 1).tally.ReportsPartition ∧
      (three.EchoCollision (three.hearAll 1 w [x, y]) ∨
        (∀ a ∈ ((three.hearAll 1 w [x, y]).participant 1).tally.flaggedAccusers,
          a ∉ three.honest) ∧
        ∀ d ∈ three.honest, ∀ a ∈ ((three.hearAll 1 w [x, y]).participant 1).tally.accusers d,
          a ∉ three.honest) := by
  obtain ⟨w, hsteps, haccused⟩ := exists_accusations
  have hone : (1 : UInt32) ∈ three.honest := Finset.mem_insert_self _ _
  have htwo : (2 : UInt32) ∈ three.honest := Finset.mem_insert_of_mem (Finset.mem_singleton_self _)
  obtain ⟨-, x, hx, hxaccuser, -⟩ := haccused 1 hone
  obtain ⟨-, y, hy, hyaccuser, -⟩ := haccused 2 htwo
  have hreachable := reachable_of_steps hsteps
  have hheard : three.Reachable (three.hearAll 1 w [x, y]) := by
    refine hreachable.hearAll hone fun z hz => ?_
    rcases List.mem_pair.mp hz with rfl | rfl
    · rwa [hxaccuser]
    · rwa [hyaccuser]
  exact ⟨w, x, y, hreachable, hx, hy,
    hheard.reports valid_three rostered_three sealsOwn_three idealNoise_badNoise hone⟩

end Three

end Frostito
