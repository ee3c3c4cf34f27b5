import Frostito.Ceremony.Agreement

/-!
# Whom the complaints name

An honest participant signs a complaint only when a package that it opened fails the check against
the set it has confirmed, and an honest dealer seals only what passes it: the digests bind its own
commitment into every set that is confirmed.  So whoever accuses an honest dealer does not follow
the protocol, and fewer than the threshold of those do not get a dealer disqualified.  The
complaints of as many honest participants do, at every participant that hears them.
-/

namespace Frostito

/-! ### Tallies -/

namespace ComplaintTally

variable {t : ComplaintTally} {a d : UInt32}

/-- Enough accusers make a dealer disqualifiable. -/
lemma mem_disqualifiable_of_le_card (ht : t.threshold ≠ 0)
    (h : t.threshold.toNat ≤ (t.accusersOf d).card) : d ∈ t.disqualifiable := by
  have hpos := Nat.pos_of_ne_zero (toNat_ne_zero_iff.mpr ht)
  obtain ⟨a, ha⟩ := Finset.card_pos.mp (hpos.trans_le h)
  rw [disqualifiable, List.mem_filter, Finset.mem_sort, Finmap.mem_keys, reached,
    decide_eq_true_eq, count_eq_card]
  refine ⟨?_, h⟩
  by_contra hnot
  rw [accusersOf, Finmap.lookup_eq_none.mpr hnot] at ha
  simp at ha

/-- The accusers after some verdicts. -/
lemma mem_accusersOf_run {triples : List VerdictTriple} :
    a ∈ (Calls.run recordTriple t triples).accusersOf d ↔
      a ∈ t.accusersOf d ∨ (Counts (a, d, .upheld) ∧ (a, d, .upheld) ∈ triples) := by
  induction triples generalizing t with
  | nil => simp
  | cons triple triples ih =>
    rw [Calls.run_cons, ih, mem_accusersOf_record, or_assoc, List.mem_cons, and_or_left]
    refine or_congr_right (or_congr_left ⟨?_, ?_⟩)
    · rintro ⟨hcounts, rfl⟩
      exact ⟨hcounts, rfl⟩
    · rintro ⟨hcounts, rfl⟩
      exact ⟨hcounts, rfl⟩

end ComplaintTally

section Blame

variable {S P : Type} [CurveScalar S] [CurvePoint P S] [Sha2]

/-! ### A dealer's own slot -/

namespace DkgState

/-- The participant's commitment stands in its slot, unless it was disqualified. -/
def Owns (s : DkgState P) (i : UInt32) (commitment : DealerCommitment P) : Prop :=
  i ∈ s.disqualified ∨
    ∃ idx, slotOf i = some idx ∧ s.commitments[idx]? = some (some commitment)

variable {s : DkgState P} {i : UInt32} {commitment : DealerCommitment P}

/-- No call puts another commitment there. -/
lemma Owns.call (h : s.Owns i commitment) (call : DkgCall P S) :
    (s.call call).1.Owns i commitment := by
  cases call with
  | submit package =>
    rw [DkgState.call]
    rcases submitCommitment_cases s package with ⟨idx', hrec, hs⟩ | ⟨hs, -⟩
    · rw [hs]
      rcases h with hdisq | ⟨idx, hidx, hslot⟩
      · exact .inl hdisq
      refine .inr ⟨idx, hidx, ?_⟩
      have hne : idx' ≠ idx := by
        rintro rfl
        exact absurd (hrec.empty.symm.trans hslot) (by simp)
      simp only [record]
      rwa [List.getElem?_set_ne hne]
    · rwa [hs]
  | disqualify i' =>
    rw [DkgState.call]
    rcases disqualify_cases s i' with ⟨idx', hidx', -, hs⟩ | ⟨-, hs⟩
    · rw [hs]
      by_cases hi : i = i'
      · exact .inl (mem_disqualified_exclude.mpr (.inr hi))
      · rcases h with hdisq | ⟨idx, hidx, hslot⟩
        · exact .inl (mem_disqualified_exclude.mpr (.inl hdisq))
        refine .inr ⟨idx, hidx, ?_⟩
        have hne : idx' ≠ idx := by
          rintro rfl
          refine hi (UInt32.toNat_inj.mp ?_)
          rw [slotOf_eq_some_iff.mp hidx, slotOf_eq_some_iff.mp hidx']
        simp only [exclude]
        rwa [List.getElem?_set_ne hne]
    · rwa [hs]

/-- A commitment of that participant is the one in the slot. -/
lemma Owns.eq_of_mem (h : s.Owns i commitment) (hinv : s.Inv) {d : DealerCommitment P}
    (hd : d ∈ s.commitments.reduceOption) (hindex : d.dealerIndex = i) : d = commitment := by
  rcases h with hdisq | ⟨idx, hidx, hslot⟩
  · exact absurd (hindex ▸ hdisq) (hinv.accepted d hd).notMem_disqualified
  · have hget := hinv.indexed.mem_reduceOption_iff.mp hd
    rw [(slotKey_eq_iff (hinv.accepted d hd).ne_zero hidx).mpr hindex, hslot] at hget
    exact (Option.some.inj (Option.some.inj hget)).symm

omit [CurveScalar S] [Sha2] [CurvePoint P S] in
/-- The loop disqualifies nobody but those it is given. -/
lemma mem_disqualified_disqualifyAll {ds : List UInt32} {j : UInt32}
    (h : j ∈ (s.disqualifyAll ds).1.disqualified) : j ∈ s.disqualified ∨ j ∈ ds := by
  induction ds generalizing s with
  | nil => exact .inl h
  | cons d ds ih =>
    have hone : ∀ j, j ∈ (s.disqualify d).1.disqualified → j ∈ s.disqualified ∨ j = d := by
      intro j hj
      rcases disqualify_cases s d with ⟨idx, -, -, hs⟩ | ⟨-, hs⟩
      · exact mem_disqualified_exclude.mp (hs ▸ hj)
      · exact .inl (hs ▸ hj)
    rw [disqualifyAll] at h
    split at h
    · rcases ih h with hj | hj
      · exact (hone j hj).imp id fun hj => List.mem_cons.mpr (.inl hj)
      · exact .inr (List.mem_cons_of_mem d hj)
    all_goals exact (hone j h).imp id fun hj => List.mem_cons.mpr (.inl hj)

/-- One disqualification of a participant. -/
lemma Inv.mem_disqualified_disqualify (h : s.Inv) {d : UInt32}
    (hd : d ∈ participants s.numParticipants) {j : UInt32} :
    j ∈ (s.disqualify d).1.disqualified ↔ j ∈ s.disqualified ∨ j = d := by
  have hcall := h.mem_disqualified_call (.disqualify d : DkgCall P S) (i := j)
  rw [DkgCall.disqualify.injEq] at hcall
  refine hcall.trans (or_congr_right ⟨fun hj => hj.2.symm, ?_⟩)
  rintro rfl
  exact ⟨hd, rfl⟩

/-- Whoever is disqualified stays so. -/
lemma Inv.disqualified_subset_disqualifyAll (h : s.Inv) (ds : List UInt32) :
    s.disqualified ⊆ (s.disqualifyAll ds).1.disqualified := by
  intro j hj
  obtain ⟨done, hdone⟩ := Ceremony.exists_disqualifyAll_eq (S := S) s ds
  rw [hdone]
  exact (Calls.run_invariant (I := fun s : DkgState P => s.Inv ∧ j ∈ s.disqualified) ⟨h, hj⟩
    fun call _ s hs => ⟨hs.1.call call, (hs.1.mem_disqualified_call call).mpr (.inl hs.2)⟩).2

/-- The loop gets to whoever stands behind participants only, unless it aborts. -/
lemma Inv.mem_disqualifyAll (h : s.Inv) {before : List UInt32} {d : UInt32}
    (hbefore : before ⊆ participants s.numParticipants) (hd : d ∈ participants s.numParticipants)
    (after : List UInt32) :
    (∃ qualified need,
        (s.disqualifyAll (before ++ d :: after)).2 = .err (.dkgAborted qualified need)) ∨
      d ∈ (s.disqualifyAll (before ++ d :: after)).1.disqualified := by
  induction before generalizing s with
  | nil =>
    have hmem : d ∈ (s.disqualify d).1.disqualified :=
      (h.mem_disqualified_disqualify (S := S) hd).mpr (.inr rfl)
    rw [List.nil_append, disqualifyAll]
    split
    · exact .inr ((h.disqualify d).disqualified_subset_disqualifyAll (S := S) after hmem)
    all_goals exact .inr hmem
  | cons i before ih =>
    obtain ⟨hi, hbefore⟩ := List.cons_subset.mp hbefore
    have hn : (s.disqualify i).1.numParticipants = s.numParticipants :=
      congrArg (fun p => p.2.2) (params_call s (.disqualify i : DkgCall P S))
    rcases h.disqualify_eq i with ⟨-, hresult⟩ | ⟨hout, -⟩
    · rw [List.cons_append, disqualifyAll]
      split
      · exact ih (h.disqualify i) (hn ▸ hbefore) (hn ▸ hd)
      · next e herr =>
        rw [hresult, Outcome.refuse_eq_err_iff] at herr
        exact .inl ⟨_, _, congrArg Outcome.err herr.2.symm⟩
      · next hpanic => exact absurd (hresult.symm.trans hpanic) (Outcome.refuse_ne_panic _ _)
    · exact absurd hi hout

end DkgState

namespace Ceremony

variable [Snow]

/-- The roster has an identity key for participants only, and the keys of the honest ones. -/
structure Rostered (c : Ceremony P S) (publicOf : X25519Key → X25519Key) : Prop where
  identityKey_mem : ∀ i, c.identityKey i ≠ none → i ∈ participants c.numParticipants
  identityKey_eq : ∀ i ∈ c.honest,
    c.identityKey i = some ((c.contribution i).identitySecret • (generator : P))
  publicKey_eq : ∀ i ∈ c.honest,
    c.roster.publicKey i = .ok (publicOf (c.contribution i).x25519Secret)

/-- What an honest dealer seals for this ceremony and round are its own sub-shares, under its own
commitment. -/
def SealsOwn (c : Ceremony P S) (publicOf : X25519Key → X25519Key) (log : Set Sealing) : Prop :=
  ∀ i ∈ c.honest, ∀ e ∈ log, publicOf e.localPrivate = publicOf (c.contribution i).x25519Secret →
    e.prologue = c.roster.prologue c.round →
    ∃ (index : UInt32) (subshare : SubShare S) (ephemeral : X25519Key) (package : SealedSubShare),
      (c.contribution i).dealer.generateSubshare index = .ok subshare ∧
      e.SealedBy e.localPrivate c.roster c.round subshare (c.contribution i).dealer.commitment
        ephemeral package

/-- A complaint that participant `i` signed about evidence that it was handed in round 2. -/
def Witnessed (c : Ceremony P S) (w : World P S) (i : UInt32) (complaint : Complaint P S) :
    Prop :=
  ∃ (agreed : AgreedRound1 P) (sealedShare : SealedSubShare) (evidence : BadSubShareEvidence)
    (rng rng' : Rng S), w.Echoed i agreed ∧
    (∀ k ∈ c.honest, ∃ theirs, w.Echoed k theirs ∧ theirs.digest = agreed.digest) ∧
    openSubshareAgreedWithEvidence (S := S) (c.contribution i).x25519Secret i c.roster c.round
      sealedShare agreed = .err (.badSubShare evidence) ∧
    c.accuse i evidence rng = .ok (complaint, rng')

variable {c : Ceremony P S} {w w' : World P S} {i j : UInt32}

/-! ### The complaints of honest participants -/

lemma Witnessed.mono {complaint : Complaint P S} (h : c.Witnessed w i complaint)
    (hall : ∀ k agreed, w.Echoed k agreed → w'.Echoed k agreed) :
    c.Witnessed w' i complaint := by
  obtain ⟨agreed, sealedShare, evidence, rng, rng', hechoed, hothers, hopen, hsign⟩ := h
  refine ⟨agreed, sealedShare, evidence, rng, rng', hall i agreed hechoed, fun k hk => ?_, hopen,
    hsign⟩
  obtain ⟨theirs, htheirs, hdigest⟩ := hothers k hk
  exact ⟨theirs, hall k theirs htheirs, hdigest⟩

/-- What holds of an honest participant besides `Keeps`. -/
structure Accuses (c : Ceremony P S) (w : World P S) (j : UInt32) (p : Participant P S) : Prop
    where
  owns : p.state.Owns j (c.contribution j).dealer.commitment
  own_echoed : ∀ agreed, w.Echoed j agreed → ∀ d ∈ agreed.commitments, d.dealerIndex = j →
    d = (c.contribution j).dealer.commitment
  signed : ∀ complaint, w.Signed j complaint → c.Witnessed w j complaint
  threshold_eq : p.tally.threshold = c.threshold
  accusers : ∀ d, ∀ a ∈ p.tally.accusersOf d, c.identityKey a ≠ none ∧
    (a ∈ c.honest → ∃ signed, w.Signed a signed ∧ signed.accusedIndex = d)

/-- It keeps holding when more is published, of which nothing is its own. -/
lemma Accuses.mono {p : Participant P S} (h : c.Accuses w j p)
    (hown : ∀ agreed, w'.Echoed j agreed → w.Echoed j agreed)
    (hownSigned : ∀ complaint, w'.Signed j complaint → w.Signed j complaint)
    (hall : ∀ k agreed, w.Echoed k agreed → w'.Echoed k agreed)
    (hallSigned : ∀ k complaint, w.Signed k complaint → w'.Signed k complaint) :
    c.Accuses w' j p := by
  refine ⟨h.owns, fun agreed hagreed => h.own_echoed agreed (hown agreed hagreed),
    fun complaint hsigned => (h.signed complaint (hownSigned complaint hsigned)).mono hall,
    h.threshold_eq, fun d a ha => ⟨(h.accusers d a ha).1, fun hhonest => ?_⟩⟩
  obtain ⟨signed, hsigned, haccused⟩ := (h.accusers d a ha).2 hhonest
  exact ⟨signed, hallSigned a signed hsigned, haccused⟩

omit [Snow] in
lemma Valid.owns_start (hvalid : c.Valid) (hj : j ∈ c.honest) :
    (c.start j).state.Owns j (c.contribution j).dealer.commitment := by
  obtain ⟨hhonest, hindex, hlength, hcommit, hverify⟩ := hvalid.honest_dealer hj
  obtain ⟨idx, hidx, hlt⟩ :=
    (DkgState.inv_new (P := P) c.epoch c.threshold c.numParticipants).mem_participants_iff.mp
      (hvalid.honest_subset j hj)
  have hrec : (DkgState.new c.epoch c.threshold c.numParticipants).Records idx
      (c.contribution j).package := by
    refine ⟨hverify, List.not_mem_nil, ?_, ?_, ?_⟩
    · rw [hcommit, hhonest.dealerIndex_eq, hindex, hidx]
    · rw [hcommit, DealerCommitment.threshold, hhonest.coefficients_eq, List.length_map, hlength,
        UInt32.ofNat_toNat]
      rfl
    · rw [DkgState.new, List.length_replicate] at hlt
      simp [DkgState.new, hlt]
  refine .inr ⟨idx, hidx, ?_⟩
  rw [start, hrec.submitCommitment_eq, hcommit]
  exact List.getElem?_set_self hlt

omit [Snow] in
/-- A verdict that is recorded is on a complaint that an honest accuser has signed. -/
lemma exists_signed_of_judge [LawfulCompress P] [LawfulScalarBytes S] {p : Participant P S}
    {complaint : Complaint P S} {verdict : ComplaintVerdict}
    (hallowed : c.Allows w (.hear complaint)) (hjudge : c.judge p complaint = .ok verdict) :
    c.identityKey complaint.accuserIndex ≠ none ∧ (complaint.accuserIndex ∈ c.honest →
      ∃ signed, w.Signed complaint.accuserIndex signed ∧
        signed.accusedIndex = complaint.accusedIndex) := by
  obtain ⟨pubkey, hkey, hverify⟩ := Outcome.bind_eq_ok_iff.mp hjudge
  rw [Outcome.okOr_eq_ok_iff] at hkey
  refine ⟨by simp [hkey], fun hhonest => ?_⟩
  obtain ⟨signed, hsigned, hbody⟩ :=
    hallowed pubkey hhonest hkey (Complaint.verify_eq_ok_iff.mp hverify).1
  have hcontent := Complaint.Content.body_injective scalarBytes_injective hbody
  exact ⟨signed, hsigned, congrArg Complaint.Content.accusedIndex hcontent⟩

/-- **Every honest participant keeps that.** -/
theorem Reachable.accuses [LawfulCompress P] [LawfulScalarBytes S] (hvalid : c.Valid)
    (h : c.Reachable w) : ∀ i ∈ c.honest, c.Accuses w i (w.participant i) := by
  refine Reachable.invariant (I := fun w => ∀ i ∈ c.honest, c.Accuses w i (w.participant i)) ?_ ?_
    h
  · intro i hi
    refine ⟨hvalid.owns_start hi, fun agreed hechoed => absurd hechoed List.not_mem_nil,
      fun complaint hsigned => absurd hsigned List.not_mem_nil, rfl, fun d a ha => ?_⟩
    exact absurd ha (by simp [init, start, ComplaintTally.new, ComplaintTally.accusersOf])
  · intro w j a p b hbefore ih hj hallowed hacts i hi
    have hgrows : ∀ k agreed, w.Echoed k agreed → (w.after j p b).Echoed k agreed :=
      fun _ _ hk => World.echoed_after.mpr (.inr hk)
    have hgrowsSigned : ∀ k complaint, w.Signed k complaint → (w.after j p b).Signed k complaint :=
      fun _ _ hk => World.signed_after.mpr (.inr hk)
    by_cases hij : i = j
    · subst hij
      rw [World.participant_after_self]
      have hkeeps := hbefore.keeps hvalid i hi
      have hp := ih i hi
      -- nothing published: what is published stays as it is
      have hquiet : ∀ {p p' : Participant P S}, c.Accuses w i p →
          c.Accuses (w.after i p' none) i p := fun hp => by
        refine hp.mono (fun agreed => ?_) (fun complaint => ?_)
          (fun _ _ hk => World.echoed_after.mpr (.inr hk))
          (fun _ _ hk => World.signed_after.mpr (.inr hk))
        · simp [World.echoed_after]
        · simp [World.signed_after]
      cases hacts with
      | stay => exact hquiet hp
      | calls calls hsubmit =>
        have howns : (Calls.run DkgState.call (w.participant i).state calls).Owns i
            (c.contribution i).dealer.commitment :=
          Calls.run_invariant (I := fun s : DkgState P => s.Owns i _) hp.owns
            fun call _ _ hs => hs.call call
        exact hquiet ⟨howns, hp.own_echoed, hp.signed, hp.threshold_eq, hp.accusers⟩
      | echo agreed hagreed =>
        refine ⟨hp.owns, fun b hb d hd hindex => ?_, fun complaint hsigned => ?_, hp.threshold_eq,
          fun d a ha => ⟨(hp.accusers d a ha).1, fun hhonest => ?_⟩⟩
        · rcases World.echoed_after.mp hb with ⟨-, heq⟩ | hb
          · obtain rfl : agreed = b := Broadcast.echo.inj (Option.some.inj heq)
            obtain ⟨-, heq⟩ := hkeeps.attains.inv.agreedRound1_eq_ok_iff.mp hagreed
            rw [heq] at hd
            exact hp.owns.eq_of_mem hkeeps.attains.inv hd hindex
          · exact hp.own_echoed b hb d hd hindex
        · rcases World.signed_after.mp hsigned with ⟨-, heq⟩ | hsigned
          · exact absurd heq (by simp)
          · exact (hp.signed complaint hsigned).mono hgrows
        · obtain ⟨signed, hsigned, haccused⟩ := (hp.accusers d a ha).2 hhonest
          exact ⟨signed, hgrowsSigned a signed hsigned, haccused⟩
      | confirm peers agreed aggregator ha hechoed henter =>
        exact hquiet ⟨hp.owns, hp.own_echoed, hp.signed, hp.threshold_eq, hp.accusers⟩
      | accept agreed aggregator subshare hround2 =>
        exact hquiet ⟨hp.owns, hp.own_echoed, hp.signed, hp.threshold_eq, hp.accusers⟩
      | accuse sealedShare agreed aggregator evidence complaint rng rng' hround2 hevidence hsign =>
        obtain ⟨hlast, hothers, -⟩ := hkeeps.confirmed agreed aggregator hround2
        refine ⟨hp.owns, fun b hb => ?_, fun complaint' hsigned => ?_, hp.threshold_eq,
          fun d a ha => ⟨(hp.accusers d a ha).1, fun hhonest => ?_⟩⟩
        · rcases World.echoed_after.mp hb with ⟨-, heq⟩ | hb
          · exact absurd heq (by simp)
          · exact hp.own_echoed b hb
        · rcases World.signed_after.mp hsigned with ⟨-, heq⟩ | hsigned
          · obtain rfl : complaint = complaint' := Broadcast.complaint.inj (Option.some.inj heq)
            have hwitnessed : c.Witnessed w i complaint :=
              ⟨agreed, sealedShare, evidence, rng, rng', (hkeeps.last agreed hlast).1, hothers,
                hevidence, hsign⟩
            exact hwitnessed.mono hgrows
          · exact (hp.signed complaint' hsigned).mono hgrows
        · obtain ⟨signed, hsigned, haccused⟩ := (hp.accusers d a ha).2 hhonest
          exact ⟨signed, hgrowsSigned a signed hsigned, haccused⟩
      | record complaint verdict ha hjudge =>
        subst ha
        refine hquiet ⟨hp.owns, hp.own_echoed, hp.signed,
          ComplaintTally.threshold_record.trans hp.threshold_eq, fun d a ha => ?_⟩
        rcases ComplaintTally.mem_accusersOf_record.mp ha with ha | ⟨-, htriple⟩
        · exact hp.accusers d a ha
        · simp only [Prod.mk.injEq] at htriple
          obtain ⟨rfl, rfl, -⟩ := htriple
          exact exists_signed_of_judge hallowed hjudge
    · rw [World.participant_after_of_ne hij]
      refine (ih i hi).mono (fun agreed hechoed => ?_) (fun complaint hsigned => ?_) hgrows
        hgrowsSigned
      · exact (World.echoed_after.mp hechoed).resolve_left fun h => hij h.1
      · exact (World.signed_after.mp hsigned).resolve_left fun h => hij h.1

/-! ### Honest dealers -/

variable {publicOf : X25519Key → X25519Key} {log : Set Sealing}

/-- A package that opens as one of an honest dealer holds the sub-share that it dealt. -/
lemma SealsOwn.verifySubshare_eq [LawfulScalarBytes S] (hvalid : c.Valid)
    (hrostered : c.Rostered publicOf) (hseals : c.SealsOwn publicOf log)
    (hnoise : IdealNoise publicOf log) {secret : X25519Key} {sealedShare : SealedSubShare}
    (hdealer : sealedShare.dealerIndex ∈ c.honest) {subshare : SubShare S} {digest : Bytes}
    (hopen : openEnvelope secret i c.roster c.round sealedShare = .ok (subshare, digest)) :
    (c.contribution sealedShare.dealerIndex).dealer.commitment.verifySubshare i subshare.value
      = true := by
  obtain ⟨-, hplayer, -, hi0⟩ := indices_of_openEnvelope hopen
  obtain ⟨key, bytes, hkey, -, hread, hdecode⟩ := noiseOpen_of_openEnvelope hopen
  obtain ⟨e, he, hlocal, -, hprologue, hplaintext, -⟩ :=
    (hnoise.noiseOpen_eq_some_iff _ _ _ _ _).mp hread
  rw [hrostered.publicKey_eq _ hdealer] at hkey
  obtain ⟨index, subshare', ephemeral, package, hgenerate, -, recipient, -, hsealing⟩ :=
    hseals _ hdealer e he (hlocal.trans (Outcome.ok.inj hkey).symm) hprologue
  -- the bytes that were read are those that were sealed
  rw [hsealing, subshareSealing] at hplaintext
  obtain ⟨hbytes, -⟩ := List.append_inj hplaintext (by
    rw [subshare'.length_encodePlaintext, Vector.length_toList])
  obtain rfl := SubShare.eq_of_decodePlaintext hbytes.symm hdecode
  obtain ⟨hhonest, -, -, -, -⟩ := hvalid.honest_dealer hdealer
  have hindex := Dkg.Dealer.playerIndex_of_generateSubshare hgenerate
  rw [hplayer] at hindex
  subst hindex
  rw [Dkg.Dealer.generateSubshare_eq_ok hhonest.index_ne_zero hi0] at hgenerate
  rw [← Outcome.ok.inj hgenerate]
  exact hhonest.verifySubshare_eq hi0

/-- The commitment of an honest dealer in a set that every honest participant has published is
its own. -/
lemma Reachable.commitment_eq_own [LawfulCompress P] [LawfulScalarBytes S] (hvalid : c.Valid)
    (h : c.Reachable w) (hcollision : ¬c.EchoCollision w) {agreed : AgreedRound1 P}
    (hi : i ∈ c.honest) (hechoed : w.Echoed i agreed)
    (hothers : ∀ k ∈ c.honest, ∃ theirs, w.Echoed k theirs ∧ theirs.digest = agreed.digest)
    {d : DealerCommitment P} (hd : d ∈ agreed.commitments) (hhonest : d.dealerIndex ∈ c.honest) :
    d = (c.contribution d.dealerIndex).dealer.commitment := by
  obtain ⟨theirs, htheirs, hdigest⟩ := hothers _ hhonest
  have hpublishable := ((h.keeps hvalid i hi).published agreed hechoed).1
  have hpublishable' := ((h.keeps hvalid _ hhonest).published theirs htheirs).1
  obtain rfl := hpublishable'.eq_of_digest_eq hcollision htheirs hechoed hpublishable hdigest
  exact (h.accuses hvalid _ hhonest).own_echoed theirs htheirs d hd rfl

/-- Honest participants do not accuse each other. -/
lemma Reachable.accused_notMem_honest [LawfulCompress P] [LawfulScalarBytes S]
    (hvalid : c.Valid) (hrostered : c.Rostered publicOf) (hseals : c.SealsOwn publicOf log)
    (hnoise : IdealNoise publicOf log) (h : c.Reachable w) (hcollision : ¬c.EchoCollision w)
    (hi : i ∈ c.honest) {complaint : Complaint P S} (hsigned : w.Signed i complaint) :
    complaint.accusedIndex ∉ c.honest := by
  intro haccused
  obtain ⟨agreed, sealedShare, evidence, rng, rng', hechoed, hothers, hopen, hsign⟩ :=
    (h.accuses hvalid i hi).signed complaint hsigned
  obtain ⟨commitment, subshare, digest, hcommit, henvelope, hverify, rfl⟩ :=
    openSubshareAgreedWithEvidence_eq_badSubShare_iff.mp hopen
  have hi0 := (mem_participants.mp (hvalid.honest_subset i hi)).1
  obtain ⟨complaint', rng₁, hsign', -, -, -, -, haccused', -⟩ :=
    Complaint.sign_eq_ok (P := P) hi0 c.epoch c.roster.sessionId c.round
      (.badSubShare (badSubShareEvidence i c.roster c.round sealedShare commitment subshare.value))
      (c.contribution i).identitySecret rng
  obtain ⟨rfl, -⟩ := Prod.mk.inj (Outcome.ok.inj (hsign'.symm.trans hsign))
  have hdealer : sealedShare.dealerIndex ∈ c.honest := by
    rw [haccused'] at haccused
    exact haccused
  obtain ⟨hmem, hindex⟩ := AgreedRound1.commitment_eq_ok hcommit
  have hown := h.commitment_eq_own hvalid hcollision hi hechoed hothers hmem (hindex ▸ hdealer)
  rw [hown, hindex, hseals.verifySubshare_eq hvalid hrostered hnoise hdealer henvelope] at hverify
  exact absurd hverify (by simp)

/-- Fewer participants than the threshold do not follow the protocol. -/
def FewCorrupt (c : Ceremony P S) : Prop :=
  ((participants c.numParticipants).filter (· ∉ c.honest)).length < c.threshold.toNat

/-- They are too few to reach the threshold of a tally alone. -/
lemma Reachable.exists_honest_accuser [LawfulCompress P] [LawfulScalarBytes S]
    (hvalid : c.Valid) (hrostered : c.Rostered publicOf) (hfew : c.FewCorrupt)
    (h : c.Reachable w) {d : UInt32} (hj : j ∈ c.honest)
    (hmem : d ∈ (w.participant j).tally.disqualifiable) :
    ∃ a ∈ c.honest, ∃ signed, w.Signed a signed ∧ signed.accusedIndex = d := by
  have haccuses := h.accuses hvalid j hj
  have hreached := (List.mem_filter.mp hmem).2
  rw [ComplaintTally.reached, decide_eq_true_eq, ComplaintTally.count_eq_card,
    haccuses.threshold_eq] at hreached
  by_contra hnone
  have hsub : (w.participant j).tally.accusersOf d
      ⊆ ((participants c.numParticipants).filter (· ∉ c.honest)).toFinset := by
    intro a ha
    obtain ⟨hkey, hsigned⟩ := haccuses.accusers d a ha
    rw [List.mem_toFinset, List.mem_filter]
    exact ⟨hrostered.identityKey_mem a hkey,
      decide_eq_true fun hhonest => hnone ⟨a, hhonest, hsigned hhonest⟩⟩
  have hcard := (Finset.card_le_card hsub).trans (List.toFinset_card_le _)
  exact absurd (hreached.trans hcard) (not_le.mpr hfew)

lemma Reachable.notMem_disqualifiable [LawfulCompress P] [LawfulScalarBytes S]
    (hvalid : c.Valid) (hrostered : c.Rostered publicOf) (hseals : c.SealsOwn publicOf log)
    (hnoise : IdealNoise publicOf log) (hfew : c.FewCorrupt) (h : c.Reachable w)
    (hcollision : ¬c.EchoCollision w) {d : UInt32} (hj : j ∈ c.honest) (hd : d ∈ c.honest) :
    d ∉ (w.participant j).tally.disqualifiable := by
  intro hmem
  obtain ⟨a, ha, signed, hsigned, rfl⟩ := h.exists_honest_accuser hvalid hrostered hfew hj hmem
  exact h.accused_notMem_honest hvalid hrostered hseals hnoise hcollision ha hsigned hd

/-- Nobody is disqualified but by the tally. -/
def ByTally (_ : Participant P S) : Action P S → Prop
  | .disqualify _ => False
  | _ => True

lemma mem_disqualified_act {p : Participant P S} {a : Action P S} (ha : ByTally p a) {d : UInt32}
    (hd : d ∈ (c.act j p a).1.state.disqualified) :
    d ∈ p.state.disqualified ∨ d ∈ p.tally.disqualifiable := by
  cases a with
  | submit package =>
    rw [act] at hd
    rcases DkgState.submitCommitment_cases p.state package with ⟨idx, -, hs⟩ | ⟨hs, -⟩
    all_goals
      rw [hs] at hd
      exact .inl hd
  | disqualify d => exact ha.elim
  | applyTally => exact DkgState.mem_disqualified_disqualifyAll hd
  | echo =>
    rw [act] at hd
    split at hd <;> exact .inl hd
  | confirm peers =>
    rw [act] at hd
    split at hd
    · exact .inl hd
    · split at hd <;> exact .inl hd
  | openPackage sealedShare rng =>
    rw [act] at hd
    split at hd
    · exact .inl hd
    · split at hd
      · exact .inl hd
      · split at hd <;> exact .inl hd
      · exact .inl hd
  | hear complaint =>
    rw [act] at hd
    split at hd <;> exact .inl hd

omit [Snow] in
lemma EchoCollision.mono (h : c.EchoCollision w)
    (hall : ∀ k agreed, w.Echoed k agreed → w'.Echoed k agreed) : c.EchoCollision w' := by
  obtain ⟨i, agreed, i', agreed', hi, hi', hcollision⟩ := h
  exact ⟨i, agreed, i', agreed', hall i agreed hi, hall i' agreed' hi', hcollision⟩

/-- While nobody is disqualified but by the tally, no honest dealer is. -/
lemma notMem_disqualified_of_byTally [LawfulCompress P] [LawfulScalarBytes S]
    (hvalid : c.Valid) (hrostered : c.Rostered publicOf) (hseals : c.SealsOwn publicOf log)
    (hnoise : IdealNoise publicOf log) (hfew : c.FewCorrupt)
    (h : Relation.ReflTransGen (c.StepOf ByTally) c.init w) (hcollision : ¬c.EchoCollision w) :
    ∀ j ∈ c.honest, ∀ d ∈ c.honest, d ∉ (w.participant j).state.disqualified := by
  induction h with
  | refl =>
    intro j _ d _ hd
    change d ∈ ((DkgState.new c.epoch c.threshold c.numParticipants).submitCommitment
      (c.contribution j).package).1.disqualified at hd
    rcases DkgState.submitCommitment_cases (DkgState.new c.epoch c.threshold c.numParticipants)
      (c.contribution j).package with ⟨idx, -, hs⟩ | ⟨hs, -⟩
    all_goals
      rw [hs] at hd
      exact absurd hd List.not_mem_nil
  | @tail w w' hbefore hnext ih =>
    obtain ⟨k, hk, a, -, hbytally, rfl⟩ := hnext
    have hbeforeCollision : ¬c.EchoCollision w := fun hcol =>
      hcollision (hcol.mono fun _ _ he => World.echoed_after.mpr (.inr he))
    intro j hj d hd hmem
    by_cases hjk : j = k
    · subst hjk
      rw [next, World.participant_after_self] at hmem
      rcases mem_disqualified_act hbytally hmem with hmem | hmem
      · exact ih hbeforeCollision j hj d hd hmem
      · exact (reachable_of_steps hbefore).notMem_disqualifiable hvalid hrostered hseals hnoise
          hfew hbeforeCollision hj hd hmem
    · rw [next, World.participant_after_of_ne hjk] at hmem
      exact ih hbeforeCollision j hj d hd hmem

/-- **No honest dealer is framed.**  However the others lie, accuse and delay: unless two
published sets collide, no honest participant's tally ever names an honest dealer, and while the
honest participants disqualify whom their tallies name, no honest dealer is disqualified. -/
theorem Reachable.not_framed [LawfulCompress P] [LawfulScalarBytes S] (hvalid : c.Valid)
    (hrostered : c.Rostered publicOf) (hseals : c.SealsOwn publicOf log)
    (hnoise : IdealNoise publicOf log) (hfew : c.FewCorrupt) (h : c.Reachable w) :
    c.EchoCollision w ∨ ∀ j ∈ c.honest, ∀ d ∈ c.honest,
      d ∉ (w.participant j).tally.disqualifiable ∧
        (Relation.ReflTransGen (c.StepOf ByTally) c.init w →
          d ∉ (w.participant j).state.disqualified) := by
  by_cases hcollision : c.EchoCollision w
  · exact .inl hcollision
  · exact .inr fun j hj d hd =>
      ⟨h.notMem_disqualifiable hvalid hrostered hseals hnoise hfew hcollision hj hd, fun hsteps =>
        notMem_disqualified_of_byTally hvalid hrostered hseals hnoise hfew hsteps hcollision j hj d
          hd⟩

/-! ### Cheating dealers -/

/-- What an honest participant has signed, every honest participant upholds whose set still has
the dealer. -/
lemma Reachable.judge_eq_upheld [LawfulCompress P] [LawfulScalarBytes S] (hvalid : c.Valid)
    (hrostered : c.Rostered publicOf) (h : c.Reachable w) (hcollision : ¬c.EchoCollision w)
    (hj : j ∈ c.honest) {agreed : AgreedRound1 P} {p : Participant P S}
    (hround2 : InRound2 w j agreed) (hp : p.round2 = (w.participant j).round2)
    (hi : i ∈ c.honest) {complaint : Complaint P S} (hsigned : w.Signed i complaint)
    (hd : complaint.accusedIndex ∈ agreed.dealerSet) :
    complaint.accuserIndex = i ∧ c.judge p complaint = .ok .upheld := by
  obtain ⟨seen, sealedShare, evidence, rng, rng', hechoed, hothers, hopen, hsign⟩ :=
    (h.accuses hvalid i hi).signed complaint hsigned
  obtain ⟨commitment, subshare, digest, hcommit, henvelope, hverify, rfl⟩ :=
    openSubshareAgreedWithEvidence_eq_badSubShare_iff.mp hopen
  obtain ⟨-, -, hdealer0, hi0⟩ := indices_of_openEnvelope henvelope
  obtain ⟨hmem, hindex⟩ := AgreedRound1.commitment_eq_ok hcommit
  -- the set the accuser saw was published here too, and this one is what is left of it
  obtain ⟨theirs, htheirs, hdigest⟩ := hothers j hj
  have hkeeps := h.keeps hvalid j hj
  have hpublishable := ((h.keeps hvalid i hi).published seen hechoed).1
  obtain rfl := ((hkeeps.published theirs htheirs).1).eq_of_digest_eq hcollision htheirs hechoed
    hpublishable hdigest
  obtain ⟨hown, hpublishable'⟩ := h.echoed_of_inRound2 hvalid hj hround2
  obtain ⟨aggregator, hround2⟩ := hround2
  have hsub := (hkeeps.last agreed (hkeeps.confirmed agreed aggregator hround2).1).2 _ htheirs
  obtain ⟨complaint', rng₁, hsign', -, -, -, haccuser, haccused, -⟩ :=
    Complaint.sign_eq_ok (P := P) hi0 c.epoch c.roster.sessionId c.round
      (.badSubShare (badSubShareEvidence i c.roster c.round sealedShare commitment subshare.value))
      (c.contribution i).identitySecret rng
  obtain ⟨rfl, -⟩ := Prod.mk.inj (Outcome.ok.inj (hsign'.symm.trans hsign))
  have hcommit' : agreed.commitment sealedShare.dealerIndex = .ok commitment := by
    rw [haccused] at hd
    obtain ⟨d, hdmem, hdindex⟩ := List.mem_map.mp hd
    have heq : d = commitment := List.inj_on_of_nodup_map hpublishable.valid.nodup_dealerSet
      (hsub hdmem) hmem (hdindex.trans hindex.symm)
    exact hpublishable'.valid.commitment_eq_ok_iff.mpr ⟨heq ▸ hdmem, hindex⟩
  refine ⟨haccuser, ?_⟩
  have hepoch : agreed.epoch = c.epoch := by rw [hpublishable'.eq_mk]
  obtain ⟨complaint₂, rng₂, hsign₂, hupheld, -⟩ := transferable_of_commitment
    (badSubShareEvidence i c.roster c.round sealedShare commitment subshare.value) subshare.value
    hdealer0 hi0 hcommit' rfl rfl (c.contribution i).identitySecret rng
  rw [hepoch] at hsign₂
  obtain ⟨rfl, -⟩ := Prod.mk.inj (Outcome.ok.inj (hsign₂.symm.trans hsign))
  have hverdict := hupheld agreed rfl rfl
  rw [judge, haccuser, hrostered.identityKey_eq i hi, Outcome.okOr_some, Outcome.ok_bind, hp,
    hround2, ← hepoch]
  refine hverdict.trans ?_
  rw [badSubShareEvidence, hverify]
  rfl

/-- Participant `j` hears complaints, one after the other. -/
def hearAll (c : Ceremony P S) (j : UInt32) (w : World P S) (complaints : List (Complaint P S)) :
    World P S :=
  complaints.foldl (fun w complaint => c.next w j (.hear complaint)) w

/-- Those it upholds are recorded in its tally. -/
lemma participant_hearAll {complaints : List (Complaint P S)}
    (hupheld : ∀ x ∈ complaints, ∀ p : Participant P S, p.round2 = (w.participant j).round2 →
      c.judge p x = .ok .upheld) :
    (c.hearAll j w complaints).participant j = { w.participant j with
      tally := Calls.run ComplaintTally.recordTriple (w.participant j).tally
        (complaints.map fun x => (x.accuserIndex, x.accusedIndex, .upheld)) } := by
  induction complaints generalizing w with
  | nil => rfl
  | cons x complaints ih =>
    obtain ⟨hx, hrest⟩ := List.forall_mem_cons.mp hupheld
    have hnext : (c.next w j (.hear x)).participant j = { w.participant j with
        tally := ((w.participant j).tally.recordTriple
          (x.accuserIndex, x.accusedIndex, .upheld)).1 } := by
      rw [next, World.participant_after_self, act, hx _ rfl]
      rfl
    rw [hearAll, List.foldl_cons, ← hearAll, ih fun y hy p hp => hrest y hy p (by rw [hp, hnext]),
      hnext]
    rfl

/-- The network may let it hear what honest participants have signed. -/
lemma Reachable.hearAll (hj : j ∈ c.honest) (h : c.Reachable w)
    {complaints : List (Complaint P S)}
    (hsigned : ∀ x ∈ complaints, w.Signed x.accuserIndex x) :
    c.Reachable (c.hearAll j w complaints) := by
  induction complaints generalizing w with
  | nil => exact h
  | cons x complaints ih =>
    obtain ⟨hx, hrest⟩ := List.forall_mem_cons.mp hsigned
    have hallowed : c.Allows w (.hear x) := fun _ _ _ _ => ⟨x, hx, rfl⟩
    have hnext : c.Reachable (c.next w j (.hear x)) := h.tail ⟨j, hj, _, hallowed, trivial, rfl⟩
    exact ih hnext fun y hy => World.signed_after.mpr (.inr (hrest y hy))

/-- No verdict on a dealer with the index zero is counted. -/
lemma Reachable.accusersOf_zero (h : c.Reachable w) :
    ∀ i ∈ c.honest, (w.participant i).tally.accusersOf 0 = ∅ := by
  refine Reachable.invariant
    (I := fun w => ∀ i ∈ c.honest, (w.participant i).tally.accusersOf 0 = ∅) ?_ ?_ h
  · intro i _
    simp [init, start, ComplaintTally.new, ComplaintTally.accusersOf]
  · intro w j a p b _ ih _ _ hacts i hi
    by_cases hij : i = j
    · subst hij
      rw [World.participant_after_self]
      cases hacts with
      | record complaint verdict ha hjudge =>
        refine Finset.eq_empty_of_forall_notMem fun a ha => ?_
        rcases ComplaintTally.mem_accusersOf_record.mp ha with ha | ⟨hcounts, heq⟩
        · simp [ih i hi] at ha
        · exact hcounts.2.1 (congrArg (fun triple : VerdictTriple => triple.2.1) heq)
      | stay => exact ih i hi
      | calls calls hsubmit => exact ih i hi
      | echo agreed hagreed => exact ih i hi
      | confirm peers agreed aggregator ha hechoed henter => exact ih i hi
      | accept agreed aggregator subshare hround2 => exact ih i hi
      | accuse sealedShare agreed aggregator evidence complaint rng rng' hround2 hevidence hsign =>
        exact ih i hi
    · rw [World.participant_after_of_ne hij]
      exact ih i hi

/-- So it is not named. -/
lemma Reachable.ne_zero_of_mem_disqualifiable [LawfulCompress P] [LawfulScalarBytes S]
    (hvalid : c.Valid) (h : c.Reachable w) (hj : j ∈ c.honest) {d : UInt32}
    (hmem : d ∈ (w.participant j).tally.disqualifiable) : d ≠ 0 := by
  rintro rfl
  have hreached := (List.mem_filter.mp hmem).2
  rw [ComplaintTally.reached, decide_eq_true_eq, ComplaintTally.count_eq_card,
    (h.accuses hvalid j hj).threshold_eq, h.accusersOf_zero j hj, Finset.card_empty] at hreached
  exact toNat_ne_zero_iff.mpr hvalid.threshold_ne_zero (Nat.le_zero.mp hreached)

/-- Whoever is named is disqualified when the tally is applied, or the ceremony is aborted. -/
lemma Reachable.disqualified_of_named [LawfulCompress P] [LawfulScalarBytes S]
    (hvalid : c.Valid) (h : c.Reachable w) (hj : j ∈ c.honest) {d : UInt32}
    (hdealer : d ∈ participants c.numParticipants)
    (hmem : d ∈ (w.participant j).tally.disqualifiable) :
    (∃ qualified need, ((w.participant j).state.disqualifyAll
        (w.participant j).tally.disqualifiable).2 = .err (.dkgAborted qualified need)) ∨
      d ∈ ((c.next w j .applyTally).participant j).state.disqualified := by
  have hattains := (h.keeps hvalid j hj).attains
  rw [next, World.participant_after_self]
  -- the loop ascends, so it comes to other participants before the dealer
  have hascending := (w.participant j).tally.pairwise_disqualifiable
  obtain ⟨before, after, hsplit⟩ := List.append_of_mem hmem
  have hbefore : before ⊆ participants (w.participant j).state.numParticipants := by
    intro k hk
    rw [hsplit] at hascending
    have hlt : k < d := (List.pairwise_append.mp hascending).2.2 k hk d List.mem_cons_self
    have hk0 : k ≠ 0 := h.ne_zero_of_mem_disqualifiable hvalid hj
      (hsplit ▸ List.mem_append_left _ hk)
    rw [hattains.params.2.2]
    exact mem_participants.mpr ⟨hk0, UInt32.le_trans (UInt32.le_of_lt hlt)
      (mem_participants.mp hdealer).2⟩
  have hrange : d ∈ participants (w.participant j).state.numParticipants := by
    rwa [hattains.params.2.2]
  rw [act, hsplit]
  exact hattains.inv.mem_disqualifyAll (S := S) hbefore hrange after

/-- As many upheld complaints of different participants as the threshold name the accused. -/
lemma Reachable.mem_disqualifiable_hearAll [LawfulCompress P] [LawfulScalarBytes S]
    (hvalid : c.Valid) {complaints : List (Complaint P S)}
    (hheard : c.Reachable (c.hearAll j w complaints)) (hj : j ∈ c.honest) {d : UInt32} (hd : d ≠ 0)
    (haccuse : ∀ x ∈ complaints, x.accusedIndex = d ∧ x.accuserIndex ≠ 0 ∧ x.accuserIndex ≠ d)
    (hjudge : ∀ x ∈ complaints, ∀ p : Participant P S, p.round2 = (w.participant j).round2 →
      c.judge p x = .ok .upheld)
    (hmany : c.threshold.toNat ≤ (complaints.map Complaint.accuserIndex).toFinset.card) :
    d ∈ ((c.hearAll j w complaints).participant j).tally.disqualifiable := by
  have hthreshold := (hheard.accuses hvalid j hj).threshold_eq
  refine ComplaintTally.mem_disqualifiable_of_le_card (hthreshold ▸ hvalid.threshold_ne_zero) ?_
  rw [hthreshold]
  refine hmany.trans (Finset.card_le_card fun a ha => ?_)
  obtain ⟨x, hx, rfl⟩ := List.mem_map.mp (List.mem_toFinset.mp ha)
  obtain ⟨hxd, hx0, hne⟩ := haccuse x hx
  rw [participant_hearAll hjudge, ComplaintTally.mem_accusersOf_run]
  refine .inr ⟨⟨hx0, hd, hne⟩, List.mem_map.mpr ⟨x, hx, ?_⟩⟩
  rw [hxd]

/-- **A dealer that cheats as many honest participants as the threshold is out.**  Unless two
published sets collide: when a participant in round 2 whose set has the dealer hears their
complaints, in whatever order and after whatever came before, its tally names the dealer, and
applying the tally disqualifies it, or aborts the ceremony because too few dealers are left. -/
theorem Reachable.cheater_disqualified [LawfulCompress P] [LawfulScalarBytes S]
    (hvalid : c.Valid) (hrostered : c.Rostered publicOf) (h : c.Reachable w) :
    c.EchoCollision w ∨ ∀ j ∈ c.honest, ∀ agreed, InRound2 w j agreed → ∀ d ∈ agreed.dealerSet,
      ∀ complaints : List (Complaint P S),
        (∀ x ∈ complaints, x.accusedIndex = d ∧ ∃ i ∈ c.honest, i ≠ d ∧ w.Signed i x) →
        c.threshold.toNat ≤ (complaints.map Complaint.accuserIndex).toFinset.card →
        d ∈ ((c.hearAll j w complaints).participant j).tally.disqualifiable ∧
          ((∃ qualified need, (((c.hearAll j w complaints).participant j).state.disqualifyAll
              ((c.hearAll j w complaints).participant j).tally.disqualifiable).2
                = .err (.dkgAborted qualified need)) ∨
            d ∈ ((c.next (c.hearAll j w complaints) j .applyTally).participant
              j).state.disqualified) := by
  by_cases hcollision : c.EchoCollision w
  · exact .inl hcollision
  refine .inr fun j hj agreed hround2 d hd complaints hsigned hmany => ?_
  have hjudge : ∀ x ∈ complaints, x.accuserIndex ∈ c.honest ∧ x.accuserIndex ≠ d ∧
      w.Signed x.accuserIndex x ∧ ∀ p : Participant P S, p.round2 = (w.participant j).round2 →
        c.judge p x = .ok .upheld := by
    intro x hx
    obtain ⟨rfl, i, hi, hne, hw⟩ := hsigned x hx
    have hjudge := fun p hp =>
      h.judge_eq_upheld (p := p) hvalid hrostered hcollision hj hround2 hp hi hw hd
    obtain ⟨rfl, -⟩ := hjudge _ rfl
    exact ⟨hi, hne, hw, fun p hp => (hjudge p hp).2⟩
  have hheard : c.Reachable (c.hearAll j w complaints) :=
    h.hearAll hj fun x hx => (hjudge x hx).2.2.1
  have hdealer := (h.echoed_of_inRound2 hvalid hj hround2).2.dealerSet_subset hd
  have hmem : d ∈ ((c.hearAll j w complaints).participant j).tally.disqualifiable := by
    refine hheard.mem_disqualifiable_hearAll hvalid hj (mem_participants.mp hdealer).1
      (fun x hx => ?_) (fun x hx => (hjudge x hx).2.2.2) hmany
    obtain ⟨hhonest, hne, -, -⟩ := hjudge x hx
    have hx0 := (mem_participants.mp (hvalid.honest_subset _ hhonest)).1
    exact ⟨(hsigned x hx).1, hx0, hne⟩
  exact ⟨hmem, hheard.disqualified_of_named hvalid hj hdealer hmem⟩

end Ceremony

end Blame

/-! ### Two participants and a third that cheats -/

section Three

open Reference Ceremony

lemma rostered_three : three.Rostered publicOf where
  identityKey_mem i hi := by
    by_contra hnot
    exact hi (if_neg hnot)
  identityKey_eq i hi := by
    rcases mem_honest_three hi with rfl | rfl <;> rfl
  publicKey_eq i hi := by
    rcases mem_honest_three hi with rfl | rfl <;> rfl

lemma fewCorrupt_three : three.FewCorrupt :=
  show ((participants 3).filter (· ∉ ({1, 2} : Finset UInt32))).length < 2 by decide

/-- All three have dealt. -/
lemma remaining_all : three.Remaining [1, 2, 3] where
  sublist := List.Sublist.refl _
  ne_nil := List.cons_ne_nil _ _
  enough := show (2 : UInt32).toNat ≤ 3 by decide
  dealt i hi := by
    have hthreshold : three.threshold ≠ 0 := show (2 : UInt32) ≠ 0 by decide
    obtain ⟨_, _, _, hnew, hpackage⟩ := dealt_line (j := 3) (by decide) 7 3
    have hthird : three.Dealt 3 := dealt_of_new (by decide) hthreshold hnew hpackage
    rcases List.mem_cons.mp hi with rfl | hi
    · exact remaining_three.dealt 1 List.mem_cons_self
    rcases List.mem_pair.mp hi with rfl | rfl
    · exact remaining_three.dealt 2 (List.mem_pair.mpr (.inr rfl))
    · exact hthird

/-- Nobody is disqualified at all. -/
lemma permits_byTally : three.Permits [1, 2, 3] ByTally where
  submit _ _ _ := trivial
  disqualify _ _ hi hnot := absurd hi hnot
  echo _ := trivial
  confirm _ _ := trivial
  openPackage _ _ _ := trivial

/-- The call wrote the message, between the keys that it is read with. -/
def wrote (localPrivate remotePublic : X25519Key) (prologue message : Bytes) (e : Sealing) :
    Bool :=
  publicOf e.localPrivate = remotePublic ∧ e.remotePublic = publicOf localPrivate ∧
    e.prologue = prologue ∧ e.message = message

/-- The handshake of `snow`, which reads the messages of these calls only. -/
abbrev reading (log : List Sealing) : Snow where
  writeMessage := snow.writeMessage
  readMessage _ prologue localPrivate remotePublic message :=
    (log.find? (wrote localPrivate remotePublic prologue message)).map Sealing.plaintext

lemma idealNoise_reading {log : List Sealing} (hnd : (log.map Sealing.remotePublic).Nodup)
    (h : ∀ e ∈ log, noiseSeal e.localPrivate e.remotePublic e.ephemeral e.prologue e.plaintext
      = some e.message) : @IdealNoise (reading log) publicOf {e | e ∈ log} := by
  refine @IdealNoise.mk (reading log) _ _ h ?_
  intro secret remotePublic prologue message plaintext
  have hread : @noiseOpen (reading log) secret remotePublic prologue message
      = (log.find? (wrote secret remotePublic prologue message)).map Sealing.plaintext := rfl
  have hwrote : ∀ {e}, wrote secret remotePublic prologue message e = true ↔
      publicOf e.localPrivate = remotePublic ∧ e.remotePublic = publicOf secret ∧
        e.prologue = prologue ∧ e.message = message := decide_eq_true_iff
  rw [hread, Option.map_eq_some_iff]
  constructor
  · rintro ⟨e, hfind, hplaintext⟩
    obtain ⟨hlocal, hremote, hprologue, hmessage⟩ := hwrote.mp (List.find?_some hfind)
    exact ⟨e, List.mem_of_find?_eq_some hfind, hlocal, hremote, hprologue, hplaintext, hmessage⟩
  · rintro ⟨e, he, hlocal, hremote, hprologue, rfl, hmessage⟩
    obtain ⟨e', hfind⟩ := Option.isSome_iff_exists.mp
      (List.find?_isSome.mpr ⟨e, he, hwrote.mpr ⟨hlocal, hremote, hprologue, hmessage⟩⟩)
    obtain ⟨-, hremote', -, -⟩ := hwrote.mp (List.find?_some hfind)
    obtain rfl := List.inj_on_of_nodup_map hnd he (List.mem_of_find?_eq_some hfind)
      (hremote.trans hremote'.symm)
    exact ⟨e, hfind, rfl⟩

/-- Participant 3, whose polynomial is `7 + 3x`, has `9` for participant `j`. -/
def badShare (j : UInt32) : SubShare Residue := ⟨3, j, ((9 : ℕ) : Residue)⟩

/-- The call that seals it. -/
def badSealing (j : UInt32) : Sealing :=
  let plaintext := (badShare j).encodePlaintext ++
    (commitmentDigest (linePackage 3 7 3).commitment).toList
  subshareSealing (Vector.replicate 32 3) (publicOf (Vector.replicate 32 j.toUInt8))
    (Vector.replicate 32 7) rosterOfThree 2 (badShare j) (linePackage 3 7 3).commitment
    ((noiseSeal (Vector.replicate 32 3) (publicOf (Vector.replicate 32 j.toUInt8))
      (Vector.replicate 32 7) (rosterOfThree.prologue 2) plaintext).getD [])

/-- All that is ever sealed. -/
def badLog : List Sealing := [badSealing 1, badSealing 2]

/-- The handshake that reads it. -/
local instance badNoise : Snow := reading badLog

lemma idealNoise_badNoise : IdealNoise publicOf {e | e ∈ badLog} :=
  idealNoise_reading (by decide) fun e he => by
    rcases List.mem_pair.mp he with rfl | rfl <;> rfl

lemma sealsOwn_three : three.SealsOwn publicOf {e | e ∈ badLog} := by
  intro i hi e he hkey
  have he' : e.localPrivate = Vector.replicate 32 3 := by
    rcases List.mem_pair.mp he with rfl | rfl <;> rfl
  rw [he'] at hkey
  rcases mem_honest_three hi with rfl | rfl <;> exact absurd hkey (by decide)

/-- The participants 1 and 2 find out. -/
lemma opens_badShare {j : UInt32} (hj : j ∈ three.honest) :
    ∃ evidence, openSubshareAgreedWithEvidence (S := Residue) (three.contribution j).x25519Secret j
      three.roster three.round ⟨3, j, (badSealing j).message⟩ (three.agreedOn [1, 2, 3])
        = .err (.badSubShare evidence) := by
  have hmem : badSealing j ∈ badLog := by
    rcases mem_honest_three hj with rfl | rfl <;> simp [badLog]
  have hj0 : j ≠ 0 := by
    rcases mem_honest_three hj with rfl | rfl <;> decide
  have hsecret : (three.contribution j).x25519Secret = Vector.replicate 32 j.toUInt8 := by
    rcases mem_honest_three hj with rfl | rfl <;> rfl
  have hopen : noiseOpen (three.contribution j).x25519Secret (publicOf (Vector.replicate 32 3))
      (rosterOfThree.prologue 2) (badSealing j).message = some ((badShare j).encodePlaintext ++
        (commitmentDigest (linePackage 3 7 3).commitment).toList) :=
    (idealNoise_badNoise.noiseOpen_eq_some_iff _ _ _ _ _).mpr
      ⟨badSealing j, hmem, rfl, by rw [hsecret]; rfl, rfl, rfl, rfl⟩
  have hdealer : (badShare j).dealerIndex ≠ 0 := show (3 : UInt32) ≠ 0 by decide
  have hkey : rosterOfThree.publicKey (badShare j).dealerIndex
      = .ok (publicOf (Vector.replicate 32 3)) :=
    show rosterOfThree.publicKey 3 = _ by decide
  have henvelope := openEnvelope_eq_ok hdealer hj0 hkey hopen
  have hverify : (linePackage 3 7 3).commitment.verifySubshare j (badShare j).value = false := by
    rcases mem_honest_three hj with rfl | rfl <;> decide +kernel
  exact ⟨_, openSubshareAgreedWithEvidence_eq_badSubShare_iff.mpr
    ⟨_, _, _, remaining_all.commitment_agreedOn (i := 3) (by decide), henvelope, hverify, rfl⟩⟩

/-- In round 2, and it has accused participant 3. -/
def HasAccused (w : World Residue Residue) (j : UInt32) : Prop :=
  three.HasOpened [1, 2, 3] [] j (w.participant j) ∧
    ∃ complaint, w.Signed j complaint ∧ complaint.accuserIndex = j ∧ complaint.accusedIndex = 3

lemma exists_accused {w : World Residue Residue} {j : UInt32} (hj : j ∈ three.honest)
    (hopened : three.HasOpened [1, 2, 3] [] j (w.participant j)) :
    ∃ w', three.Alone ByTally j w w' ∧ HasAccused w' j := by
  have ⟨fresh, deliveries, _, hround2, _⟩ := hopened
  obtain ⟨evidence, hevidence⟩ := opens_badShare hj
  obtain ⟨commitment, subshare, digest, -, -, -, rfl⟩ :=
    openSubshareAgreedWithEvidence_eq_badSubShare_iff.mp hevidence
  have hj0 := (mem_participants.mp (valid_three.honest_subset j hj)).1
  let rng : Rng Residue := .const ((3 : ℕ) : Residue)
  obtain ⟨complaint, rng', hsign, -, -, -, haccuser, haccused, -⟩ :=
    Complaint.sign_eq_ok (P := Residue) hj0 three.epoch three.roster.sessionId three.round
      (.badSubShare (badSubShareEvidence j three.roster three.round
        ⟨3, j, (badSealing j).message⟩ commitment subshare.value))
      (three.contribution j).identitySecret rng
  have hact : three.act j (w.participant j) (.openPackage ⟨3, j, (badSealing j).message⟩ rng)
      = (w.participant j, some (.complaint complaint)) := by
    rw [act, hround2]
    simp only [hevidence, accuse, hsign]
  refine ⟨_, alone_next hj (a := .openPackage ⟨3, j, (badSealing j).message⟩ rng) trivial trivial,
    ?_, complaint, ?_, haccuser, haccused⟩
  · rwa [next, hact, World.participant_after_self]
  · rw [next, hact]
    exact World.signed_after.mpr (.inl ⟨rfl, rfl⟩)

/-- Both can come to accuse it. -/
lemma exists_accusations : ∃ w, Relation.ReflTransGen (three.StepOf ByTally) three.init w ∧
    ∀ j ∈ three.honest, HasAccused w j := by
  have hmem : ∀ {j}, j ∈ three.honest.toList ↔ j ∈ three.honest := Finset.mem_toList
  obtain ⟨w₁, hsteps₁, hentered⟩ :=
    exists_entered (w := three.init) permits_byTally valid_three remaining_all
      fun _ hj => spared_start valid_three hj
  have hstable : three.Stable ByTally HasAccused := by
    rintro i j w w' hij halone ⟨hopened, complaint, hsigned, hindices⟩
    exact ⟨by rwa [halone.others i hij], complaint, halone.published hsigned, hindices⟩
  obtain ⟨w₂, hsteps₂, haccused, -⟩ := exists_phase
    (stable_of_participant fun j p => three.HasOpened [1, 2, 3] [] j p) hstable
    three.honest.nodup_toList (fun j hj w hw => exists_accused (hmem.mp hj) hw)
    (fun j hj => hentered j (hmem.mp hj))
  exact ⟨w₂, hsteps₁.trans hsteps₂, fun j hj => haccused j (hmem.mpr hj)⟩

/-- The accusations of both disqualify it. -/
theorem cheater_disqualified_three : ∃ w, three.Reachable w ∧
    ∃ x y, w.Signed 1 x ∧ w.Signed 2 y ∧ (three.EchoCollision w ∨ ∀ j ∈ three.honest,
      3 ∈ ((three.hearAll j w [x, y]).participant j).tally.disqualifiable ∧
        ((∃ qualified need, (((three.hearAll j w [x, y]).participant j).state.disqualifyAll
            ((three.hearAll j w [x, y]).participant j).tally.disqualifiable).2
              = .err (.dkgAborted qualified need)) ∨
          3 ∈ ((three.next (three.hearAll j w [x, y]) j .applyTally).participant
            j).state.disqualified)) := by
  obtain ⟨w, hsteps, haccused⟩ := exists_accusations
  have hone : (1 : UInt32) ∈ three.honest := Finset.mem_insert_self _ _
  have htwo : (2 : UInt32) ∈ three.honest := Finset.mem_insert_of_mem (Finset.mem_singleton_self _)
  obtain ⟨-, x, hx, hxaccuser, hxaccused⟩ := haccused 1 hone
  obtain ⟨-, y, hy, hyaccuser, hyaccused⟩ := haccused 2 htwo
  have hreachable := reachable_of_steps hsteps
  refine ⟨w, hreachable, x, y, hx, hy, ?_⟩
  refine (hreachable.cheater_disqualified valid_three rostered_three).imp id fun hout j hj => ?_
  obtain ⟨⟨fresh, deliveries, -, hround2, -⟩, -⟩ := haccused j hj
  refine hout j hj (three.agreedOn [1, 2, 3]) ⟨_, hround2⟩ 3 ?_ [x, y] ?_ ?_
  · rw [remaining_all.dealerSet_agreedOn]
    decide
  · rintro z hz
    rcases List.mem_pair.mp hz with rfl | rfl
    · exact ⟨hxaccused, 1, hone, by decide, hx⟩
    · exact ⟨hyaccused, 2, htwo, by decide, hy⟩
  · rw [List.map_cons, List.map_singleton, hxaccuser, hyaccuser]
    decide

/-- They are not disqualified themselves. -/
theorem not_framed_three : ∃ w, three.Reachable w ∧ (∀ j ∈ three.honest, HasAccused w j) ∧
    (three.EchoCollision w ∨ ∀ j ∈ three.honest, ∀ d ∈ three.honest,
      d ∉ (w.participant j).tally.disqualifiable ∧
        d ∉ (w.participant j).state.disqualified) := by
  obtain ⟨w, hsteps, haccused⟩ := exists_accusations
  have hreachable := reachable_of_steps hsteps
  refine ⟨w, hreachable, haccused, ?_⟩
  exact (hreachable.not_framed valid_three rostered_three sealsOwn_three idealNoise_badNoise
    fewCorrupt_three).imp id fun hnot j hj d hd =>
      ⟨(hnot j hj d hd).1, (hnot j hj d hd).2 hsteps⟩

end Three

end Frostito
