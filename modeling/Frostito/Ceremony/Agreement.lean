import Frostito.Ceremony.Completion

/-!
# Participants that reach round 2 hold one sharing

The state of a participant that has published a digest only loses dealers from then on, so the
sets whose digests it publishes form a descending chain.  Of two participants in round 2 each has
published the set of the other at some time, and its own last.  Each set is therefore contained
in the other.
-/

namespace Frostito

section Agreement

variable {S P : Type} [CurveScalar S] [CurvePoint P S] [Sha2]

/-! ### A complete state only loses dealers -/

namespace DkgState

variable {s : DkgState P}

/-- It takes up no further package. -/
lemma Inv.submitCommitment_of_isComplete (h : s.Inv) (hc : s.isComplete = true)
    (package : Round1Package P S) : (s.submitCommitment package).1 = s := by
  rcases submitCommitment_cases s package with ⟨idx, hrec, -⟩ | ⟨hs, -⟩
  · have hrange := h.mem_participants_iff.mpr ⟨idx, hrec.slotOf_eq, hrec.lt_length⟩
    rcases h.isComplete_iff_forall.mp hc _ hrange with hqual | hdisq
    · -- the slot is taken by the commitment of that dealer
      obtain ⟨d, hd, hindex⟩ := List.mem_map.mp hqual
      have hslot := h.indexed.mem_reduceOption_iff.mp hd
      rw [(slotKey_eq_iff (h.accepted d hd).ne_zero hrec.slotOf_eq).mpr hindex, hrec.empty] at hslot
      exact absurd hslot (by simp)
    · exact absurd hdisq hrec.notMem_disqualified
  · exact hs

lemma Inv.call (h : s.Inv) (call : DkgCall P S) : (s.call call).1.Inv := by
  cases call with
  | submit package => exact h.submitCommitment package
  | disqualify i => exact h.disqualify i

/-- A call leaves a complete state complete, and adds no commitment to it. -/
lemma Inv.call_of_isComplete (h : s.Inv) (hc : s.isComplete = true) (call : DkgCall P S) :
    (s.call call).1.isComplete = true ∧
      (s.call call).1.commitments.reduceOption ⊆ s.commitments.reduceOption := by
  cases call with
  | submit package =>
    rw [DkgState.call, h.submitCommitment_of_isComplete hc]
    exact ⟨hc, List.Subset.refl _⟩
  | disqualify i =>
    have hinv := h.disqualify i
    rw [DkgState.call]
    rcases disqualify_cases s i with ⟨idx, hidx, hlt, hs⟩ | ⟨-, hs⟩
    · rw [hs] at hinv ⊢
      have hmem : ∀ c, c ∈ (s.exclude idx i).commitments.reduceOption ↔
          c ∈ s.commitments.reduceOption ∧ slotKey c ≠ idx := fun c =>
        h.indexed.mem_reduceOption_set_none hlt
      refine ⟨hinv.isComplete_iff_forall.mpr fun j hj => ?_, fun c hmem' => ((hmem c).mp hmem').1⟩
      rcases h.isComplete_iff_forall.mp hc j hj with hqual | hdisq
      · obtain ⟨c, hcmem, rfl⟩ := List.mem_map.mp hqual
        by_cases hi : c.dealerIndex = i
        · exact .inr (mem_disqualified_exclude.mpr (.inr hi))
        · have hkey := (slotKey_eq_iff (h.accepted c hcmem).ne_zero hidx).not.mpr hi
          exact .inl (List.mem_map_of_mem ((hmem c).mpr ⟨hcmem, hkey⟩))
      · exact .inr (mem_disqualified_exclude.mpr (.inl hdisq))
    · rw [hs]
      exact ⟨hc, List.Subset.refl _⟩

/-- So does a run. -/
theorem Inv.run_of_isComplete (h : s.Inv) (hc : s.isComplete = true)
    (calls : List (DkgCall P S)) :
    (Calls.run DkgState.call s calls).isComplete = true ∧
      (Calls.run DkgState.call s calls).commitments.reduceOption
        ⊆ s.commitments.reduceOption := by
  have hrun : (Calls.run DkgState.call s calls).Inv ∧
      (Calls.run DkgState.call s calls).isComplete = true ∧
      (Calls.run DkgState.call s calls).commitments.reduceOption ⊆ s.commitments.reduceOption :=
    Calls.run_invariant (I := fun s' : DkgState P => s'.Inv ∧ s'.isComplete = true ∧
      s'.commitments.reduceOption ⊆ s.commitments.reduceOption)
      ⟨h, hc, List.Subset.refl _⟩ fun call _ s' ⟨hinv, hcomplete, hsub⟩ =>
        ⟨hinv.call call, (hinv.call_of_isComplete hcomplete call).1,
          List.Subset.trans (hinv.call_of_isComplete hcomplete call).2 hsub⟩
  exact hrun.2

end DkgState

namespace Ceremony

/-! ### The sets that are published -/

/-- The commitments that are submitted have fewer than `2 ^ 32` coefficients. -/
def Fits (calls : List (DkgCall P S)) : Prop :=
  ∀ package, .submit package ∈ calls → package.commitment.coefficients.length < 2 ^ 32

variable (S) in
/-- A state of a participant. -/
def Attains (c : Ceremony P S) (s : DkgState P) : Prop :=
  ∃ calls : List (DkgCall P S), Fits calls ∧
    s = DkgState.reach c.epoch c.threshold c.numParticipants calls

variable (S) in
/-- A set that a participant can publish the digest of. -/
def Publishable (c : Ceremony P S) (agreed : AgreedRound1 P) : Prop :=
  ∃ s, c.Attains S s ∧ s.agreedRound1 = .ok agreed

/-- What the digest of a set is taken over. -/
def preimage (c : Ceremony P S) (agreed : AgreedRound1 P) : Bytes :=
  echoPreimage c.epoch c.threshold c.numParticipants agreed.commitments

/-- Two sets that were published are a collision of the echo digest. -/
def EchoCollision (c : Ceremony P S) (w : World P S) : Prop :=
  ∃ i agreed i' agreed', w.Echoed i agreed ∧ w.Echoed i' agreed' ∧
    c.preimage agreed ≠ c.preimage agreed' ∧
    sha512Trunc (c.preimage agreed) = sha512Trunc (c.preimage agreed')

variable {c : Ceremony P S} {s : DkgState P} {agreed agreed' : AgreedRound1 P}

lemma Attains.inv (h : c.Attains S s) : s.Inv := by
  obtain ⟨calls, -, rfl⟩ := h
  exact DkgState.inv_reach _ _ _ _

lemma Attains.params (h : c.Attains S s) :
    s.epoch = c.epoch ∧ s.threshold = c.threshold ∧ s.numParticipants = c.numParticipants := by
  obtain ⟨calls, -, rfl⟩ := h
  exact DkgState.reach_params _ _ _ _

lemma Attains.run (h : c.Attains S s) {calls : List (DkgCall P S)} (hfits : Fits calls) :
    c.Attains S (Calls.run DkgState.call s calls) := by
  obtain ⟨before, hbefore, rfl⟩ := h
  refine ⟨before ++ calls, fun package hmem => ?_, ?_⟩
  · exact (List.mem_append.mp hmem).elim (hbefore package) (hfits package)
  · rw [DkgState.reach, DkgState.reach, Calls.run_append]

/-- The commitments determine the rest. -/
lemma Publishable.eq_mk (h : c.Publishable S agreed) :
    agreed = ⟨c.epoch, c.threshold,
      round1EchoDigest c.epoch c.threshold c.numParticipants agreed.commitments,
      agreed.commitments⟩ := by
  obtain ⟨s, hs, hagreed⟩ := h
  obtain ⟨hepoch, hthreshold, hn⟩ := hs.params
  obtain ⟨-, rfl⟩ := hs.inv.agreedRound1_eq_ok_iff.mp hagreed
  rw [hepoch, hthreshold, hn]

lemma Publishable.digest_bytes (h : c.Publishable S agreed) :
    agreed.digest.bytes = sha512Trunc (c.preimage agreed) := by
  rw [h.eq_mk]
  rfl

lemma Publishable.valid (h : c.Publishable S agreed) : Dkg.ValidAgreed agreed := by
  obtain ⟨s, hs, hagreed⟩ := h
  exact Dkg.validAgreed_of_agreedRound1 hs.inv hagreed

lemma Publishable.dealerSet_subset (h : c.Publishable S agreed) :
    agreed.dealerSet ⊆ participants c.numParticipants := by
  obtain ⟨s, hs, hagreed⟩ := h
  obtain ⟨-, rfl⟩ := hs.inv.agreedRound1_eq_ok_iff.mp hagreed
  rw [← hs.params.2.2]
  exact fun i hi => hs.inv.mem_participants_of_mem_qualifiedDealers hi

lemma Publishable.length_commitments_lt (h : c.Publishable S agreed) :
    agreed.commitments.length < 2 ^ 32 := by
  obtain ⟨s, hs, hagreed⟩ := h
  obtain ⟨-, rfl⟩ := hs.inv.agreedRound1_eq_ok_iff.mp hagreed
  exact hs.inv.length_reduceOption_lt

lemma Publishable.length_coefficients (h : c.Publishable S agreed) :
    ∀ d ∈ agreed.commitments, d.coefficients.length = c.threshold.toNat := by
  obtain ⟨s, ⟨calls, hfits, rfl⟩, hagreed⟩ := h
  obtain ⟨-, rfl⟩ := (DkgState.inv_reach _ _ _ _).agreedRound1_eq_ok_iff.mp hagreed
  exact fun d hd => Dkg.length_coefficients hfits hd

/-- Sets with the same commitments are the same. -/
lemma Publishable.eq_of_commitments_eq (h : c.Publishable S agreed)
    (h' : c.Publishable S agreed') (heq : agreed.commitments = agreed'.commitments) :
    agreed = agreed' := by
  rw [h.eq_mk, h'.eq_mk, heq]

/-- So are sets that contain each other. -/
lemma Publishable.eq_of_subset (h : c.Publishable S agreed) (h' : c.Publishable S agreed')
    (hsub : agreed.commitments ⊆ agreed'.commitments)
    (hsub' : agreed'.commitments ⊆ agreed.commitments) : agreed = agreed' := by
  have hle : ∀ a : AgreedRound1 P, c.Publishable S a →
      a.commitments.Pairwise fun d d' => d.dealerIndex < d'.dealerIndex :=
    fun a ha => ha.valid.pairwise
  refine h.eq_of_commitments_eq h' ?_
  have hperm : agreed.commitments.Perm agreed'.commitments :=
    (List.perm_ext_iff_of_nodup h.valid.nodup_dealerSet.of_map
      h'.valid.nodup_dealerSet.of_map).mpr fun d => ⟨fun hd => hsub hd, fun hd => hsub' hd⟩
  exact hperm.eq_of_pairwise (fun d d' _ _ hlt hgt => absurd hgt (UInt32.lt_asymm hlt))
    (hle _ h) (hle _ h')

/-- Published sets with one digest are the same, or a collision. -/
lemma Publishable.eq_of_digest_eq [LawfulCompress P] {w : World P S} {i i' : UInt32}
    (hcollision : ¬c.EchoCollision w) (hw : w.Echoed i agreed) (hw' : w.Echoed i' agreed')
    (h : c.Publishable S agreed) (h' : c.Publishable S agreed')
    (heq : agreed.digest = agreed'.digest) : agreed = agreed' := by
  have hdigest := congrArg EchoDigest.bytes heq
  rw [h.digest_bytes, h'.digest_bytes] at hdigest
  have hpreimage : c.preimage agreed = c.preimage agreed' := by
    by_contra hne
    exact hcollision ⟨i, agreed, i', agreed', hw, hw', hne, hdigest⟩
  have hsorted := (echoPreimage_inj h.length_commitments_lt h'.length_commitments_lt hpreimage).2
  refine h.eq_of_commitments_eq h' ?_
  have hsort : ∀ a : AgreedRound1 P, c.Publishable S a →
      sortByDealer a.commitments = a.commitments := fun a ha =>
    List.Pairwise.insertionSort_eq (ha.valid.pairwise.imp fun hlt => UInt32.le_of_lt hlt)
  rwa [hsort _ h, hsort _ h'] at hsorted

/-! ### The participants of a run -/

/-- What holds of an honest participant throughout. -/
structure Keeps (c : Ceremony P S) (w : World P S) (j : UInt32) (p : Participant P S) : Prop
    where
  attains : c.Attains S p.state
  published : ∀ agreed, w.Echoed j agreed → c.Publishable S agreed ∧
    p.state.isComplete = true ∧ p.state.commitments.reduceOption ⊆ agreed.commitments
  last : ∀ agreed, p.echoed = some agreed → w.Echoed j agreed ∧
    ∀ earlier, w.Echoed j earlier → agreed.commitments ⊆ earlier.commitments
  confirmed : ∀ agreed aggregator, p.round2 = some (agreed, aggregator) →
    p.echoed = some agreed ∧
      (∀ i ∈ c.honest, ∃ theirs, w.Echoed i theirs ∧ theirs.digest = agreed.digest) ∧
      ∃ fresh deliveries, Dkg.Aggregator.fromAgreed j agreed = .ok fresh ∧
        aggregator = Calls.run (Dkg.Aggregator.deliver agreed) fresh deliveries

variable {w w' : World P S} {j : UInt32} {p : Participant P S} {a : Action P S}

/-- It keeps holding when others publish. -/
lemma Keeps.mono (h : c.Keeps w j p) (hown : ∀ agreed, w'.Echoed j agreed ↔ w.Echoed j agreed)
    (hall : ∀ i agreed, w.Echoed i agreed → w'.Echoed i agreed) : c.Keeps w' j p := by
  refine ⟨h.attains, fun agreed hagreed => h.published agreed ((hown agreed).mp hagreed),
    fun agreed hlast => ?_, fun agreed aggregator hround2 => ?_⟩
  · obtain ⟨hechoed, hbelow⟩ := h.last agreed hlast
    exact ⟨(hown agreed).mpr hechoed, fun earlier he => hbelow earlier ((hown earlier).mp he)⟩
  · obtain ⟨hechoed, hpeers, haggregator⟩ := h.confirmed agreed aggregator hround2
    refine ⟨hechoed, fun i hi => ?_, haggregator⟩
    obtain ⟨theirs, htheirs, hdigest⟩ := hpeers i hi
    exact ⟨theirs, hall i theirs htheirs, hdigest⟩

/-- Calls on the state keep it. -/
lemma Keeps.calls (h : c.Keeps w j p) {calls : List (DkgCall P S)} (hfits : Fits calls) :
    c.Keeps w j { p with state := Calls.run DkgState.call p.state calls } := by
  refine ⟨h.attains.run hfits, fun agreed hagreed => ?_, h.last, h.confirmed⟩
  obtain ⟨hpublishable, hcomplete, hsub⟩ := h.published agreed hagreed
  obtain ⟨hcomplete', hsub'⟩ := h.attains.inv.run_of_isComplete hcomplete calls
  exact ⟨hpublishable, hcomplete', List.Subset.trans hsub' hsub⟩

/-- A digest is published of what is left of the sets before. -/
lemma Keeps.echo (h : c.Keeps w j p) (hagreed : p.state.agreedRound1 = .ok agreed) :
    c.Keeps (w.after j { p with echoed := some agreed, round2 := none } (some (.echo agreed))) j
      { p with echoed := some agreed, round2 := none } := by
  obtain ⟨hcomplete, heq⟩ := h.attains.inv.agreedRound1_eq_ok_iff.mp hagreed
  have hcommitments : p.state.commitments.reduceOption = agreed.commitments := by rw [heq]
  have hiff : ∀ b, (w.after j { p with echoed := some agreed, round2 := none }
      (some (.echo agreed))).Echoed j b ↔ agreed = b ∨ w.Echoed j b := fun b => by
    simp [World.echoed_after]
  have hbelow : ∀ b, agreed = b ∨ w.Echoed j b → agreed.commitments ⊆ b.commitments := by
    rintro b (rfl | hb)
    · exact List.Subset.refl _
    · exact hcommitments ▸ (h.published b hb).2.2
  refine ⟨h.attains, fun b hb => ?_, fun b hb => ?_, fun b aggregator hround2 => ?_⟩
  · refine ⟨?_, hcomplete, hcommitments ▸ hbelow b ((hiff b).mp hb)⟩
    rcases (hiff b).mp hb with rfl | hb
    · exact ⟨p.state, h.attains, hagreed⟩
    · exact (h.published b hb).1
  · obtain rfl := Option.some.inj hb
    exact ⟨(hiff agreed).mpr (.inl rfl), fun earlier he => hbelow earlier ((hiff earlier).mp he)⟩
  · exact absurd hround2 (by simp)

/-- Round 2 is entered with a set that every honest participant has published. -/
lemma Keeps.confirm (hvalid : c.Valid) (h : c.Keeps w j p)
    {peers : List (UInt32 × EchoDigest)} (hrelayed : c.Relayed S w peers)
    (hechoed : p.echoed = some agreed) {aggregator : Dkg.Aggregator P S}
    (henter : c.enterRound2 j agreed (peers.map Prod.snd) = .ok aggregator) :
    c.Keeps w j { p with round2 := some (agreed, aggregator) } := by
  obtain ⟨_, hconfirm, hfresh⟩ := Outcome.bind_eq_ok_iff.mp henter
  obtain ⟨hmany, hall⟩ := AgreedRound1.confirmAll_eq_ok_iff.mp hconfirm
  refine ⟨h.attains, h.published, h.last, fun b aggregator' hround2 => ?_⟩
  obtain ⟨rfl, rfl⟩ := Prod.mk.inj (Option.some.inj hround2)
  refine ⟨hechoed, fun i hi => ?_, aggregator, [], hfresh, rfl⟩
  -- as many digests as participants, so one of each
  have hlen : (peers.map Prod.fst).length = (peers.map Prod.snd).length := by simp
  have hperm := (List.subperm_of_subset hrelayed.nodup hrelayed.subset).perm_of_length_le
    (by rwa [length_participants, hlen])
  obtain ⟨⟨i', digest⟩, hmem, rfl⟩ :=
    List.mem_map.mp (hperm.mem_iff.mpr (hvalid.honest_subset i hi))
  obtain ⟨theirs, htheirs, hdigest⟩ := hrelayed.genuine _ hmem hi
  exact ⟨theirs, htheirs, hdigest.trans (hall _ (List.mem_map_of_mem hmem))⟩

/-- A delivery goes to the aggregator. -/
lemma Keeps.accept (h : c.Keeps w j p) {aggregator : Dkg.Aggregator P S}
    (hround2 : p.round2 = some (agreed, aggregator)) (subshare : SubShare S) :
    c.Keeps w j { p with round2 := some (agreed, (aggregator.deliver agreed subshare).1) } := by
  refine ⟨h.attains, h.published, h.last, fun b aggregator' hb => ?_⟩
  obtain ⟨rfl, rfl⟩ := Prod.mk.inj (Option.some.inj hb)
  obtain ⟨hechoed, hpeers, fresh, deliveries, hfresh, rfl⟩ := h.confirmed _ _ hround2
  exact ⟨hechoed, hpeers, fresh, deliveries ++ [subshare], hfresh, by rw [Calls.run_append]; rfl⟩

variable [Snow]

/-- **Every honest participant keeps it.** -/
theorem Reachable.keeps (hvalid : c.Valid) (h : c.Reachable w) :
    ∀ i ∈ c.honest, c.Keeps w i (w.participant i) := by
  refine Reachable.invariant (I := fun w => ∀ i ∈ c.honest, c.Keeps w i (w.participant i)) ?_ ?_ h
  · intro i hi
    obtain ⟨hhonest, -, hlength, hcommit, -⟩ := hvalid.honest_dealer hi
    refine ⟨⟨[.submit (c.contribution i).package], fun package hmem => ?_, rfl⟩,
      fun agreed hechoed => absurd hechoed List.not_mem_nil, fun agreed hlast => ?_,
      fun agreed aggregator hround2 => ?_⟩
    · obtain rfl : package = (c.contribution i).package := by simpa using hmem
      rw [hcommit, hhonest.coefficients_eq, List.length_map, hlength]
      exact c.threshold.toNat_lt
    · exact absurd hlast (by simp [init, start])
    · exact absurd hround2 (by simp [init, start])
  · intro w j a p b _ ih hj hallowed hacts i hi
    by_cases hij : i = j
    · subst hij
      rw [World.participant_after_self]
      have hquiet : ∀ {p : Participant P S} {b : Option (Broadcast P S)},
          (∀ agreed, b ≠ some (.echo agreed)) → c.Keeps w i p → c.Keeps (w.after i p b) i p := by
        intro p b hb hp
        refine hp.mono (fun agreed => ?_) fun k agreed hk => World.echoed_after.mpr (.inr hk)
        simp [World.echoed_after, hb]
      have hp := ih i hi
      cases hacts with
      | stay => exact hquiet (by simp) hp
      | calls calls hsubmit =>
        refine hquiet (by simp) (hp.calls fun package hmem => ?_)
        obtain rfl := hsubmit package hmem
        exact hallowed
      | echo agreed hagreed => exact hp.echo hagreed
      | confirm peers agreed aggregator ha hechoed henter =>
        subst ha
        exact hquiet (by simp) (hp.confirm hvalid hallowed hechoed henter)
      | accept agreed aggregator subshare hround2 =>
        exact hquiet (by simp) (hp.accept hround2 subshare)
      | accuse sealedShare agreed aggregator evidence complaint rng rng' hround2 hevidence hsign =>
        exact hquiet (by simp) hp
      | record complaint verdict ha hjudge =>
        exact hquiet (by simp) ⟨hp.attains, hp.published, hp.last, hp.confirmed⟩
    · rw [World.participant_after_of_ne hij]
      refine (ih i hi).mono (fun agreed => ?_) fun k agreed hk => World.echoed_after.mpr (.inr hk)
      simp [World.echoed_after, hij]

/-! ### Agreement -/

omit [Sha2] [Snow] [CurveScalar S] [CurvePoint P S] in
/-- Participant `j` is in round 2 with the set. -/
def InRound2 (w : World P S) (j : UInt32) (agreed : AgreedRound1 P) : Prop :=
  ∃ aggregator, (w.participant j).round2 = some (agreed, aggregator)

/-- What a participant in round 2 has published, last and as every other did. -/
lemma Reachable.echoed_of_inRound2 (hvalid : c.Valid) (h : c.Reachable w) {i : UInt32}
    (hi : i ∈ c.honest) (hround2 : InRound2 w i agreed) :
    w.Echoed i agreed ∧ c.Publishable S agreed := by
  obtain ⟨aggregator, hround2⟩ := hround2
  have hkeeps := h.keeps hvalid i hi
  have hechoed := (hkeeps.last agreed (hkeeps.confirmed agreed aggregator hround2).1).1
  exact ⟨hechoed, (hkeeps.published agreed hechoed).1⟩

/-- The set of a participant in round 2 was published by every honest participant. -/
lemma Reachable.echoed_by_all [LawfulCompress P] (hvalid : c.Valid) (h : c.Reachable w)
    (hcollision : ¬c.EchoCollision w) {i j : UInt32} (hi : i ∈ c.honest) (hj : j ∈ c.honest)
    (hround2 : InRound2 w i agreed) : w.Echoed j agreed := by
  obtain ⟨hechoed, hpublishable⟩ := h.echoed_of_inRound2 hvalid hi hround2
  obtain ⟨aggregator, hround2⟩ := hround2
  obtain ⟨-, hall, -⟩ := (h.keeps hvalid i hi).confirmed agreed aggregator hround2
  obtain ⟨theirs, htheirs, hdigest⟩ := hall j hj
  have hpublishable' := ((h.keeps hvalid j hj).published theirs htheirs).1
  rwa [← hpublishable'.eq_of_digest_eq hcollision htheirs hechoed hpublishable hdigest]

/-- **Participants in round 2 have one set.** -/
theorem Reachable.agreed_eq [LawfulCompress P] (hvalid : c.Valid) (h : c.Reachable w)
    (hcollision : ¬c.EchoCollision w) {i j : UInt32} (hi : i ∈ c.honest) (hj : j ∈ c.honest)
    (hround2 : InRound2 w i agreed) (hround2' : InRound2 w j agreed') : agreed = agreed' := by
  have hbelow : ∀ {i j : UInt32} {agreed agreed' : AgreedRound1 P}, i ∈ c.honest → j ∈ c.honest →
      InRound2 w i agreed → InRound2 w j agreed' →
      agreed.commitments ⊆ agreed'.commitments := by
    rintro i j agreed agreed' hi hj ⟨aggregator, hround2⟩ hround2'
    have hkeeps := h.keeps hvalid i hi
    exact (hkeeps.last agreed (hkeeps.confirmed agreed aggregator hround2).1).2 agreed'
      (h.echoed_by_all hvalid hcollision hj hi hround2')
  exact (h.echoed_of_inRound2 hvalid hi hround2).2.eq_of_subset
    (h.echoed_of_inRound2 hvalid hj hround2').2 (hbelow hi hj hround2 hround2')
    (hbelow hj hi hround2' hround2)

/-- What a participant that has finished holds. -/
lemma Reachable.isShare_of_finished (hvalid : c.Valid) (h : c.Reachable w) {j : UInt32}
    (hj : j ∈ c.honest) (hround2 : InRound2 w j agreed) {share : S} {key : P}
    (hfinished : Finished w j share key) :
    Sharing.IsShare (generator : P) (Dkg.groupSharing (S := S) c.threshold agreed) (fromU32 j)
        share ∧
      key = (Dkg.groupSharing (S := S) c.threshold agreed).headD 0 := by
  obtain ⟨agreed', aggregator, hround2', hfinalize, hkey⟩ := hfinished
  obtain ⟨aggregator', hround2⟩ := hround2
  obtain ⟨rfl, rfl⟩ := Prod.mk.inj (Option.some.inj (hround2'.symm.trans hround2))
  obtain ⟨-, hpublishable⟩ := h.echoed_of_inRound2 hvalid hj ⟨_, hround2⟩
  obtain ⟨-, -, fresh, deliveries, hfresh, rfl⟩ := (h.keeps hvalid j hj).confirmed _ _ hround2
  obtain ⟨-, hshare, hgroup⟩ := Dkg.finalize_run hpublishable.valid hfresh hfinalize
  rw [Sharing.IsShare, Dkg.horner_groupSharing hpublishable.length_coefficients,
    Dkg.headD_groupSharing hvalid.threshold_ne_zero]
  exact ⟨hshare, Outcome.ok.inj (hkey.symm.trans hgroup)⟩

/-- **The ceremony agrees.**  Whatever the network and the other participants do, and however
often participants disqualify dealers and start round 2 again: unless two published sets
collide, all honest participants that are in round 2 at one time have one set, those that
have finished hold shares of one sharing and its key, and any `threshold` of their shares combine
to the discrete logarithm of that key. -/
theorem Reachable.agrees [PrimeOrder P] [LawfulCompress P] (hvalid : c.Valid)
    (h : c.Reachable w) :
    c.EchoCollision w ∨
    (∀ i ∈ c.honest, ∀ j ∈ c.honest, ∀ agreed agreed', InRound2 w i agreed →
      InRound2 w j agreed' → agreed = agreed') ∧
    ∃ cs : List P, cs.length = c.threshold.toNat ∧
      (∀ j ∈ c.honest, ∀ (share : S) (key : P), Finished w j share key →
        Sharing.IsShare (generator : P) cs (fromU32 j) share ∧ key = cs.headD 0) ∧
      ∀ (players : List UInt32) (share : UInt32 → S), players.Nodup →
        c.threshold.toNat ≤ players.length →
        (∀ j ∈ players, j ∈ c.honest ∧ ∃ key, Finished w j (share j) key) →
        ∃ secret, reconstruct (players.map fun j => (j, share j)) = .ok secret ∧
          secret • (generator : P) = cs.headD 0 := by
  by_cases hcollision : c.EchoCollision w
  · exact .inl hcollision
  have hagree : ∀ i ∈ c.honest, ∀ j ∈ c.honest, ∀ agreed agreed', InRound2 w i agreed →
      InRound2 w j agreed' → agreed = agreed' := fun i hi j hj agreed agreed' =>
    h.agreed_eq hvalid hcollision hi hj
  -- one sharing for all that have finished, when there are any
  obtain ⟨cs, hlen, hshares⟩ : ∃ cs : List P, cs.length = c.threshold.toNat ∧
      ∀ j ∈ c.honest, ∀ (share : S) (key : P), Finished w j share key →
        Sharing.IsShare (generator : P) cs (fromU32 j) share ∧ key = cs.headD 0 := by
    by_cases hsome : ∃ i ∈ c.honest, ∃ agreed, InRound2 w i agreed
    · obtain ⟨i, hi, agreed, hround2⟩ := hsome
      refine ⟨Dkg.groupSharing (S := S) c.threshold agreed, by simp [Dkg.groupSharing],
        fun j hj share key hfinished => ?_⟩
      obtain ⟨agreed', aggregator, hround2', -⟩ := id hfinished
      obtain rfl := hagree i hi j hj agreed agreed' hround2 ⟨aggregator, hround2'⟩
      exact h.isShare_of_finished hvalid hj ⟨aggregator, hround2'⟩ hfinished
    · refine ⟨List.replicate c.threshold.toNat 0, List.length_replicate,
        fun j hj share key hfinished => ?_⟩
      obtain ⟨agreed, aggregator, hround2, -⟩ := hfinished
      exact absurd ⟨j, hj, agreed, aggregator, hround2⟩ hsome
  refine .inr ⟨hagree, cs, hlen, hshares, fun players share hnd hmany hfinished => ?_⟩
  have hpos := toNat_ne_zero_iff.mpr hvalid.threshold_ne_zero
  have hindices : ValidIndices players := by
    refine ⟨List.length_pos_iff.mp (by omega), fun h0 => ?_, hnd⟩
    exact (mem_participants.mp (hvalid.honest_subset 0 (hfinished 0 h0).1)).1 rfl
  refine reconstruct_of_isShare (fromU32_injective P) hindices (hlen.trans_le hmany)
    fun j hj => ?_
  obtain ⟨hhonest, key, hfin⟩ := hfinished j hj
  exact (hshares j hhonest _ _ hfin).1

end Ceremony

end Agreement

open Reference Ceremony in
/-- Two participants that have finished hold shares of one sharing. -/
theorem agrees_three : ∃ w, three.Reachable w ∧
    (∀ j ∈ three.honest, ∃ share key, Finished w j share key) ∧
    (three.EchoCollision w ∨ ∃ cs : List Residue, cs.length = 2 ∧
      ∀ j ∈ three.honest, ∀ (share key : Residue), Finished w j share key →
        Sharing.IsShare (generator : Residue) cs (fromU32 j) share ∧ key = cs.headD 0) := by
  obtain ⟨w, share, hreachable, hfinished⟩ := exists_finished_three
  refine ⟨w, hreachable, fun j hj => ⟨_, _, hfinished j hj⟩, ?_⟩
  exact (Reachable.agrees valid_three hreachable).imp id fun ⟨_, cs, hlen, hshares, _⟩ =>
    ⟨cs, hlen, hshares⟩

end Frostito
