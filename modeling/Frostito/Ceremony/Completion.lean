import Frostito.Ceremony.World

/-!
# The ceremony can always finish among the others

Some participants remain: all of them have dealt and sealed, and what is delivered in round 1 in
their names is what they have dealt.  The others may do as they like.  As long as nobody that
remains is disqualified, there is no order of steps after which the participants that follow the
protocol could not finish: they can disqualify the others, record what is missing, publish and
confirm the digest of the set, and open the sealed packages of those that remain.  Every one then
holds the sum of the values of their polynomials at its index.
-/

namespace Frostito

section Completion

variable {S P : Type} [CurveScalar S] [CurvePoint P S] [Sha2]

namespace DkgState

variable {s : DkgState P}

/-- A state is complete when every participant is qualified or disqualified. -/
lemma Inv.isComplete_iff_forall (h : s.Inv) :
    s.isComplete = true ↔ ∀ i ∈ participants s.numParticipants,
      i ∈ s.qualifiedDealers ∨ i ∈ s.disqualified := by
  constructor
  · intro hc i hi
    exact List.mem_append.mp ((h.perm_participants hc).mem_iff.mpr hi)
  · intro hall
    have hle := h.subperm_participants.length_le
    have hge := (List.subperm_of_subset (nodup_participants s.numParticipants)
      fun i hi => List.mem_append.mpr (hall i hi)).length_le
    rw [List.length_append, length_participants] at hle hge
    exact isComplete_iff.mpr (le_antisymm hle hge)

end DkgState

namespace Ceremony

/-- The participants among whom the ceremony goes on are enough, and have dealt, whether or not
they follow the protocol from there. -/
structure Remaining (c : Ceremony P S) (dealers : List UInt32) : Prop where
  sublist : dealers.Sublist (participants c.numParticipants)
  ne_nil : dealers ≠ []
  enough : c.threshold.toNat ≤ dealers.length
  dealt : ∀ i ∈ dealers, c.Dealt i

/-- What they have dealt. -/
def commitmentsOf (c : Ceremony P S) (dealers : List UInt32) : List (DealerCommitment P) :=
  dealers.map fun i => (c.contribution i).package.commitment

/-- The set that is agreed on among them. -/
def agreedOn (c : Ceremony P S) (dealers : List UInt32) : AgreedRound1 P where
  epoch := c.epoch
  threshold := c.threshold
  digest := round1EchoDigest c.epoch c.threshold c.numParticipants (c.commitmentsOf dealers)
  commitments := c.commitmentsOf dealers

/-- A state in which none of them is disqualified, and that has only what they have dealt from
them. -/
structure Spared (c : Ceremony P S) (dealers : List UInt32) (s : DkgState P) : Prop where
  inv : s.Inv
  params_eq : s.params = (c.epoch, c.threshold, c.numParticipants)
  notMem : ∀ i ∈ dealers, i ∉ s.disqualified
  dealt : ∀ d ∈ s.commitments.reduceOption, d.dealerIndex ∈ dealers →
    d = (c.contribution d.dealerIndex).package.commitment

variable {c : Ceremony P S} {dealers : List UInt32}

/-- Participant `j` has finished with a share and a group key. -/
def Finished (w : World P S) (j : UInt32) (share : S) (key : P) : Prop :=
  ∃ agreed aggregator, (w.participant j).round2 = some (agreed, aggregator) ∧
    aggregator.finalize = .ok share ∧ aggregator.deriveGroupKey = .ok key

/-! ### The set of those that remain -/

lemma Dealt.dealerIndex_eq {i : UInt32} (h : c.Dealt i) :
    (c.contribution i).package.commitment.dealerIndex = i := by
  rw [h.commitment_eq, h.honest.dealerIndex_eq, h.index_eq]

lemma Remaining.map_dealerIndex (h : c.Remaining dealers) :
    (c.commitmentsOf dealers).map DealerCommitment.dealerIndex = dealers := by
  rw [commitmentsOf, List.map_map]
  exact (List.map_congr_left fun i hi => (h.dealt i hi).dealerIndex_eq).trans (List.map_id _)

lemma Remaining.pairwise (h : c.Remaining dealers) : dealers.Pairwise (· < ·) :=
  (pairwise_participants _).sublist h.sublist

lemma Remaining.validAgreed (h : c.Remaining dealers) : Dkg.ValidAgreed (c.agreedOn dealers) where
  pairwise := by
    have hpair := h.pairwise
    rw [← h.map_dealerIndex] at hpair
    exact List.pairwise_map.mp hpair
  ne_zero d hd := by
    have hmem := h.sublist.subset (h.map_dealerIndex ▸ List.mem_map_of_mem hd)
    exact (mem_participants.mp hmem).1
  coefficients_ne_nil d hd := by
    obtain ⟨i, hi, rfl⟩ := List.mem_map.mp hd
    obtain ⟨hhonest, -, -, hcommit, -⟩ := h.dealt i hi
    rw [hcommit, hhonest.coefficients_eq]
    exact List.map_eq_nil_iff.not.mpr hhonest.polynomial_ne_nil

lemma Remaining.dealerSet_agreedOn (h : c.Remaining dealers) :
    (c.agreedOn dealers).dealerSet = dealers :=
  h.map_dealerIndex

lemma Remaining.commitment_agreedOn (h : c.Remaining dealers) {i : UInt32} (hi : i ∈ dealers) :
    (c.agreedOn dealers).commitment i = .ok (c.contribution i).dealer.commitment := by
  refine h.validAgreed.commitment_eq_ok_iff.mpr ⟨?_, ?_⟩
  · rw [← (h.dealt i hi).commitment_eq]
    exact List.mem_map_of_mem hi
  · rw [(h.dealt i hi).honest.dealerIndex_eq, (h.dealt i hi).index_eq]

/-- A state from which the others are gone, and that has what those that remain have dealt, agrees
on their set. -/
lemma Spared.agreedRound1_eq {s : DkgState P} (h : c.Spared dealers s) (hd : c.Remaining dealers)
    (hout : ∀ i ∈ participants c.numParticipants, i ∉ dealers → i ∈ s.disqualified)
    (hin : ∀ i ∈ dealers, i ∈ s.qualifiedDealers) :
    s.agreedRound1 = .ok (c.agreedOn dealers) := by
  have hepoch : s.epoch = c.epoch := congrArg Prod.fst h.params_eq
  have hthreshold : s.threshold = c.threshold := congrArg (fun p => p.2.1) h.params_eq
  have hn : s.numParticipants = c.numParticipants := congrArg (fun p => p.2.2) h.params_eq
  have hqualified : s.qualifiedDealers = dealers := by
    refine Sorted.eq_of_mem_iff (r := (· ≤ ·)) ?_
      (hd.pairwise.imp fun hlt => UInt32.le_of_lt hlt) h.inv.nodup_qualifiedDealers
      (hd.sublist.nodup (nodup_participants _)) fun i => ⟨fun hi => ?_, hin i⟩
    · exact List.pairwise_map.mpr (h.inv.pairwise_commitments.imp fun hlt => UInt32.le_of_lt hlt)
    · by_contra hnot
      have hrange := h.inv.mem_participants_of_mem_qualifiedDealers hi
      obtain ⟨d, hmem, rfl⟩ := List.mem_map.mp hi
      exact (h.inv.accepted d hmem).notMem_disqualified (hout _ (hn ▸ hrange) hnot)
  have hcommitments : s.commitments.reduceOption = c.commitmentsOf dealers := by
    rw [commitmentsOf, ← hqualified, DkgState.qualifiedDealers, List.map_map]
    refine ((List.map_congr_left fun d hmem => ?_).trans (List.map_id _)).symm
    refine (h.dealt d hmem ?_).symm
    rw [← hqualified]
    exact List.mem_map_of_mem hmem
  refine h.inv.agreedRound1_eq_ok_iff.mpr ⟨h.inv.isComplete_iff_forall.mpr fun i hi => ?_, ?_⟩
  · by_cases hmem : i ∈ dealers
    · exact .inl (hin i hmem)
    · exact .inr (hout i (hn ▸ hi) hmem)
  · rw [agreedOn, hcommitments, hepoch, hthreshold, hn]

/-! ### What spares those that remain -/

lemma Dealt.verify_of_mem {i : UInt32} (h : c.Dealt i) {s : DkgState P}
    (hparams : s.params = (c.epoch, c.threshold, c.numParticipants)) :
    (c.contribution i).package.verify s.epoch = .ok () ∧
      (c.contribution i).package.commitment.threshold = s.threshold := by
  have hepoch : s.epoch = c.epoch := congrArg Prod.fst hparams
  have hthreshold : s.threshold = c.threshold := congrArg (fun p => p.2.1) hparams
  refine ⟨hepoch ▸ h.verify, ?_⟩
  rw [h.commitment_eq, DealerCommitment.threshold, h.honest.coefficients_eq, List.length_map,
    h.length_eq, hthreshold, UInt32.ofNat_toNat]

/-- A package that is what its dealer has dealt, if the dealer remains. -/
def Genuine (c : Ceremony P S) (dealers : List UInt32) (package : Round1Package P S) : Prop :=
  package.dealerIndex ∈ dealers → package = (c.contribution package.dealerIndex).package

lemma Dealt.genuine {i : UInt32} (h : c.Dealt i) : c.Genuine dealers (c.contribution i).package :=
  fun _ => by rw [Round1Package.dealerIndex, h.dealerIndex_eq]

lemma Spared.submit {s : DkgState P} (h : c.Spared dealers s) {package : Round1Package P S}
    (hgenuine : c.Genuine dealers package) :
    c.Spared dealers (s.submitCommitment package).1 := by
  have hinv := h.inv.submitCommitment package
  rcases DkgState.submitCommitment_cases s package with ⟨idx, hrec, hs⟩ | ⟨hs, -⟩
  · rw [hs] at hinv ⊢
    refine ⟨hinv, h.params_eq, h.notMem, fun d hd hmem => ?_⟩
    rcases Slots.mem_reduceOption_set hd with heq | hd
    · obtain rfl := Option.some.inj heq
      exact congrArg Round1Package.commitment (hgenuine hmem)
    · exact h.dealt d hd hmem
  · rwa [hs]

lemma Spared.disqualify {s : DkgState P} (h : c.Spared dealers s) {i : UInt32}
    (hi : i ∉ dealers) : c.Spared dealers (s.disqualify i).1 := by
  have hinv := h.inv.disqualify i
  rcases DkgState.disqualify_cases s i with ⟨idx, -, -, hs⟩ | ⟨-, hs⟩
  · rw [hs] at hinv ⊢
    refine ⟨hinv, h.params_eq, fun d hd hmem => ?_, fun d hd hmem => ?_⟩
    · rcases DkgState.mem_disqualified_exclude.mp hmem with hmem | rfl
      · exact h.notMem d hd hmem
      · exact hi hd
    · rcases Slots.mem_reduceOption_set hd with heq | hd
      · exact absurd heq (by simp)
      · exact h.dealt d hd hmem
  · rwa [hs]

/-- To disqualify another one leaves as many as the threshold. -/
lemma Spared.disqualify_eq_ok {s : DkgState P} (h : c.Spared dealers s)
    (hremaining : c.Remaining dealers) {i : UInt32} (hi : i ∈ participants c.numParticipants)
    (hnot : i ∉ dealers) : (s.disqualify i).2 = .ok () := by
  have hafter := h.disqualify hnot
  have hthreshold : s.threshold = c.threshold := congrArg (fun p => p.2.1) h.params_eq
  have hn : s.numParticipants = c.numParticipants := congrArg (fun p => p.2.2) h.params_eq
  have hn' : (s.disqualify i).1.numParticipants = c.numParticipants :=
    congrArg (fun p => p.2.2) hafter.params_eq
  -- the remaining ones and the disqualified ones are different participants
  have hsub : (dealers ++ (s.disqualify i).1.disqualified).Subperm
      (participants c.numParticipants) := by
    refine List.subperm_of_subset (List.nodup_append.mpr
      ⟨hremaining.sublist.nodup (nodup_participants _), hafter.inv.nodup, ?_⟩)
      (List.append_subset.mpr ⟨hremaining.sublist.subset, fun d hd => ?_⟩)
    · rintro d hd _ hd' rfl
      exact hafter.notMem d hd hd'
    · exact hn' ▸ hafter.inv.disqualified_mem d hd
  have hle := hsub.length_le
  rw [List.length_append, length_participants] at hle
  have henough := hremaining.enough
  rcases h.inv.disqualify_eq i with ⟨-, hres⟩ | ⟨hout, -⟩
  · rw [hres, Outcome.refuse_of_neg]
    rw [hn, hthreshold]
    omega
  · exact absurd (hn ▸ hi) hout

lemma Spared.disqualifyAll {s : DkgState P} (h : c.Spared dealers s) {ds : List UInt32}
    (hds : ∀ d ∈ dealers, d ∉ ds) : c.Spared dealers (s.disqualifyAll ds).1 := by
  induction ds generalizing s with
  | nil => exact h
  | cons d ds ih =>
    have hnext := h.disqualify (fun hd => hds d hd List.mem_cons_self)
    rw [DkgState.disqualifyAll]
    split
    · exact ih hnext fun i hi hmem => hds i hi (List.mem_cons_of_mem d hmem)
    · exact hnext
    · exact hnext

omit [CurveScalar S] [CurvePoint P S] [Sha2] in
/-- What a participant may do: nobody that remains is disqualified, and what is delivered in their
names is what they have dealt. -/
def Spares (c : Ceremony P S) (dealers : List UInt32) (p : Participant P S) : Action P S → Prop
  | .submit package => c.Genuine dealers package
  | .disqualify d => d ∉ dealers
  | .applyTally => ∀ d ∈ dealers, d ∉ p.tally.disqualifiable
  | _ => True

variable [Snow]

lemma Spared.act {j : UInt32} {p : Participant P S} {a : Action P S}
    (h : c.Spared dealers p.state) (ha : c.Spares dealers p a) :
    c.Spared dealers (c.act j p a).1.state := by
  cases a with
  | submit package => exact h.submit ha
  | disqualify d => exact h.disqualify ha
  | applyTally => exact h.disqualifyAll ha
  | echo =>
    rw [Ceremony.act]
    split <;> exact h
  | confirm peers =>
    rw [Ceremony.act]
    split
    · exact h
    · split <;> exact h
  | openPackage sealedShare rng =>
    rw [Ceremony.act]
    split
    · exact h
    · split
      · exact h
      · split <;> exact h
      · exact h
  | hear complaint =>
    rw [Ceremony.act]
    split <;> exact h

/-- What can come of steps that spare those that remain. -/
def Undisturbed (c : Ceremony P S) (dealers : List UInt32) (w : World P S) : Prop :=
  Relation.ReflTransGen (c.StepOf (c.Spares dealers)) c.init w

omit [Snow] in
lemma spared_start (hvalid : c.Valid) {j : UInt32} (hj : j ∈ c.honest) :
    c.Spared dealers (c.start j).state := by
  have hnew : c.Spared dealers (DkgState.new c.epoch c.threshold c.numParticipants) :=
    ⟨DkgState.inv_new _ _ _, rfl, by simp [DkgState.new], by simp [DkgState.new]⟩
  exact hnew.submit (hvalid.honest_dealer hj).genuine

lemma Undisturbed.spared (hvalid : c.Valid) {w : World P S} (h : c.Undisturbed dealers w) :
    ∀ j ∈ c.honest, c.Spared dealers (w.participant j).state := by
  induction h with
  | refl => exact fun j hj => spared_start hvalid hj
  | tail _ hnext ih =>
    obtain ⟨j, hj, a, -, hspares, rfl⟩ := hnext
    intro i hi
    rw [next]
    by_cases hij : i = j
    · subst hij
      rw [World.participant_after_self]
      exact (ih i hi).act hspares
    · rw [World.participant_after_of_ne hij]
      exact ih i hi

/-! ### One participant after the other -/

/-- Steps of participant `j` alone. -/
structure Alone (c : Ceremony P S) (T : Participant P S → Action P S → Prop) (j : UInt32)
    (w w' : World P S) : Prop where
  steps : Relation.ReflTransGen (c.StepOf T) w w'
  others : ∀ i, i ≠ j → w'.participant i = w.participant i
  published : w.published ⊆ w'.published

variable {T : Participant P S → Action P S → Prop}

lemma Alone.refl (j : UInt32) (w : World P S) : c.Alone T j w w :=
  ⟨.refl, fun _ _ => rfl, List.Subset.refl _⟩

lemma Alone.trans {j : UInt32} {w w' w'' : World P S} (h : c.Alone T j w w')
    (h' : c.Alone T j w' w'') : c.Alone T j w w'' :=
  ⟨h.steps.trans h'.steps, fun i hi => (h'.others i hi).trans (h.others i hi),
    List.Subset.trans h.published h'.published⟩

lemma alone_next {j : UInt32} {w : World P S} {a : Action P S} (hj : j ∈ c.honest)
    (hallowed : c.Allows w a) (hpermitted : T (w.participant j) a) : c.Alone T j w (c.next w j a) :=
  ⟨.single ⟨j, hj, a, hallowed, hpermitted, rfl⟩,
    fun _ hi => World.participant_after_of_ne hi, List.subset_append_right _ _⟩

/-- What another participant does leaves it as it is. -/
def Stable (c : Ceremony P S) (T : Participant P S → Action P S → Prop)
    (Q : World P S → UInt32 → Prop) : Prop :=
  ∀ ⦃i j w w'⦄, i ≠ j → c.Alone T j w w' → Q w i → Q w' i

/-- What every participant can reach alone, all of them can. -/
lemma exists_phase {R Q : World P S → UInt32 → Prop} (hR : c.Stable T R) (hQ : c.Stable T Q)
    {js : List UInt32} (hnd : js.Nodup)
    (hact : ∀ j ∈ js, ∀ w, R w j → ∃ w', c.Alone T j w w' ∧ Q w' j) {w : World P S}
    (hstart : ∀ j ∈ js, R w j) :
    ∃ w', Relation.ReflTransGen (c.StepOf T) w w' ∧ (∀ j ∈ js, Q w' j) ∧
      ∀ i, i ∉ js → Q w i → Q w' i := by
  induction js generalizing w with
  | nil => exact ⟨w, .refl, fun j hj => absurd hj List.not_mem_nil, fun i _ hi => hi⟩
  | cons j js ih =>
    obtain ⟨hj, hnd⟩ := List.nodup_cons.mp hnd
    obtain ⟨w₁, halone, hdone⟩ := hact j List.mem_cons_self w (hstart j List.mem_cons_self)
    -- the others are where they were
    have hrest : ∀ i ∈ js, R w₁ i := fun i hi =>
      hR (ne_of_mem_of_not_mem hi hj) halone (hstart i (List.mem_cons_of_mem j hi))
    obtain ⟨w₂, hsteps, hall, hkept⟩ :=
      ih hnd (fun i hi => hact i (List.mem_cons_of_mem j hi)) hrest
    refine ⟨w₂, halone.steps.trans hsteps, List.forall_mem_cons.mpr ⟨hkept j hj hdone, hall⟩,
      fun i hi hQi => ?_⟩
    obtain ⟨hij, hi⟩ := not_or.mp (List.mem_cons.not.mp hi)
    exact hkept i hi (hQ hij halone hQi)

lemma stable_of_participant (Q : UInt32 → Participant P S → Prop) :
    c.Stable T fun w j => Q j (w.participant j) := by
  intro i j w w' hij halone h
  rwa [halone.others i hij]

/-! ### Round 1 -/

/-- The ways of acting that it takes to finish among those that remain. -/
structure Permits (c : Ceremony P S) (dealers : List UInt32)
    (T : Participant P S → Action P S → Prop) : Prop where
  submit : ∀ p, ∀ i ∈ dealers, T p (.submit (c.contribution i).package)
  disqualify : ∀ p, ∀ i ∈ participants c.numParticipants, i ∉ dealers → T p (.disqualify i)
  echo : ∀ p, T p .echo
  confirm : ∀ p peers, T p (.confirm peers)
  openPackage : ∀ p sealedShare rng, T p (.openPackage sealedShare rng)

omit [Snow] in
lemma Remaining.permits_spares (h : c.Remaining dealers) :
    c.Permits dealers (c.Spares dealers) where
  submit _ i hi := (h.dealt i hi).genuine
  disqualify _ _ _ hi := hi
  echo _ := trivial
  confirm _ _ := trivial
  openPackage _ _ _ := trivial

variable {w : World P S} {j : UInt32}

/-- A participant can disqualify the others. -/
lemma exists_exclude (hpermits : c.Permits dealers T) (hj : j ∈ c.honest)
    (hspared : c.Spared dealers (w.participant j).state) :
    ∃ w', c.Alone T j w w' ∧ c.Spared dealers (w'.participant j).state ∧
      ∀ i ∈ participants c.numParticipants, i ∉ dealers →
        i ∈ (w'.participant j).state.disqualified := by
  have hgone : ∀ is ⊆ participants c.numParticipants, ∃ w', c.Alone T j w w' ∧
      c.Spared dealers (w'.participant j).state ∧
        ∀ i ∈ is, i ∉ dealers → i ∈ (w'.participant j).state.disqualified := by
    intro is his
    induction is with
    | nil => exact ⟨w, .refl j w, hspared, fun i hi => absurd hi List.not_mem_nil⟩
    | cons i is ih =>
      obtain ⟨hi, his⟩ := List.cons_subset.mp his
      obtain ⟨w', halone, hspared', hgone⟩ := ih his
      by_cases hmem : i ∈ dealers
      · exact ⟨w', halone, hspared',
          List.forall_mem_cons.mpr ⟨fun hnot => absurd hmem hnot, hgone⟩⟩
      refine ⟨_, halone.trans (alone_next hj (a := .disqualify i) trivial
        (hpermits.disqualify _ i hi hmem)), ?_⟩
      rw [next, World.participant_after_self]
      refine ⟨hspared'.disqualify hmem, ?_⟩
      have hn : (w'.participant j).state.numParticipants = c.numParticipants :=
        congrArg (fun p => p.2.2) hspared'.params_eq
      obtain ⟨idx, hidx, hlt⟩ := hspared'.inv.mem_participants_iff.mp (hn ▸ hi)
      have hs : ((w'.participant j).state.disqualify i).1
          = (w'.participant j).state.exclude idx i := by
        rcases DkgState.disqualify_cases (w'.participant j).state i with
          ⟨idx', hidx', -, hs⟩ | ⟨hnone, -⟩
        · obtain rfl := Option.some.inj (hidx.symm.trans hidx')
          exact hs
        · exact absurd (hnone idx hidx) (not_le.mpr hlt)
      simp only [act, hs]
      exact List.forall_mem_cons.mpr ⟨fun _ => DkgState.mem_disqualified_exclude.mpr (.inr rfl),
        fun k hk hnot => DkgState.mem_disqualified_exclude.mpr (.inl (hgone k hk hnot))⟩
  exact hgone _ (List.Subset.refl _)

omit [Snow] in
/-- Once a package of one that remains was submitted, its dealer is qualified. -/
lemma Spared.mem_qualifiedDealers_submit {s : DkgState P} (h : c.Spared dealers s)
    (hremaining : c.Remaining dealers) {i : UInt32} (hi : i ∈ dealers) :
    i ∈ (s.submitCommitment (c.contribution i).package).1.qualifiedDealers := by
  have hn : s.numParticipants = c.numParticipants := congrArg (fun p => p.2.2) h.params_eq
  have hindex := (hremaining.dealt i hi).dealerIndex_eq
  obtain ⟨hverify, hthreshold⟩ := (hremaining.dealt i hi).verify_of_mem h.params_eq
  obtain ⟨idx, hidx, hlt⟩ :=
    h.inv.mem_participants_iff.mp (hn ▸ hremaining.sublist.subset hi)
  rcases DkgState.submitCommitment_cases s (c.contribution i).package with ⟨k, hrec, hs⟩ | ⟨hs, hne⟩
  · rw [hs]
    exact List.mem_map.mpr ⟨_, (Slots.mem_reduceOption_set_some hrec.empty).mpr (.inl rfl), hindex⟩
  · -- the slot was taken, by the same dealer
    rw [hs]
    obtain ⟨d, hd⟩ := DkgState.exists_slot_of_not_recorded hverify
      (by rw [hindex]; exact h.notMem i hi) (by rw [hindex]; exact hidx) hlt hthreshold hne
    have hmem : d ∈ s.commitments.reduceOption :=
      List.reduceOption_mem_iff.mpr (List.mem_of_getElem? hd)
    refine List.mem_map.mpr ⟨d, hmem, ?_⟩
    exact (DkgState.slotKey_eq_iff (h.inv.accepted d hmem).ne_zero hidx).mp
      (h.inv.indexed idx d hd)

omit [Snow] in
lemma disqualified_submit (s : DkgState P) (package : Round1Package P S) :
    (s.submitCommitment package).1.disqualified = s.disqualified ∧
      s.qualifiedDealers ⊆ (s.submitCommitment package).1.qualifiedDealers := by
  rcases DkgState.submitCommitment_cases s package with ⟨k, hrec, hs⟩ | ⟨hs, -⟩
  · rw [hs]
    refine ⟨rfl, List.map_subset _ fun d hd => ?_⟩
    exact (Slots.mem_reduceOption_set_some hrec.empty).mpr (.inr hd)
  · rw [hs]
    exact ⟨rfl, List.Subset.refl _⟩

/-- Then it can record what those that remain have dealt. -/
lemma exists_record (hpermits : c.Permits dealers T) (hremaining : c.Remaining dealers)
    (hj : j ∈ c.honest) (hspared : c.Spared dealers (w.participant j).state)
    (hgone : ∀ i ∈ participants c.numParticipants, i ∉ dealers →
      i ∈ (w.participant j).state.disqualified) :
    ∃ w', c.Alone T j w w' ∧
      (w'.participant j).state.agreedRound1 = .ok (c.agreedOn dealers) := by
  have hsubmit : ∀ is ⊆ dealers, ∃ w', c.Alone T j w w' ∧
      c.Spared dealers (w'.participant j).state ∧
      (w'.participant j).state.disqualified = (w.participant j).state.disqualified ∧
      ∀ i ∈ is, i ∈ (w'.participant j).state.qualifiedDealers := by
    intro is his
    induction is with
    | nil => exact ⟨w, .refl j w, hspared, rfl, fun i hi => absurd hi List.not_mem_nil⟩
    | cons i is ih =>
      obtain ⟨hi, his⟩ := List.cons_subset.mp his
      obtain ⟨w', halone, hspared', hdisq, hin⟩ := ih his
      obtain ⟨hhonest, -, hlength, hcommit, -⟩ := hremaining.dealt i hi
      have hallowed : c.Allows w' (.submit (c.contribution i).package) := by
        rw [Allows, hcommit, hhonest.coefficients_eq, List.length_map, hlength]
        exact c.threshold.toNat_lt
      obtain ⟨hsame, hsub⟩ :=
        disqualified_submit (w'.participant j).state (c.contribution i).package
      refine ⟨_, halone.trans (alone_next hj hallowed (hpermits.submit _ i hi)), ?_⟩
      rw [next, World.participant_after_self]
      exact ⟨hspared'.submit (hremaining.dealt i hi).genuine, hsame.trans hdisq,
        List.forall_mem_cons.mpr ⟨hspared'.mem_qualifiedDealers_submit hremaining hi,
          fun k hk => hsub (hin k hk)⟩⟩
  obtain ⟨w', halone, hspared', hdisq, hin⟩ := hsubmit _ (List.Subset.refl _)
  exact ⟨w', halone, hspared'.agreedRound1_eq hremaining
    (fun i hi hnot => hdisq ▸ hgone i hi hnot) hin⟩

/-- It has published the digest of the set. -/
def HasEchoed (c : Ceremony P S) (dealers : List UInt32) (w : World P S) (j : UInt32) : Prop :=
  (w.participant j).echoed = some (c.agreedOn dealers) ∧ w.Echoed j (c.agreedOn dealers)

lemma stable_hasEchoed : c.Stable T (c.HasEchoed dealers) := by
  rintro i j w w' hij halone ⟨hlast, hechoed⟩
  exact ⟨by rwa [halone.others i hij], halone.published hechoed⟩

lemma exists_echo (hpermits : c.Permits dealers T) (hj : j ∈ c.honest)
    (hagreed : (w.participant j).state.agreedRound1 = .ok (c.agreedOn dealers)) :
    ∃ w', c.Alone T j w w' ∧ c.HasEchoed dealers w' j := by
  refine ⟨_, alone_next hj (a := .echo) trivial (hpermits.echo _), ?_⟩
  have hact : c.act j (w.participant j) .echo
      = ({ w.participant j with echoed := some (c.agreedOn dealers), round2 := none },
        some (.echo (c.agreedOn dealers))) := by
    rw [act, hagreed]
  rw [next, hact]
  exact ⟨by rw [World.participant_after_self], World.echoed_after.mpr (.inl ⟨rfl, rfl⟩)⟩

/-- It has entered round 2 with the set, and every given sub-share was delivered to it. -/
def HasOpened (c : Ceremony P S) (dealers opened : List UInt32) (j : UInt32)
    (p : Participant P S) : Prop :=
  ∃ (fresh : Dkg.Aggregator P S) (deliveries : List (SubShare S)),
    Dkg.Aggregator.fromAgreed j (c.agreedOn dealers) = .ok fresh ∧
    p.round2 = some (c.agreedOn dealers,
      Calls.run (Dkg.Aggregator.deliver (c.agreedOn dealers)) fresh deliveries) ∧
    ∀ i ∈ opened,
      ⟨i, j, Horner.horner (fromU32 j : S) (c.contribution i).dealer.polynomial⟩ ∈ deliveries

/-- It enters once everybody has published the digest. -/
lemma exists_enter (hpermits : c.Permits dealers T) (hvalid : c.Valid)
    (hremaining : c.Remaining dealers) (hhonest : j ∈ c.honest)
    (hechoed : (w.participant j).echoed = some (c.agreedOn dealers))
    (hothers : ∀ i ∈ c.honest, w.Echoed i (c.agreedOn dealers)) :
    ∃ w', c.Alone T j w w' ∧ c.HasOpened dealers [] j (w'.participant j) := by
  have hj := hvalid.honest_subset j hhonest
  have hset : ValidIndices (c.agreedOn dealers).dealerSet := by
    rw [hremaining.dealerSet_agreedOn]
    exact ⟨hremaining.ne_nil,
      fun h0 => (mem_participants.mp (hremaining.sublist.subset h0)).1 rfl,
      hremaining.sublist.nodup (nodup_participants _)⟩
  obtain ⟨fresh, hfresh⟩ : ∃ fresh : Dkg.Aggregator P S,
      Dkg.Aggregator.fromAgreed j (c.agreedOn dealers) = .ok fresh :=
    ⟨_, Dkg.Aggregator.new_eq_ok_iff.mpr ⟨(mem_participants.mp hj).1, hset, rfl⟩⟩
  let peers := (participants c.numParticipants).map fun i => (i, (c.agreedOn dealers).digest)
  have hfst : peers.map Prod.fst = participants c.numParticipants := by
    simp [peers, Function.comp_def]
  have hrelayed : c.Relayed S w peers := by
    refine ⟨hfst ▸ nodup_participants _, hfst ▸ List.Subset.refl _, fun p hp hi => ?_⟩
    obtain ⟨i, -, rfl⟩ := List.mem_map.mp hp
    exact ⟨(c.agreedOn dealers), hothers i hi, rfl⟩
  have henter : c.enterRound2 j (c.agreedOn dealers) (peers.map Prod.snd) = .ok fresh := by
    have hconfirm : (c.agreedOn dealers).confirmAll (peers.map Prod.snd) c.numParticipants.toNat
        = .ok () :=
      AgreedRound1.confirmAll_eq_ok_iff.mpr ⟨by simp [peers, length_participants], by simp [peers]⟩
    rw [enterRound2, hconfirm, Outcome.ok_bind, hfresh]
  refine ⟨_, alone_next hhonest (a := .confirm peers) hrelayed (hpermits.confirm _ _), fresh, [],
    hfresh, ?_, fun i hi => absurd hi List.not_mem_nil⟩
  have hact : c.act j (w.participant j) (.confirm peers)
      = ({ w.participant j with round2 := some ((c.agreedOn dealers), fresh) }, none) := by
    rw [act, hechoed]
    simp only [henter, hechoed]
  rw [next, hact, World.participant_after_self]
  rfl

/-! ### Round 2 -/

/-- The handshake reads what was written between the same two keys. -/
def NoiseRoundTrip (publicOf : X25519Key → X25519Key) : Prop :=
  ∀ (sender recipient ephemeral : X25519Key) (prologue plaintext message : Bytes),
    noiseSeal sender (publicOf recipient) ephemeral prologue plaintext = some message →
      noiseOpen recipient (publicOf sender) prologue message = some plaintext

/-- Those that remain have sealed their sub-shares, and the roster has their keys and those of the
participants that follow the protocol. -/
structure Sealed (c : Ceremony P S) (dealers : List UInt32) (publicOf : X25519Key → X25519Key)
    (ephemerals : UInt32 → UInt32 → X25519Key) : Prop where
  publicKey_eq : ∀ i, i ∈ dealers ∨ i ∈ c.honest →
    c.roster.publicKey i = .ok (publicOf (c.contribution i).x25519Secret)
  sealRound2_eq : ∀ i ∈ dealers, ∃ packages,
    sealRound2 (c.contribution i).dealer (c.contribution i).x25519Secret c.roster c.round
      (ephemerals i) = .ok packages

variable {publicOf : X25519Key → X25519Key} {ephemerals : UInt32 → UInt32 → X25519Key}

/-- A participant can open what those that remain have sealed for it. -/
lemma Sealed.exists_open [LawfulScalarBytes S] (hvalid : c.Valid)
    (hremaining : c.Remaining dealers) (hsealed : c.Sealed dealers publicOf ephemerals)
    (hnoise : NoiseRoundTrip publicOf) {i j : UInt32} (hi : i ∈ dealers) (hj : j ∈ c.honest) :
    ∃ sealedShare, openSubshareAgreedWithEvidence (c.contribution j).x25519Secret j c.roster
      c.round sealedShare (c.agreedOn dealers) = .ok (⟨i, j,
        Horner.horner (fromU32 j : S) (c.contribution i).dealer.polynomial⟩ : SubShare S) := by
  obtain ⟨hhonest, hindex, -, -, -⟩ := hremaining.dealt i hi
  have hi0 := (mem_participants.mp (hremaining.sublist.subset hi)).1
  have hj0 := (mem_participants.mp (hvalid.honest_subset j hj)).1
  have hkey := hsealed.publicKey_eq i (.inl hi)
  have hkey' := hsealed.publicKey_eq j (.inr hj)
  obtain ⟨packages, hpackages⟩ := hsealed.sealRound2_eq i hi
  obtain ⟨package, -, hpackage⟩ := Outcome.exists_of_mapM_eq_ok hpackages
    (SealedRoster.publicKey_eq_ok_iff.mp hkey')
  have hgenerate : (c.contribution i).dealer.generateSubshare j
      = .ok ⟨i, j, Horner.horner (fromU32 j : S) (c.contribution i).dealer.polynomial⟩ := by
    rw [Dkg.Dealer.generateSubshare_eq_ok hhonest.index_ne_zero hj0, hindex]
  rw [sealRound2For, hgenerate] at hpackage
  obtain ⟨-, recipient, dealer, ciphertext, hrecipient, hdealer, hseal, rfl⟩ :=
    sealSubshare_eq_ok_iff.mp hpackage
  obtain rfl := Outcome.ok.inj (hkey.symm.trans hdealer)
  obtain rfl := Outcome.ok.inj (hkey'.symm.trans hrecipient)
  exact ⟨⟨i, j, ciphertext⟩, openSubshareAgreedWithEvidence_eq_ok_iff.mpr
    ⟨_, hremaining.commitment_agreedOn hi,
      openEnvelope_eq_ok hi0 hj0 hkey (hnoise _ _ _ _ _ _ hseal), hhonest.verifySubshare_eq hj0⟩⟩

/-- In round 2 it can open them all. -/
lemma exists_open_all [LawfulScalarBytes S] (hpermits : c.Permits dealers T) (hvalid : c.Valid)
    (hremaining : c.Remaining dealers) (hsealed : c.Sealed dealers publicOf ephemerals)
    (hnoise : NoiseRoundTrip publicOf) (hj : j ∈ c.honest)
    (hopened : c.HasOpened dealers [] j (w.participant j)) :
    ∃ w', c.Alone T j w w' ∧ c.HasOpened dealers dealers j (w'.participant j) := by
  have hdealers : ∀ is ⊆ dealers, ∃ w', c.Alone T j w w' ∧
      c.HasOpened dealers is j (w'.participant j) := by
    intro is his
    induction is with
    | nil => exact ⟨w, .refl j w, hopened⟩
    | cons i is ih =>
      obtain ⟨hi, his⟩ := List.cons_subset.mp his
      obtain ⟨w', halone, fresh, deliveries, hfresh, hround2, hmem⟩ := ih his
      obtain ⟨sealedShare, hopen⟩ := hsealed.exists_open hvalid hremaining hnoise hi hj
      let rng : Rng S := .const 0
      have hopens := alone_next (w := w') hj (a := .openPackage sealedShare rng) trivial
        (hpermits.openPackage _ _ _)
      refine ⟨_, halone.trans hopens, fresh, deliveries ++ [_], hfresh, ?_,
        List.forall_mem_cons.mpr ⟨List.mem_append_right _ (List.mem_singleton_self _),
          fun i' hi' => List.mem_append_left _ (hmem i' hi')⟩⟩
      rw [next, World.participant_after_self, act, hround2]
      simp only [hopen]
      rw [Calls.run_append]
      rfl
  exact hdealers _ (List.Subset.refl _)

omit [Snow] in
/-- Whoever has opened them all has finished. -/
lemma Remaining.finished_of_hasOpened [PrimeOrder P] (hremaining : c.Remaining dealers)
    (hj : j ∈ participants c.numParticipants)
    (hopened : c.HasOpened dealers dealers j (w.participant j)) :
    Finished w j
      (dealers.map fun i =>
        Horner.horner (fromU32 j : S) (c.contribution i).dealer.polynomial).sum
      ((dealers.map fun i => (c.contribution i).dealer.polynomial.headD 0).sum
        • (generator : P)) := by
  obtain ⟨fresh, deliveries, hfresh, hround2, hmem⟩ := hopened
  have hagreed := hremaining.validAgreed
  have hdelivered : ∀ i ∈ (c.agreedOn dealers).dealerSet, ∃ s ∈ deliveries,
      s.dealerIndex = i ∧ Dkg.ValidDelivery (c.agreedOn dealers) j s := by
    rw [hremaining.dealerSet_agreedOn]
    intro i hi
    obtain ⟨hhonest, -, -, -, -⟩ := hremaining.dealt i hi
    exact ⟨_, hmem i hi, rfl, rfl, _, hremaining.commitment_agreedOn hi,
      hhonest.verifySubshare_eq (mem_participants.mp hj).1⟩
  obtain ⟨share, hfinalize⟩ := (Dkg.finalize_run_iff hagreed hfresh deliveries).mpr hdelivered
  obtain ⟨-, hshare, hkey⟩ := Dkg.finalize_run hagreed hfresh hfinalize
  -- the commitments are those to what was dealt
  have hcoefficients : ∀ (x : S), (c.agreedOn dealers).commitments.map
      (fun d => Horner.horner x d.coefficients) = dealers.map fun i =>
        Horner.horner x (c.contribution i).dealer.polynomial • (generator : P) := by
    intro x
    rw [agreedOn, commitmentsOf, List.map_map]
    refine List.map_congr_left fun i hi => ?_
    obtain ⟨hhonest, -, -, hcommit, -⟩ := hremaining.dealt i hi
    rw [Function.comp_apply, hcommit, hhonest.coefficients_eq,
      Horner.horner_map_smul]
  refine ⟨c.agreedOn dealers, _, hround2, ?_, ?_⟩
  · rw [hfinalize]
    refine congrArg Outcome.ok (smul_generator_injective (P := P) (hshare.trans ?_))
    change _ = List.sum _ • (generator : P)
    rw [hcoefficients, List.sum_smul, List.map_map]
    rfl
  · rw [hkey]
    refine congrArg Outcome.ok ?_
    simp only [← Horner.horner_zero (R := S)]
    rw [hcoefficients, List.sum_smul, List.map_map]
    rfl

/-- Round by round, those that follow the protocol can go on into round 2. -/
lemma exists_entered (hpermits : c.Permits dealers T) (hvalid : c.Valid)
    (hremaining : c.Remaining dealers)
    (hspared : ∀ j ∈ c.honest, c.Spared dealers (w.participant j).state) :
    ∃ w', Relation.ReflTransGen (c.StepOf T) w w' ∧
      ∀ j ∈ c.honest, c.HasOpened dealers [] j (w'.participant j) := by
  have hnd := c.honest.nodup_toList
  have hmem : ∀ {j}, j ∈ c.honest.toList ↔ j ∈ c.honest := Finset.mem_toList
  obtain ⟨w₁, hsteps₁, hcomplete, -⟩ := exists_phase
    (stable_of_participant fun _ p => c.Spared dealers p.state)
    (stable_of_participant fun _ p => p.state.agreedRound1 = .ok (c.agreedOn dealers)) hnd
    (fun j hj w hw => by
      obtain ⟨w₁, halone₁, hspared₁, hgone⟩ := exists_exclude hpermits (hmem.mp hj) hw
      obtain ⟨w₂, halone₂, hagreed⟩ :=
        exists_record hpermits hremaining (hmem.mp hj) hspared₁ hgone
      exact ⟨w₂, halone₁.trans halone₂, hagreed⟩)
    (fun j hj => hspared j (hmem.mp hj))
  obtain ⟨w₂, hsteps₂, hechoed, -⟩ := exists_phase
    (stable_of_participant fun _ p => p.state.agreedRound1 = .ok (c.agreedOn dealers))
    stable_hasEchoed hnd (fun j hj w hw => exists_echo hpermits (hmem.mp hj) hw) hcomplete
  have hstable : c.Stable T fun w j => (w.participant j).echoed = some (c.agreedOn dealers) ∧
      ∀ i ∈ c.honest, w.Echoed i (c.agreedOn dealers) := by
    rintro i j w w' hij halone ⟨hlast, hothers⟩
    exact ⟨by rwa [halone.others i hij], fun k hk => halone.published (hothers k hk)⟩
  obtain ⟨w₃, hsteps₃, hentered, -⟩ := exists_phase hstable
    (stable_of_participant fun j p => c.HasOpened dealers [] j p) hnd
    (fun j hj w hw => exists_enter hpermits hvalid hremaining (hmem.mp hj) hw.1 hw.2)
    (fun j hj => ⟨(hechoed j hj).1, fun i hi => (hechoed i (hmem.mpr hi)).2⟩)
  exact ⟨w₃, (hsteps₁.trans hsteps₂).trans hsteps₃, fun j hj => hentered j (hmem.mpr hj)⟩

/-- There they can open every package of those that remain. -/
lemma exists_opened [LawfulScalarBytes S] (hpermits : c.Permits dealers T) (hvalid : c.Valid)
    (hremaining : c.Remaining dealers) (hsealed : c.Sealed dealers publicOf ephemerals)
    (hnoise : NoiseRoundTrip publicOf)
    (hspared : ∀ j ∈ c.honest, c.Spared dealers (w.participant j).state) :
    ∃ w', Relation.ReflTransGen (c.StepOf T) w w' ∧
      ∀ j ∈ c.honest, c.HasOpened dealers dealers j (w'.participant j) := by
  have hmem : ∀ {j}, j ∈ c.honest.toList ↔ j ∈ c.honest := Finset.mem_toList
  obtain ⟨w₁, hsteps₁, hentered⟩ := exists_entered hpermits hvalid hremaining hspared
  obtain ⟨w₂, hsteps₂, hopened, -⟩ := exists_phase
    (stable_of_participant fun j p => c.HasOpened dealers [] j p)
    (stable_of_participant fun j p => c.HasOpened dealers dealers j p) c.honest.nodup_toList
    (fun j hj w hw => exists_open_all hpermits hvalid hremaining hsealed hnoise (hmem.mp hj) hw)
    (fun j hj => hentered j (hmem.mp hj))
  exact ⟨w₂, hsteps₁.trans hsteps₂, fun j hj => hopened j (hmem.mpr hj)⟩

/-- **The ceremony can always finish among those that remain.**  Whatever the others have done, and
whatever the participants that follow the protocol have done so far, in whatever order and how
often: as long as those that remain have dealt and sealed, what was delivered in their names is
what they have dealt, and none of them was disqualified, all participants that follow the protocol
can go on to finish, each with the sum of the values of the remaining polynomials at its index,
under the key of the sum of their constant terms; and no disqualification of another one is
answered with an error, now or on the way. -/
theorem Undisturbed.can_finish [PrimeOrder P] [LawfulScalarBytes S] (hvalid : c.Valid)
    (hremaining : c.Remaining dealers) (hsealed : c.Sealed dealers publicOf ephemerals)
    (hnoise : NoiseRoundTrip publicOf) (h : c.Undisturbed dealers w) :
    (∃ w', Relation.ReflTransGen (c.StepOf (c.Spares dealers)) w w' ∧ ∀ j ∈ c.honest,
      Finished w' j
        (dealers.map fun i =>
          Horner.horner (fromU32 j : S) (c.contribution i).dealer.polynomial).sum
        ((dealers.map fun i => (c.contribution i).dealer.polynomial.headD 0).sum
          • (generator : P))) ∧
    ∀ j ∈ c.honest, ∀ i ∈ participants c.numParticipants, i ∉ dealers →
      ((w.participant j).state.disqualify i).2 = .ok () := by
  obtain ⟨w', hsteps, hopened⟩ := exists_opened hremaining.permits_spares hvalid hremaining hsealed
    hnoise (h.spared hvalid)
  exact ⟨⟨w', hsteps, fun j hj =>
      hremaining.finished_of_hasOpened (hvalid.honest_subset j hj) (hopened j hj)⟩,
    fun j hj i hi hnot => (h.spared hvalid j hj).disqualify_eq_ok hremaining hi hnot⟩

end Ceremony

end Completion

/-! ### Two of three remain -/

section Three

open Reference Ceremony

lemma noiseRoundTrip_snow : NoiseRoundTrip publicOf :=
  fun _ _ _ _ _ _ => noiseOpen_of_noiseSeal

lemma remaining_three : three.Remaining [1, 2] where
  sublist := by
    rw [show participants three.numParticipants = [1, 2] ++ [3] from rfl]
    exact List.sublist_append_left _ _
  ne_nil := List.cons_ne_nil _ _
  enough := show (2 : UInt32).toNat ≤ 2 by decide
  dealt i hi := valid_three.honest_dealer (by simpa [three] using hi)

lemma sealed_three : three.Sealed [1, 2] publicOf fun i _ => Vector.replicate 32 i.toUInt8 where
  publicKey_eq i hi := by
    have hi' : i = 1 ∨ i = 2 := by simpa [three] using hi
    rcases hi' with rfl | rfl
    · rfl
    · rfl
  sealRound2_eq i hi := by
    rcases List.mem_pair.mp hi with rfl | rfl
    · exact ⟨_, rfl⟩
    · exact ⟨_, rfl⟩

/-- From the very beginning, 1 and 2 can finish without 3. -/
theorem can_finish_three :
    ∃ w, Relation.ReflTransGen (three.StepOf (three.Spares [1, 2])) three.init w ∧
      ∀ j ∈ three.honest, Finished w j
        ([1, 2].map fun i =>
          Horner.horner (fromU32 j : Residue) (three.contribution i).dealer.polynomial).sum
        (([1, 2].map fun i => (three.contribution i).dealer.polynomial.headD 0).sum
          • (generator : Residue)) :=
  (Undisturbed.can_finish valid_three remaining_three sealed_three noiseRoundTrip_snow .refl).1

/-- They finish with the key `5 + 6`. -/
lemma exists_finished_three : ∃ (w : World Residue Residue) (share : UInt32 → Residue),
    three.Reachable w ∧ ∀ j ∈ three.honest, Finished w j (share j) ((11 : ℕ) : Residue) := by
  obtain ⟨w, hsteps, hopened⟩ := exists_opened (w := three.init) remaining_three.permits_spares
    valid_three remaining_three sealed_three noiseRoundTrip_snow
    fun _ hj => spared_start valid_three hj
  have hkey : (([1, 2].map fun i => (three.contribution i).dealer.polynomial.headD 0).sum
      • (generator : Residue)) = ((11 : ℕ) : Residue) := by
    decide
  exact ⟨w, _, reachable_of_steps hsteps, fun j hj => hkey ▸ remaining_three.finished_of_hasOpened
    (valid_three.honest_subset j hj) (hopened j hj)⟩

end Three

end Frostito
