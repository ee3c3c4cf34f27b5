import Frostito.Reshare.GroupKey

/-!
# An epoch that rolls over

Old custodians submit commitments to the round state.  At some point the dealer set of the
state is put into the signed manifest, where it stays, whatever the dealer set of the state
becomes later.  New custodians join with the set of the manifest and verify each sub-share
that reaches them against the commitment that the state has for its dealer.

All of this can happen in any order and any number of times: submissions do not end with the
manifest, and what reaches a player may be anything.
-/

namespace Frostito.Reshare

/-- The round state, the signed manifest and the new custodians. -/
structure Rollover (P S : Type) where
  state : ReshareState P
  /-- The dealer set that every player aggregates over. -/
  manifest : Option (List UInt32)
  player : UInt32 → Option (Aggregator P S)

/-- What happens next. -/
inductive RolloverEvent (P S : Type) where
  | submit (submission : DealerCommitment P × ProofOfKnowledge P S)
  | publish
  | join (j : UInt32)
  | deliver (j : UInt32) (subshare : SubShare S)

section Rollover

variable {S P : Type} [CurveScalar S] [CurvePoint P S] [Sha2]

namespace Rollover

/-! ### The steps -/

/-- Before anything was submitted. -/
def start (state : ReshareState P) : Rollover P S := ⟨state, none, fun _ => none⟩

omit [CurveScalar S] [CurvePoint P S] [Sha2] in
@[simp] lemma state_start (state : ReshareState P) : (start state : Rollover P S).state = state :=
  rfl

/-- The commitment that the state has for a dealer. -/
def commitmentOf (r : Rollover P S) (d : UInt32) : Option (DealerCommitment P) :=
  r.state.getCommitments.find? fun c => c.dealerIndex = d

/-- Player `j` after it asked for an aggregator; it keeps the one that it has. -/
def joined (r : Rollover P S) (j : UInt32) : Option (Aggregator P S) :=
  match r.player j, r.manifest with
  | none, some dealers =>
    match Aggregator.new j dealers with
    | .ok a => some a
    | _ => none
  | player, _ => player

/-- Player `j` after a sub-share reached it. -/
def delivered (r : Rollover P S) (j : UInt32) (subshare : SubShare S) :
    Option (Aggregator P S) :=
  match r.player j, r.commitmentOf subshare.dealerIndex with
  | some a, some c => some (a.addSubshare subshare c).1
  | player, _ => player

/-- The next state of the rollover. -/
def next (r : Rollover P S) : RolloverEvent P S → Rollover P S
  | .submit submission => { r with state := (r.state.submit submission).1 }
  -- a manifest is signed once
  | .publish => { r with manifest := r.manifest <|> r.state.dealerSet }
  | .join j => { r with player := Function.update r.player j (r.joined j) }
  | .deliver j subshare => { r with player := Function.update r.player j (r.delivered j subshare) }

/-- The state of the rollover after some events. -/
def run (r : Rollover P S) (events : List (RolloverEvent P S)) : Rollover P S :=
  Calls.run (fun r e => (r.next e, ())) r events

/-- Player `j` has finished with a share and a polynomial. -/
def Finished (r : Rollover P S) (j : UInt32) (share : S) (p : SharePolynomial P) : Prop :=
  ∃ a, r.player j = some a ∧ a.finalize r.state.groupKey = .ok (share, p)

lemma run_cons (r : Rollover P S) (e : RolloverEvent P S) (events : List (RolloverEvent P S)) :
    r.run (e :: events) = (r.next e).run events :=
  rfl

lemma run_append (r : Rollover P S) (events later : List (RolloverEvent P S)) :
    r.run (events ++ later) = (r.run events).run later :=
  Calls.run_append _ _ _ _

/-- Before the manifest and the players only the state moves. -/
lemma run_start_submit (state : ReshareState P)
    (submissions : List (DealerCommitment P × ProofOfKnowledge P S)) :
    (start state).run (submissions.map .submit)
      = start (Calls.run ReshareState.submit state submissions) := by
  induction submissions generalizing state with
  | nil => rfl
  | cons m ms ih =>
    rw [List.map_cons, run_cons, Calls.run_cons, ← ih]
    rfl

/-! ### What a step does to a player -/

/-- What an event can make of player `j`. -/
inductive Moves (r : Rollover P S) (j : UInt32) :
    RolloverEvent P S → Option (Aggregator P S) → Prop where
  | stays {e : RolloverEvent P S} : Moves r j e (r.player j)
  | joins {dealers : List UInt32} {a : Aggregator P S} :
    r.player j = none → r.manifest = some dealers → Aggregator.new j dealers = .ok a →
      Moves r j (.join j) (some a)
  | receives {a : Aggregator P S} {subshare : SubShare S} {c : DealerCommitment P} :
    r.player j = some a → r.commitmentOf subshare.dealerIndex = some c →
      Moves r j (.deliver j subshare) (some (a.addSubshare subshare c).1)

lemma moves_next (r : Rollover P S) (e : RolloverEvent P S) (j : UInt32) :
    r.Moves j e ((r.next e).player j) := by
  cases e with
  | submit submission => exact .stays
  | publish => exact .stays
  | join i =>
    by_cases hij : j = i
    · subst hij
      simp only [next, Function.update_self, joined]
      split
      · next dealers hplayer hmanifest =>
        split
        · next a hnew => exact .joins hplayer hmanifest hnew
        · exact hplayer ▸ .stays
      · exact .stays
    · simp only [next, Function.update_of_ne hij]
      exact .stays
  | deliver i subshare =>
    by_cases hij : j = i
    · subst hij
      simp only [next, Function.update_self, delivered]
      split
      · next a c hplayer hcommitment => exact .receives hplayer hcommitment
      · exact .stays
    · simp only [next, Function.update_of_ne hij]
      exact .stays

lemma player_next_join {r : Rollover P S} {j : UInt32} {dealers : List UInt32}
    {a : Aggregator P S} (hplayer : r.player j = none) (hmanifest : r.manifest = some dealers)
    (hnew : Aggregator.new j dealers = .ok a) : (r.next (.join j)).player j = some a := by
  simp only [next, Function.update_self, joined, hplayer, hmanifest, hnew]

lemma player_next_deliver {r : Rollover P S} {j : UInt32} {a : Aggregator P S}
    {subshare : SubShare S} {c : DealerCommitment P} (hplayer : r.player j = some a)
    (hcommitment : r.commitmentOf subshare.dealerIndex = some c) :
    (r.next (.deliver j subshare)).player j = some (a.addSubshare subshare c).1 := by
  simp only [next, Function.update_self, delivered, hplayer, hcommitment]

/-! ### What every state satisfies -/

/-- The members of the manifest have committed, and every player aggregates over it what the
state has recorded. -/
structure Inv (r : Rollover P S) : Prop where
  state : r.state.Inv
  counts : ∀ c ∈ r.state.getCommitments, c.coefficients.length < 2 ^ 32
  manifest : ∀ dealers, r.manifest = some dealers →
    ∀ d ∈ dealers, ∃ c ∈ r.state.getCommitments, c.dealerIndex = d
  player : ∀ j a, r.player j = some a → ∃ dealers, r.manifest = some dealers ∧
    Reshare.Inv j dealers a ∧ a.commitments ⊆ r.state.getCommitments

/-- The second state was reached from the first one: the manifest is the same once there is
one, and a player keeps what it has accepted. -/
structure Later (r r' : Rollover P S) : Prop where
  state : r.state.Later r'.state
  manifest : ∀ dealers, r.manifest = some dealers → r'.manifest = some dealers
  player : ∀ j a, r.player j = some a → ∃ a', r'.player j = some a' ∧
    a.subshares.map Prod.fst ⊆ a'.subshares.map Prod.fst ∧ (a.isComplete = true → a' = a)

/-- An event submits no commitment with more coefficients than a `u32` counts. -/
def Counts : RolloverEvent P S → Prop
  | .submit submission => submission.1.coefficients.length < 2 ^ 32
  | _ => True

variable {r r' : Rollover P S} {j : UInt32}

omit [CurveScalar S] [CurvePoint P S] [Sha2] in
lemma mem_of_commitmentOf {d : UInt32} {c : DealerCommitment P} (h : r.commitmentOf d = some c) :
    c ∈ r.state.getCommitments ∧ c.dealerIndex = d :=
  ⟨List.mem_of_find?_eq_some h, by simpa using List.find?_some h⟩

lemma Inv.commitmentOf_eq (h : r.Inv) {c : DealerCommitment P}
    (hc : c ∈ r.state.getCommitments) : r.commitmentOf c.dealerIndex = some c :=
  (Keyed.find?_eq_some_iff (Sorted.nodup_of_pairwise h.state.pairwise_committed)).mpr ⟨hc, rfl⟩

/-! ### What a step keeps -/

section Aggregator

variable {dealers : List UInt32} {a : Aggregator P S}

omit [Sha2] in
/-- A complete aggregator has heard every dealer. -/
lemma mem_subshares_of_complete (h : Reshare.Inv j dealers a) (hcomplete : a.isComplete = true)
    {d : UInt32} (hd : d ∈ a.dealerSet) : d ∈ a.subshares.map Prod.fst := by
  obtain ⟨received, hr⟩ := h.holds
  have hlen : a.subshares.length = a.dealerSet.length := by
    simpa [Aggregator.isComplete] using hcomplete
  rw [hr.indices_eq]
  exact (hr.perm_dealerSet hlen).mem_iff.mpr hd

omit [Sha2] in
lemma addSubshare_of_complete (h : Reshare.Inv j dealers a) (hcomplete : a.isComplete = true)
    (subshare : SubShare S) (c : DealerCommitment P) : (a.addSubshare subshare c).1 = a :=
  Aggregator.addSubshare_unchanged fun hadd => by
    have hacc := Aggregator.addSubshare_eq_ok_true_iff.mp hadd
    exact hacc.notMem (mem_subshares_of_complete h hcomplete hacc.mem)

omit [Sha2] in
lemma subshares_subset_addSubshare (a : Aggregator P S) (subshare : SubShare S)
    (c : DealerCommitment P) :
    a.subshares.map Prod.fst ⊆ (a.addSubshare subshare c).1.subshares.map Prod.fst := by
  rcases a.addSubshare_cases subshare c with ⟨-, hadd⟩ | ⟨hsame, -⟩
  · rw [hadd, Aggregator.add, List.map_append]
    exact List.subset_append_left _ _
  · rw [hsame]
    exact List.Subset.refl _

end Aggregator

lemma Later.refl (r : Rollover P S) : r.Later r where
  state := ReshareState.later_run (S := S) r.state []
  manifest _ hmanifest := hmanifest
  player _ a hplayer := ⟨a, hplayer, List.Subset.refl _, fun _ => rfl⟩

omit [CurveScalar S] [CurvePoint P S] [Sha2] in
lemma Later.trans {r'' : Rollover P S} (h : r.Later r') (h' : r'.Later r'') : r.Later r'' where
  state := ⟨h'.state.oldThreshold_eq.trans h.state.oldThreshold_eq,
    h'.state.newThreshold_eq.trans h.state.newThreshold_eq,
    h'.state.groupKey_eq.trans h.state.groupKey_eq,
    List.Subset.trans h.state.subset h'.state.subset⟩
  manifest dealers hmanifest := h'.manifest dealers (h.manifest dealers hmanifest)
  player j a hplayer := by
    obtain ⟨a', hplayer', hsub, hkeep⟩ := h.player j a hplayer
    obtain ⟨a'', hplayer'', hsub', hkeep'⟩ := h'.player j a' hplayer'
    refine ⟨a'', hplayer'', List.Subset.trans hsub hsub', fun hcomplete => ?_⟩
    have hsame := hkeep hcomplete
    exact (hkeep' (hsame ▸ hcomplete)).trans hsame

/-- A step keeps the manifest, what is recorded, and what the players have accepted. -/
lemma Inv.later_next (h : r.Inv) (e : RolloverEvent P S) : r.Later (r.next e) where
  state := by
    cases e with
    | submit submission => exact ReshareState.later_run r.state [submission]
    | publish => exact (Later.refl r).state
    | join i => exact (Later.refl r).state
    | deliver i subshare => exact (Later.refl r).state
  manifest dealers hmanifest := by
    cases e with
    | submit submission => exact hmanifest
    | publish => simp [next, hmanifest]
    | join i => exact hmanifest
    | deliver i subshare => exact hmanifest
  player j a hplayer := by
    obtain ⟨dealers, -, hinv, -⟩ := h.player j a hplayer
    have hmove := r.moves_next e j
    generalize (r.next e).player j = player at hmove ⊢
    cases hmove with
    | stays => exact ⟨a, hplayer, List.Subset.refl _, fun _ => rfl⟩
    | joins hnone => exact absurd (hplayer.symm.trans hnone) (by simp)
    | receives hplayer' hcommitment =>
      obtain rfl := Option.some.inj (hplayer.symm.trans hplayer')
      exact ⟨_, rfl, subshares_subset_addSubshare _ _ _,
        fun hcomplete => addSubshare_of_complete hinv hcomplete _ _⟩

/-- A step keeps the invariant. -/
lemma Inv.next (h : r.Inv) {e : RolloverEvent P S} (hcount : Counts e) : (r.next e).Inv := by
  have hlater := h.later_next e
  have hstate : (r.next e).state.Inv ∧
      ∀ c ∈ (r.next e).state.getCommitments, c.coefficients.length < 2 ^ 32 := by
    cases e with
    | submit submission =>
      have hone : ∀ m ∈ [submission], m.1.coefficients.length < 2 ^ 32 :=
        List.forall_mem_singleton.mpr hcount
      exact ⟨h.state.submit submission, ReshareState.forall_recorded_run h.counts hone⟩
    | publish => exact ⟨h.state, h.counts⟩
    | join i => exact ⟨h.state, h.counts⟩
    | deliver i subshare => exact ⟨h.state, h.counts⟩
  refine ⟨hstate.1, hstate.2, fun dealers hmanifest d hd => ?_, fun j a hplayer => ?_⟩
  · cases hbefore : r.manifest with
    | some dealers' =>
      obtain rfl := Option.some.inj (hmanifest.symm.trans (hlater.manifest _ hbefore))
      obtain ⟨c, hc, hindex⟩ := h.manifest _ hbefore d hd
      exact ⟨c, hlater.state.subset hc, hindex⟩
    | none =>
      -- the manifest was published now, from this state
      cases e with
      | publish =>
        simp only [Rollover.next, hbefore] at hmanifest
        exact ReshareState.exists_recorded hmanifest hd
      | submit submission => exact absurd (hbefore.symm.trans hmanifest) (by simp)
      | join i => exact absurd (hbefore.symm.trans hmanifest) (by simp)
      | deliver i subshare => exact absurd (hbefore.symm.trans hmanifest) (by simp)
  · have hmove := r.moves_next e j
    generalize hafter : (r.next e).player j = player at hmove
    rw [hplayer] at hafter
    cases hmove with
    | stays =>
      obtain ⟨dealers, hmanifest, hinv, hsub⟩ := h.player j a hafter.symm
      exact ⟨dealers, hlater.manifest _ hmanifest, hinv,
        List.Subset.trans hsub hlater.state.subset⟩
    | joins hnone hmanifest hnew =>
      obtain rfl := Option.some.inj hafter
      obtain ⟨-, -, ha⟩ := Aggregator.new_eq_ok_iff.mp hnew
      exact ⟨_, hlater.manifest _ hmanifest, Reshare.inv_new hnew, by simp [ha]⟩
    | @receives a' subshare c hplayer' hcommitment =>
      obtain rfl := Option.some.inj hafter
      obtain ⟨dealers, hmanifest, hinv, hsub⟩ := h.player j a' hplayer'
      refine ⟨dealers, hlater.manifest _ hmanifest, hinv.addSubshare subshare c, ?_⟩
      refine List.Subset.trans ?_ hlater.state.subset
      rcases a'.addSubshare_cases subshare c with ⟨-, hadd⟩ | ⟨hsame, -⟩
      · rw [hadd, Aggregator.add]
        refine List.append_subset.mpr ⟨hsub, List.cons_subset.mpr ⟨?_, List.nil_subset _⟩⟩
        exact (mem_of_commitmentOf hcommitment).1
      · rwa [hsame]

/-- Whatever happens, the invariant holds afterwards, in a later state. -/
theorem Inv.run (h : r.Inv) {events : List (RolloverEvent P S)}
    (hcounts : ∀ e ∈ events, Counts e) : (r.run events).Inv ∧ r.Later (r.run events) :=
  Calls.run_invariant (I := fun r' => r'.Inv ∧ r.Later r') ⟨h, Later.refl r⟩
    fun e he _ hr => ⟨hr.1.next (hcounts e he), hr.2.trans (hr.1.later_next e)⟩

/-! ### What the players compute -/

/-- The coefficients that the state has recorded for a dealer. -/
def coefficientsOf (r : Rollover P S) (d : UInt32) : List P :=
  ((r.commitmentOf d).map DealerCommitment.coefficients).getD []

/-- The Lagrange-weighted combination of what the state has recorded for the dealers. -/
def sharing (r : Rollover P S) (dealers : List UInt32) : List P :=
  Horner.combine r.state.newThreshold.toNat dealers (lagrangeCoeff dealers : UInt32 → S)
    r.coefficientsOf

section Complete

variable {dealers : List UInt32} {a : Aggregator P S}

/-- What a player has from a dealer is what the state has recorded for it. -/
lemma Inv.recorded (h : r.Inv) (hinv : Reshare.Inv j dealers a)
    (hsub : a.commitments ⊆ r.state.getCommitments)
    (hcomplete : a.subshares.length = a.dealerSet.length) {d : UInt32} (hd : d ∈ a.dealerSet) :
    ∃ c ∈ r.state.getCommitments, c.dealerIndex = d ∧ a.coefficientsOf d = c.coefficients ∧
      r.coefficientsOf d = c.coefficients ∧ a.newThreshold = r.state.newThreshold := by
  obtain ⟨c, hc, hof, hcoeffs, hthreshold⟩ := hinv.exists_stored hcomplete hd
  have hindex := Aggregator.dealerIndex_of_commitmentOf hof
  refine ⟨c, hsub hc, hindex, hcoeffs, ?_, ?_⟩
  · rw [coefficientsOf, ← hindex, h.commitmentOf_eq (hsub hc)]
    rfl
  · rw [← hthreshold, h.state.threshold_eq c (hsub hc)]

/-- Every player that has heard all dealers derives the same polynomial. -/
lemma Inv.combination_eq (h : r.Inv) (hinv : Reshare.Inv j dealers a)
    (hsub : a.commitments ⊆ r.state.getCommitments)
    (hcomplete : a.subshares.length = a.dealerSet.length) :
    a.combination = r.sharing (dealers.insertionSort (· ≤ ·)) := by
  obtain ⟨d, hd⟩ := List.exists_mem_of_ne_nil _ hinv.validIndices.ne_nil
  obtain ⟨-, -, -, -, -, hthreshold⟩ := h.recorded hinv hsub hcomplete hd
  rw [Aggregator.combination, sharing, hthreshold, ← hinv.dealerSet_eq]
  refine Horner.combine_congr fun d hd => ?_
  obtain ⟨c, -, -, hstored, hrecorded, -⟩ := h.recorded hinv hsub hcomplete hd
  rw [hstored, hrecorded]

/-- The constant term is the one that the check of the state compares. -/
lemma Inv.constantTerm_eq (h : r.Inv) (hinv : Reshare.Inv j dealers a)
    (hsub : a.commitments ⊆ r.state.getCommitments)
    (hcomplete : a.subshares.length = a.dealerSet.length) :
    a.constantTerm = r.state.derivedKey dealers := by
  have hperm := hinv.perm_dealerSet
  have hconstant : ∀ d ∈ a.dealerSet, (a.coefficientsOf d).headD 0 = r.state.constantOf d := by
    intro d hd
    obtain ⟨c, hc, rfl, hstored, -⟩ := h.recorded hinv hsub hcomplete hd
    rw [hstored, h.state.constantOf_eq hc]
  rw [Aggregator.constantTerm, ReshareState.derivedKey,
    lagrangeCoeff_congr fun i => hperm.mem_iff,
    List.map_congr_left fun d hd => by rw [hconstant d hd]]
  exact (hperm.map _).sum_eq

variable (hinj : Function.Injective (fromU32 : UInt32 → S))
include hinj

/-- A player finishes once it has heard every dealer of the manifest, if the recorded
commitments combine to the expected key, and never if they do not. -/
theorem Inv.exists_finalize_iff (h : r.Inv) (hinv : Reshare.Inv j dealers a)
    (hsub : a.commitments ⊆ r.state.getCommitments) :
    (∃ share p, a.finalize r.state.groupKey = .ok (share, p)) ↔
      a.isComplete = true ∧ r.state.derivedKey dealers = r.state.groupKey := by
  rw [Aggregator.isComplete, beq_iff_eq]
  by_cases hcomplete : a.subshares.length = a.dealerSet.length
  · rw [hinv.finalize_eq hcomplete (fun c hc => h.counts c (hsub hc)) hinj
      fun c hc => h.state.coefficients_ne_nil (hsub hc), h.constantTerm_eq hinv hsub hcomplete]
    by_cases hkey : r.state.derivedKey dealers = r.state.groupKey
    · simp [hkey, hcomplete]
    · simp [hkey]
  · simp [Aggregator.finalize_of_incomplete hcomplete, hcomplete]

variable {share : S} {p : SharePolynomial P}

/-- What a player has finished with stays. -/
lemma Inv.finished_later (h : r.Inv) (hlater : r.Later r') (hfin : r.Finished j share p) :
    r'.Finished j share p := by
  obtain ⟨a, hplayer, hfinalize⟩ := hfin
  obtain ⟨dealers, -, hinv, hsub⟩ := h.player j a hplayer
  obtain ⟨a', hplayer', -, hkeep⟩ := hlater.player j a hplayer
  obtain ⟨hcomplete, -⟩ := (h.exists_finalize_iff hinj hinv hsub).mp ⟨share, p, hfinalize⟩
  obtain rfl := hkeep hcomplete
  exact ⟨_, hplayer', by rw [hlater.state.groupKey_eq, hfinalize]⟩

/-- All players finish with one polynomial, whose constant term is the expected key, and with
their shares on it. -/
lemma Inv.finished_spec (h : r.Inv) (hmanifest : r.manifest = some dealers)
    (hfin : r.Finished j share p) :
    j ≠ 0 ∧ p.coefficients = r.sharing (dealers.insertionSort (· ≤ ·)) ∧
      p.coefficients.head? = some r.state.groupKey ∧
      Sharing.IsShare (generator : P) p.coefficients (fromU32 j) share := by
  obtain ⟨a, hplayer, hfinalize⟩ := hfin
  obtain ⟨dealers', hmanifest', hinv, hsub⟩ := h.player j a hplayer
  obtain rfl := Option.some.inj (hmanifest.symm.trans hmanifest')
  obtain ⟨hcomplete, -, hp, hkey, -⟩ := (hinv.finalize_eq_ok_iff hinj).mp hfinalize
  exact ⟨hinv.player_ne_zero, hp.trans (h.combination_eq hinv hsub hcomplete), hkey,
    hinv.isShare_of_finalize hinj hfinalize⟩

end Complete

/-- The invariant holds at the beginning. -/
lemma inv_start {targetEpoch : UInt64}
    {oldDealerCount oldThreshold newThreshold newPlayerCount : UInt32} {groupKey : P}
    {state : ReshareState P}
    (hnew : state
      = .new targetEpoch oldDealerCount oldThreshold newThreshold newPlayerCount groupKey) :
    (start state : Rollover P S).Inv where
  state := hnew ▸ ReshareState.inv_new _ _ _ _ _ _
  counts := by simp [start, hnew, ReshareState.new, ReshareState.getCommitments]
  manifest _ hmanifest := absurd hmanifest (by simp [start])
  player _ _ hplayer := absurd hplayer (by simp [start])

end Rollover

end Rollover

end Frostito.Reshare
