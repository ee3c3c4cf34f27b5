import Frostito.Reshare.Chain
import Frostito.Reshare.Rollover

/-!
# Who finishes, and with what

When the manifest is published, the check of the group key decides about all players at once.
If it fails, nobody ever finishes.  If it succeeds, a player finishes exactly when, after it
joined, one sub-share that verifies reached it from every dealer of the manifest: nothing
that reached it before or in between, from whomever, can prevent that, and neither can
dealers that commit after the manifest.

Those that finish, at whatever time, do so with one polynomial.
-/

namespace Frostito.Reshare

section Finishing

variable {S P : Type} [CurveScalar S] [CurvePoint P S] [Sha2]

namespace Rollover

/-- The sub-share is one for player `j` that verifies against what is recorded for dealer
`d`. -/
def ValidShare (r : Rollover P S) (j d : UInt32) (subshare : SubShare S) : Prop :=
  subshare.playerIndex = j ∧ subshare.dealerIndex = d ∧
    ∃ c ∈ r.state.getCommitments, c.dealerIndex = d ∧ c.verifySubshare j subshare.value = true

/-- Player `j` joined, and then a valid sub-share reached it from every dealer. -/
def Served (r : Rollover P S) (dealers : List UInt32) (j : UInt32)
    (events : List (RolloverEvent P S)) : Prop :=
  ∃ early late, events = early ++ .join j :: late ∧
    ∀ d ∈ dealers, ∃ subshare, .deliver j subshare ∈ late ∧ r.ValidShare j d subshare

variable {r r' : Rollover P S} {j d : UInt32} {subshare : SubShare S} {a : Aggregator P S}
  {dealers : List UInt32}

omit [Sha2] in
lemma ValidShare.later (h : r.ValidShare j d subshare) (hlater : r.Later r') :
    r'.ValidShare j d subshare := by
  obtain ⟨hplayer, hdealer, c, hc, hindex, hverify⟩ := h
  exact ⟨hplayer, hdealer, c, hlater.state.subset hc, hindex, hverify⟩

/-- What is recorded for a dealer is not replaced. -/
lemma ValidShare.of_later (h' : r'.Inv) (hlater : r.Later r')
    (hrecorded : ∃ c ∈ r.state.getCommitments, c.dealerIndex = d)
    (h : r'.ValidShare j d subshare) : r.ValidShare j d subshare := by
  obtain ⟨hplayer, hdealer, c, hc, hindex, hverify⟩ := h
  obtain ⟨c', hc', hindex'⟩ := hrecorded
  obtain rfl := h'.state.eq_of_dealerIndex_eq hc (hlater.state.subset hc')
    (hindex.trans hindex'.symm)
  exact ⟨hplayer, hdealer, c, hc', hindex, hverify⟩

/-! ### What is sent is heard -/

/-- A player that a valid sub-share reaches has heard its dealer then. -/
lemma Inv.heard_next (h : r.Inv) (hplayer : r.player j = some a) (hd : d ∈ a.dealerSet)
    (hvalid : r.ValidShare j d subshare) :
    ∃ a', (r.next (.deliver j subshare)).player j = some a' ∧ d ∈ a'.subshares.map Prod.fst := by
  obtain ⟨dealers, -, hinv, hsub⟩ := h.player j a hplayer
  obtain ⟨hto, hfrom, c, hc, rfl, hverify⟩ := hvalid
  refine ⟨_, player_next_deliver hplayer (hfrom ▸ h.commitmentOf_eq hc), ?_⟩
  by_cases hheard : c.dealerIndex ∈ a.subshares.map Prod.fst
  · exact subshares_subset_addSubshare a subshare c hheard
  · -- all recorded commitments have the threshold of the state
    have hthreshold : a.checkThreshold c = .ok () :=
      Aggregator.checkThreshold_eq_ok_iff.mpr fun first hfirst => by
        have hmem := List.mem_of_mem_head? (Option.mem_def.mpr hfirst)
        rw [h.state.threshold_eq first (hsub hmem), h.state.threshold_eq c hc]
    have hacc : a.Accepts subshare c := (hinv.accepts_iff (m := (subshare, c))).mpr
      ⟨⟨hto, hfrom, hinv.perm_dealerSet.mem_iff.mp hd, hverify⟩, hthreshold, hheard⟩
    rw [hacc.addSubshare_eq, Aggregator.add, List.map_append]
    exact List.mem_append_right _ List.mem_cons_self

variable {events : List (RolloverEvent P S)}

/-- A player that has joined hears every dealer of whom a valid sub-share reaches it. -/
lemma Inv.heard_run (h : r.Inv) (hcounts : ∀ e ∈ events, Counts e)
    (hplayer : r.player j = some a) (hd : d ∈ a.dealerSet)
    (hmem : .deliver j subshare ∈ events) (hvalid : r.ValidShare j d subshare) :
    ∃ a', (r.run events).player j = some a' ∧ d ∈ a'.subshares.map Prod.fst := by
  obtain ⟨early, late, rfl⟩ := List.append_of_mem hmem
  obtain ⟨hearly, hcounts⟩ := List.forall_mem_append.mp hcounts
  obtain ⟨hnow, hlate⟩ := List.forall_mem_cons.mp hcounts
  obtain ⟨hinv, hlater⟩ := h.run hearly
  obtain ⟨a₁, hplayer₁, -⟩ := hlater.player j a hplayer
  obtain ⟨dealers, hmanifest, ha, -⟩ := h.player j a hplayer
  obtain ⟨dealers₁, hmanifest₁, ha₁, -⟩ := hinv.player j a₁ hplayer₁
  obtain rfl := Option.some.inj (hmanifest₁.symm.trans (hlater.manifest _ hmanifest))
  have hd₁ : d ∈ a₁.dealerSet := by rwa [ha₁.dealerSet_eq, ← ha.dealerSet_eq]
  obtain ⟨a₂, hplayer₂, hheard⟩ := hinv.heard_next hplayer₁ hd₁ (hvalid.later hlater)
  obtain ⟨a₃, hplayer₃, hsub, -⟩ := ((hinv.next hnow).run hlate).2.player j a₂ hplayer₂
  refine ⟨a₃, ?_, hsub hheard⟩
  rw [run_append]
  exact hplayer₃

/-- A player that was served has heard everybody. -/
lemma Inv.complete_of_served (h : r.Inv) (hcounts : ∀ e ∈ events, Counts e)
    (hmanifest : r.manifest = some dealers) (hdealers : ValidIndices dealers)
    (hserved : r.Served dealers j events) :
    ∃ a, (r.run events).player j = some a ∧ a.isComplete = true := by
  obtain ⟨early, late, rfl, hreached⟩ := hserved
  obtain ⟨hearly, hcounts⟩ := List.forall_mem_append.mp hcounts
  obtain ⟨hnow, hlate⟩ := List.forall_mem_cons.mp hcounts
  obtain ⟨hinv, hlater⟩ := h.run hearly
  have hinv₁ := hinv.next hnow
  have hlater₁ := hlater.trans (hinv.later_next (.join j))
  -- a player that can verify a sub-share has an index
  have hj : j ≠ 0 := by
    obtain ⟨d, hd⟩ := List.exists_mem_of_ne_nil _ hdealers.ne_nil
    obtain ⟨_, -, -, -, c, -, -, hverify⟩ := hreached d hd
    exact (DealerCommitment.verifySubshare_iff.mp hverify).1
  obtain ⟨a₁, hplayer₁⟩ : ∃ a₁, ((r.run early).next (.join j)).player j = some a₁ := by
    cases hplayer : (r.run early).player j with
    | some a =>
      obtain ⟨a', hplayer', -⟩ := (hinv.later_next (.join j)).player j a hplayer
      exact ⟨a', hplayer'⟩
    | none =>
      exact ⟨_, player_next_join hplayer (hlater.manifest _ hmanifest)
        (Aggregator.new_eq_ok_iff.mpr ⟨hj, hdealers, rfl⟩)⟩
  obtain ⟨hinv₂, hlater₂⟩ := hinv₁.run hlate
  obtain ⟨a₂, hplayer₂, -⟩ := hlater₂.player j a₁ hplayer₁
  rw [run_append]
  refine ⟨a₂, hplayer₂, ?_⟩
  obtain ⟨dealers₁, hmanifest₁, ha₁, -⟩ := hinv₁.player j a₁ hplayer₁
  obtain rfl := Option.some.inj (hmanifest₁.symm.trans (hlater₁.manifest _ hmanifest))
  obtain ⟨dealers₂, hmanifest₂, ha₂, -⟩ := hinv₂.player j a₂ hplayer₂
  obtain rfl := Option.some.inj (hmanifest₂.symm.trans (hlater₂.manifest _ hmanifest₁))
  rw [Aggregator.isComplete, beq_iff_eq, ← ha₂.missingDealers_eq_nil_iff]
  refine List.filter_eq_nil_iff.mpr fun d hd => ?_
  have hd₁ := ha₁.perm_dealerSet.mem_iff.mpr (ha₂.perm_dealerSet.mem_iff.mp hd)
  obtain ⟨subshare, hmem, hvalid⟩ := hreached d (ha₂.perm_dealerSet.mem_iff.mp hd)
  obtain ⟨a', hplayer', hheard⟩ :=
    hinv₁.heard_run hlate hplayer₁ hd₁ hmem (hvalid.later hlater₁)
  obtain rfl := Option.some.inj (hplayer₂.symm.trans hplayer')
  simpa using hheard

/-! ### What is heard was sent -/

/-- A player that had not joined before did so since, and a valid sub-share has reached it from
every dealer that it has heard. -/
lemma Inv.served_of_heard (h : r.Inv) (hnone : r.player j = none)
    (hcounts : ∀ e ∈ events, Counts e) (hplayer : (r.run events).player j = some a) :
    (r.run events).Served (a.subshares.map Prod.fst) j events := by
  induction events using List.reverseRecOn generalizing a with
  | nil => exact absurd (hplayer.symm.trans hnone) (by simp)
  | append_singleton events e ih =>
    obtain ⟨hbefore, hnow⟩ := List.forall_mem_append.mp hcounts
    obtain ⟨hinv, -⟩ := h.run hbefore
    have hlater := hinv.later_next e
    have hrun : r.run (events ++ [e]) = (r.run events).next e := run_append r events [e]
    rw [hrun] at hplayer ⊢
    -- what served the player before still does
    have hold : ∀ {a₀}, (r.run events).player j = some a₀ → ∃ early late,
        events ++ [e] = early ++ .join j :: (late ++ [e]) ∧ ∀ d ∈ a₀.subshares.map Prod.fst,
          ∃ subshare, .deliver j subshare ∈ late ++ [e] ∧
            ((r.run events).next e).ValidShare j d subshare := by
      intro a₀ ha₀
      obtain ⟨early, late, hsplit, hreached⟩ := ih hbefore ha₀
      refine ⟨early, late, by rw [hsplit, List.append_assoc, List.cons_append], fun d hd => ?_⟩
      obtain ⟨subshare, hmem, hvalid⟩ := hreached d hd
      exact ⟨subshare, List.mem_append_left _ hmem, hvalid.later hlater⟩
    have hmove := (r.run events).moves_next e j
    generalize hafter : ((r.run events).next e).player j = player at hmove
    rw [hplayer] at hafter
    cases hmove with
    | stays =>
      obtain ⟨early, late, hsplit, hreached⟩ := hold hafter.symm
      exact ⟨early, late ++ [e], hsplit, hreached⟩
    | joins _ _ hnew =>
      obtain rfl := Option.some.inj hafter
      obtain ⟨-, -, rfl⟩ := Aggregator.new_eq_ok_iff.mp hnew
      exact ⟨events, [], rfl, by simp⟩
    | @receives a₀ subshare c ha₀ hcommitment =>
      obtain rfl := Option.some.inj hafter
      obtain ⟨early, late, hsplit, hreached⟩ := hold ha₀
      refine ⟨early, late ++ [.deliver j subshare], hsplit, fun d hd => ?_⟩
      rcases a₀.addSubshare_cases subshare c with ⟨hacc, hadd⟩ | ⟨hsame, -⟩
      · rw [hadd, Aggregator.add, List.map_append] at hd
        rcases List.mem_append.mp hd with hd | hd
        · exact hreached d hd
        · -- the sub-share that came now
          obtain rfl := List.mem_singleton.mp hd
          obtain ⟨dealers, -, ha, -⟩ := hinv.player j a₀ ha₀
          refine ⟨subshare, List.mem_append_right _ List.mem_cons_self, ?_⟩
          exact ValidShare.later ⟨hacc.playerIndex_eq.trans ha.playerIndex_eq, hacc.dealerIndex_eq,
            c, (mem_of_commitmentOf hcommitment).1, rfl, ha.playerIndex_eq ▸ hacc.verify⟩ hlater
      · rw [hsame] at hd
        exact hreached d hd

/-! ### The verdict -/

/-- The state derives the same key from the same dealers later. -/
lemma Later.derivedKey_eq (h : r.Inv) (h' : r'.Inv) (hlater : r.Later r')
    (hrecorded : ∀ d ∈ dealers, ∃ c ∈ r.state.getCommitments, c.dealerIndex = d) :
    r'.state.derivedKey dealers = r.state.derivedKey dealers := by
  rw [ReshareState.derivedKey, ReshareState.derivedKey]
  refine congrArg List.sum (List.map_congr_left fun d hd => ?_)
  obtain ⟨c, hc, rfl⟩ := hrecorded d hd
  rw [h.state.constantOf_eq hc, h'.state.constantOf_eq (hlater.state.subset hc)]

/-- Who finishes after the manifest is published in a state. -/
lemma Inv.exists_finished_iff [PrimeOrder P] (h : r.Inv) (hmanifest : r.manifest = none)
    (hset : r.state.dealerSet = some dealers) {answer : Bool}
    (hanswer : r.state.verifyGroupKey = .ok answer) (hcounts : ∀ e ∈ events, Counts e) :
    (∃ share p, ((r.next .publish).run events).Finished j share p) ↔
      answer = true ∧ r.Served dealers j events := by
  have hinj := fromU32_injective P
  have hpublish := h.later_next .publish
  have hinv : (r.next .publish).Inv := h.next trivial
  have hpublished : (r.next .publish).manifest = some dealers := by
    simp only [Rollover.next, hmanifest, hset]
    rfl
  obtain ⟨hinv', hlater⟩ := hinv.run hcounts
  have hrecorded : ∀ d ∈ dealers, ∃ c ∈ r.state.getCommitments, c.dealerIndex = d :=
    fun d hd => ReshareState.exists_recorded hset hd
  -- the answer is about the keys that the players compare
  have hkeys : ((r.next .publish).run events).state.derivedKey dealers
      = r.state.derivedKey dealers ∧
      ((r.next .publish).run events).state.groupKey = r.state.groupKey :=
    ⟨Later.derivedKey_eq h hinv' (hpublish.trans hlater) hrecorded,
      (hpublish.trans hlater).state.groupKey_eq⟩
  obtain ⟨hne, rfl⟩ :
      dealers ≠ [] ∧ answer = decide (r.state.derivedKey dealers = r.state.groupKey) := by
    rcases h.state.verifyGroupKey_cases hinj with ⟨dealers', hset', hne, hok⟩ | ⟨e, herr⟩
    · obtain rfl := Option.some.inj (hset.symm.trans hset')
      exact ⟨hne, Outcome.ok.inj (hanswer.symm.trans hok)⟩
    · exact absurd (hanswer.symm.trans herr) (by simp)
  rw [decide_eq_true_eq, ← hkeys.1, ← hkeys.2]
  constructor
  · rintro ⟨share, p, a, hplayer, hfinalize⟩
    obtain ⟨dealers', hmanifest', ha, hsub⟩ := hinv'.player j a hplayer
    obtain rfl := Option.some.inj (hmanifest'.symm.trans (hlater.manifest _ hpublished))
    obtain ⟨hcomplete, hkey⟩ := (hinv'.exists_finalize_iff hinj ha hsub).mp ⟨share, p, hfinalize⟩
    refine ⟨hkey, ?_⟩
    have hnone : (r.next .publish).player j = none := by
      cases hbefore : r.player j with
      | none => exact hbefore
      | some a₀ =>
        obtain ⟨dealers₀, hsome, -⟩ := h.player j a₀ hbefore
        exact absurd (hmanifest.symm.trans hsome) (by simp)
    obtain ⟨early, late, hsplit, hreached⟩ := hinv.served_of_heard hnone hcounts hplayer
    refine ⟨early, late, hsplit, fun d hd => ?_⟩
    obtain ⟨subshare, hmem, hvalid⟩ := hreached d
      (mem_subshares_of_complete ha hcomplete (ha.perm_dealerSet.mem_iff.mpr hd))
    exact ⟨subshare, hmem, hvalid.of_later hinv' (hpublish.trans hlater) (hrecorded d hd)⟩
  · rintro ⟨hkey, early, late, hsplit, hreached⟩
    have hserved : (r.next .publish).Served dealers j events := by
      refine ⟨early, late, hsplit, fun d hd => ?_⟩
      obtain ⟨subshare, hmem, hvalid⟩ := hreached d hd
      exact ⟨subshare, hmem, hvalid.later hpublish⟩
    obtain ⟨a, hplayer, hcomplete⟩ := hinv.complete_of_served hcounts hpublished
      (h.state.validIndices hset hne) hserved
    obtain ⟨dealers', hmanifest', ha, hsub⟩ := hinv'.player j a hplayer
    obtain rfl := Option.some.inj (hmanifest'.symm.trans (hlater.manifest _ hpublished))
    obtain ⟨share, p, hfinalize⟩ := (hinv'.exists_finalize_iff hinj ha hsub).mpr ⟨hcomplete, hkey⟩
    exact ⟨share, p, a, hplayer, hfinalize⟩

/-! ### Runs -/

section Runs

variable [PrimeOrder P] {targetEpoch : UInt64}
  {oldDealerCount oldThreshold newThreshold newPlayerCount : UInt32} {groupKey : P}
  {state : ReshareState P}
  (hnew : state = .new targetEpoch oldDealerCount oldThreshold newThreshold newPlayerCount groupKey)
include hnew

section Counts

variable {events : List (RolloverEvent P S)} (hcounts : ∀ e ∈ events, Counts e)
include hcounts

omit [PrimeOrder P] in
/-- Two points of one run. -/
lemma later_take {n m : ℕ} (hle : n ≤ m) :
    ((start state : Rollover P S).run (events.take n)).Inv ∧
      ((start state).run (events.take n)).Later ((start state).run (events.take m)) := by
  have hinv : ((start state : Rollover P S).run (events.take n)).Inv :=
    ((inv_start hnew).run fun e he => hcounts e (List.mem_of_mem_take he)).1
  obtain ⟨k, rfl⟩ := Nat.exists_eq_add_of_le hle
  refine ⟨hinv, ?_⟩
  rw [List.take_add, run_append]
  exact (hinv.run fun e he => hcounts e (List.mem_of_mem_drop (List.mem_of_mem_take he))).2

/-- All that ever finish have finished in the end, with the same. -/
lemma finished_take {n m : ℕ} (hle : n ≤ m) {j : UInt32} {share : S} {p : SharePolynomial P}
    (hfin : ((start state).run (events.take n)).Finished j share p) :
    ((start state).run (events.take m)).Finished j share p := by
  obtain ⟨hinv, hlater⟩ := later_take hnew hcounts hle
  exact hinv.finished_later (fromU32_injective P) hlater hfin

/-- In the end, those that have finished hold shares of one polynomial. -/
lemma exists_sharing : ∃ cs : List P, ∀ j share p, ((start state).run events).Finished j share p →
    j ≠ 0 ∧ p.coefficients = cs ∧ cs.length = newThreshold.toNat ∧ cs.head? = some groupKey ∧
      Sharing.IsShare (generator : P) cs (fromU32 j) share := by
  obtain ⟨hinv, hlater⟩ := (inv_start (S := S) hnew).run hcounts
  have hkey : ((start state).run events).state.groupKey = groupKey := by
    rw [hlater.state.groupKey_eq, start, hnew]
    rfl
  have hthreshold : ((start state).run events).state.newThreshold = newThreshold := by
    rw [hlater.state.newThreshold_eq, start, hnew]
    rfl
  cases hmanifest : ((start state : Rollover P S).run events).manifest with
  | none =>
    -- without a manifest nobody has joined
    refine ⟨[], fun j share p hfin => ?_⟩
    obtain ⟨a, hplayer, -⟩ := hfin
    obtain ⟨dealers, hsome, -⟩ := hinv.player j a hplayer
    exact absurd (hmanifest.symm.trans hsome) (by simp)
  | some dealers =>
    refine ⟨((start state).run events).sharing (dealers.insertionSort (· ≤ ·)),
      fun j share p hfin => ?_⟩
    obtain ⟨hj, hp, hhead, hshare⟩ :=
      hinv.finished_spec (fromU32_injective P) hmanifest hfin
    rw [hp] at hhead hshare
    refine ⟨hj, hp, ?_, hhead.trans (congrArg some hkey), hshare⟩
    rw [sharing, Horner.length_combine, hthreshold]

/-- Those that have finished hold the key. -/
lemma holding_of_finished {players : List UInt32} {share : UInt32 → S} (hne : players ≠ [])
    (hfin : ∀ j ∈ players, ∃ p, ((start state).run events).Finished j (share j) p) :
    Holding players newThreshold groupKey share := by
  obtain ⟨cs, hcs⟩ := exists_sharing hnew hcounts
  have hshares : ∀ j ∈ players, j ≠ 0 ∧ cs.length = newThreshold.toNat ∧
      cs.head? = some groupKey ∧ Sharing.IsShare (generator : P) cs (fromU32 j) (share j) := by
    intro j hj
    obtain ⟨p, hfinj⟩ := hfin j hj
    obtain ⟨hj0, -, hlen, hhead, hshare⟩ := hcs j _ p hfinj
    exact ⟨hj0, hlen, hhead, hshare⟩
  obtain ⟨i, hi⟩ := List.exists_mem_of_ne_nil _ hne
  obtain ⟨-, hlen, hhead, -⟩ := hshares i hi
  obtain ⟨rest, rfl⟩ := List.head?_eq_some_iff.mp hhead
  exact ⟨toNat_ne_zero_iff.mp (hlen ▸ Nat.succ_ne_zero _), fun h0 => (hshares 0 h0).1 rfl, _,
    hlen.le, rfl, fun j hj => (hshares j hj).2.2.2⟩

/-- **One polynomial for the epoch.**  Whatever is submitted and delivered, in whatever order, and
whenever the manifest is published: all players that ever finish do so with one polynomial of
`newThreshold` coefficients that starts with the group key, keep what they finished with
whatever happens later, and hold shares of it; and the shares of any `newThreshold` of them
combine to the discrete logarithm of the group key. -/
theorem run_agrees :
    (∃ cs : List P, ∀ n j share p, ((start state).run (events.take n)).Finished j share p →
      (∀ m, n ≤ m → ((start state).run (events.take m)).Finished j share p) ∧
        p.coefficients = cs ∧ cs.length = newThreshold.toNat ∧ cs.head? = some groupKey ∧
        Sharing.IsShare (generator : P) cs (fromU32 j) share) ∧
    ∀ (players : List UInt32) (share : UInt32 → S), players ≠ [] → players.Nodup →
      newThreshold.toNat ≤ players.length →
      (∀ j ∈ players, ∃ n p, ((start state).run (events.take n)).Finished j (share j) p) →
      ∃ secret, reconstruct (players.map fun j => (j, share j)) = .ok secret ∧
        secret • (generator : P) = groupKey := by
  obtain ⟨cs, hcs⟩ := exists_sharing hnew hcounts
  have hend : ∀ {n j share p}, ((start state).run (events.take n)).Finished j share p →
      ((start state).run events).Finished j share p := fun {n _ _ _} hfin => by
    have hlater := finished_take hnew hcounts (le_max_left n events.length) hfin
    rwa [List.take_of_length_le (le_max_right _ _)] at hlater
  refine ⟨⟨cs, fun n j share p hfin => ?_⟩, fun players share hne hnd hmany hfin => ?_⟩
  · exact ⟨fun m hle => finished_take hnew hcounts hle hfin, (hcs j share p (hend hfin)).2⟩
  · have hholding : Holding players newThreshold groupKey share :=
      holding_of_finished hnew hcounts hne fun j hj => by
        obtain ⟨n, p, hfinj⟩ := hfin j hj
        exact ⟨p, hend hfinj⟩
    exact hholding.reconstruct_eq (fromU32_injective P) hnd (List.Subset.refl _) hmany

end Counts

/-- **Who finishes.**  Let the manifest be published when the state has a dealer set and its check
of the group key has answered.  Whatever happens before and after, a player finishes exactly when
the answer was `true` and the player was served: it joined, and then a sub-share that verifies
against the commitment recorded at the publication reached it from every dealer of the set. -/
theorem finishes_iff {before after : List (RolloverEvent P S)}
    (hcounts : ∀ e ∈ before ++ .publish :: after, Counts e)
    (hmanifest : ((start state).run before).manifest = none)
    (hset : ((start state).run before).state.dealerSet = some dealers) {answer : Bool}
    (hanswer : ((start state).run before).state.verifyGroupKey = .ok answer) (j : UInt32) :
    (∃ share p, ((start state).run (before ++ .publish :: after)).Finished j share p) ↔
      answer = true ∧ ((start state).run before).Served dealers j after := by
  obtain ⟨hbefore, hcounts⟩ := List.forall_mem_append.mp hcounts
  obtain ⟨-, hafter⟩ := List.forall_mem_cons.mp hcounts
  obtain ⟨hinv, -⟩ := (inv_start hnew).run hbefore
  rw [run_append, run_cons]
  exact hinv.exists_finished_iff hmanifest hset hanswer hafter

end Runs

end Rollover

end Finishing

/-! ### Two dealers, two players -/

section Lines

open Reference Rollover

/-- What happens before the manifest. -/
def beforeManifest : List (RolloverEvent Residue Residue) := lineSubmissions.map .submit

/-- Dealer 3 commits after the manifest, and a sub-share that is wrong reaches player 1 before the
one that is not. -/
def afterManifest : List (RolloverEvent Residue Residue) :=
  [.submit (lineSubmission 3 4 4), .join 2, .join 1, .deliver 1 ⟨1, 1, 0⟩,
    .deliver 2 (lineDelivery 1 2 14 2).1, .deliver 1 (lineDelivery 2 1 17 1).1,
    .deliver 1 (lineDelivery 1 1 14 2).1, .deliver 2 (lineDelivery 2 2 17 1).1]

lemma counts_lines : ∀ e ∈ beforeManifest ++ .publish :: afterManifest, Counts e := by
  intro e he
  cases e with
  | submit m =>
    have hm : m ∈ [lineSubmission 2 17 1, lineSubmission 1 14 2, lineSubmission 3 4 4] := by
      simpa [beforeManifest, lineSubmissions, afterManifest] using he
    have hlength : m.1.coefficients.length = 2 := by
      fin_cases hm <;> rfl
    exact hlength.trans_lt (by norm_num)
  | publish => trivial
  | join j => trivial
  | deliver j subshare => trivial

lemma run_beforeManifest : (start pairState : Rollover Residue Residue).run beforeManifest
    = start afterLines := by
  rw [beforeManifest, run_start_submit, afterLines]

/-- What a dealer of a recorded line sends is valid. -/
lemma validShare_line {r : Rollover Residue Residue} {i j : UInt32} {a b : ℕ} (hj : j ≠ 0)
    (hrecorded : lineCommitment i a b ∈ r.state.getCommitments) :
    r.ValidShare j i (lineDelivery i j a b).1 :=
  ⟨rfl, rfl, _, hrecorded, rfl, verifySubshare_line hj⟩

/-- Both players are served. -/
lemma served_lines {j : UInt32} (hj : j ∈ [1, 2]) :
    ((start pairState).run beforeManifest).Served [1, 2] j afterManifest := by
  have hrecorded : ((start pairState : Rollover Residue Residue).run
      beforeManifest).state.getCommitments = [lineCommitment 1 14 2, lineCommitment 2 17 1] := by
    rw [run_beforeManifest, state_start, getCommitments_afterLines]
  have hserved : ∀ {j : UInt32} (early late : List (RolloverEvent Residue Residue)), j ≠ 0 →
      afterManifest = early ++ .join j :: late → .deliver j (lineDelivery 1 j 14 2).1 ∈ late →
      .deliver j (lineDelivery 2 j 17 1).1 ∈ late →
      ((start pairState).run beforeManifest).Served [1, 2] j afterManifest := by
    intro j early late hj hsplit hfirst hsecond
    refine ⟨early, late, hsplit, fun d hd => ?_⟩
    rcases List.mem_pair.mp hd with rfl | rfl
    · exact ⟨_, hfirst, validShare_line hj (by simp [hrecorded])⟩
    · exact ⟨_, hsecond, validShare_line hj (by simp [hrecorded])⟩
  rcases List.mem_pair.mp hj with rfl | rfl
  · exact hserved (afterManifest.take 2) (afterManifest.drop 3) (by decide) rfl
      (by simp [afterManifest]) (by simp [afterManifest])
  · exact hserved (afterManifest.take 1) (afterManifest.drop 2) (by decide) rfl
      (by simp [afterManifest]) (by simp [afterManifest])

lemma manifest_beforeManifest :
    ((start pairState : Rollover Residue Residue).run beforeManifest).manifest = none := by
  rw [run_beforeManifest, start]

lemma dealerSet_beforeManifest :
    ((start pairState : Rollover Residue Residue).run beforeManifest).state.dealerSet
      = some [1, 2] := by
  rw [run_beforeManifest, state_start, dealerSet_afterLines]

lemma verifyGroupKey_beforeManifest :
    ((start pairState : Rollover Residue Residue).run beforeManifest).state.verifyGroupKey
      = .ok true := by
  rw [run_beforeManifest, state_start, verifyGroupKey_afterLines]

lemma pairState_eq : pairState = .new 7 3 2 2 2 ((11 : ℕ) : Residue) := rfl

/-- A player that does not join is not served. -/
lemma not_served_three :
    ¬((start pairState).run beforeManifest).Served [1, 2] 3 afterManifest := by
  rintro ⟨early, late, hsplit, -⟩
  have hjoin : .join 3 ∈ afterManifest := by
    rw [hsplit]
    exact List.mem_append_right _ List.mem_cons_self
  simp [afterManifest] at hjoin

/-- Players 1 and 2 finish, whom the two dealers have reached after they joined, and player 3 does
not. -/
theorem finishes_two :
    (∃ share p,
      ((start pairState).run (beforeManifest ++ .publish :: afterManifest)).Finished 1 share p) ∧
    (∃ share p,
      ((start pairState).run (beforeManifest ++ .publish :: afterManifest)).Finished 2 share p) ∧
    ¬∃ share p,
      ((start pairState).run (beforeManifest ++ .publish :: afterManifest)).Finished 3 share p := by
  have hiff := finishes_iff pairState_eq counts_lines manifest_beforeManifest
    dealerSet_beforeManifest verifyGroupKey_beforeManifest
  exact ⟨(hiff 1).mpr ⟨rfl, served_lines (by decide)⟩, (hiff 2).mpr ⟨rfl, served_lines (by decide)⟩,
    fun hfin => not_served_three ((hiff 3).mp hfin).2⟩

lemma exists_finished_lines {j : UInt32} (hj : j ∈ [1, 2]) : ∃ share p,
    ((start pairState).run (beforeManifest ++ .publish :: afterManifest)).Finished j share p := by
  obtain ⟨hbefore, hafter⟩ := List.forall_mem_append.mp counts_lines
  obtain ⟨-, hafter⟩ := List.forall_mem_cons.mp hafter
  obtain ⟨hinv, -⟩ := (inv_start (S := Residue) pairState_eq).run hbefore
  rw [run_append, run_cons]
  exact (hinv.exists_finished_iff manifest_beforeManifest dealerSet_beforeManifest
    verifyGroupKey_beforeManifest hafter).mpr ⟨rfl, served_lines hj⟩

/-- They finish with one polynomial of two coefficients that starts with the group key, and their
shares combine to the key. -/
theorem run_agrees_two : ∃ (cs : List Residue) (share : UInt32 → Residue),
    cs.length = 2 ∧ cs.head? = some ((11 : ℕ) : Residue) ∧
    (∀ j ∈ [1, 2], ∃ p : SharePolynomial Residue, p.coefficients = cs ∧
      ((start pairState).run (beforeManifest ++ .publish :: afterManifest)).Finished j (share j) p ∧
      Sharing.IsShare (generator : Residue) cs (fromU32 j) (share j)) ∧
    reconstruct ([1, 2].map fun j => (j, share j)) = .ok ((11 : ℕ) : Residue) := by
  choose! share hfin using fun j (hj : j ∈ [1, 2]) => exists_finished_lines hj
  obtain ⟨⟨cs, hcs⟩, hquorum⟩ := run_agrees pairState_eq counts_lines
  have hend : ∀ j ∈ [1, 2], cs.length = 2 ∧ cs.head? = some ((11 : ℕ) : Residue) ∧
      ∃ p : SharePolynomial Residue, p.coefficients = cs ∧ ((start pairState).run
        (beforeManifest ++ .publish :: afterManifest)).Finished j (share j) p ∧
        Sharing.IsShare (generator : Residue) cs (fromU32 j) (share j) := by
    intro j hj
    obtain ⟨p, hfinj⟩ := hfin j hj
    have htake := hcs (beforeManifest ++ .publish :: afterManifest).length j (share j) p
    rw [List.take_length] at htake
    obtain ⟨-, hp, hlen, hhead, hshare⟩ := htake hfinj
    exact ⟨hlen, hhead, p, hp, hfinj, hshare⟩
  obtain ⟨hlen, hhead, -⟩ := hend 1 List.mem_cons_self
  refine ⟨cs, share, hlen, hhead, fun j hj => (hend j hj).2.2, ?_⟩
  obtain ⟨secret, hsecret, hlog⟩ := hquorum [1, 2] share (List.cons_ne_nil _ _) (by decide) le_rfl
    fun j hj => ⟨_, by rw [List.take_length]; exact hfin j hj⟩
  have hone : secret • (generator : Residue) = secret := mul_one _
  rw [hsecret, ← hlog, hone]

end Lines

end Frostito.Reshare
