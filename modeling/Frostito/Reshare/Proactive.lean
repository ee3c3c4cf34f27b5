import Frostito.Reshare.Chain
import Frostito.Sharers

/-!
# What a mobile adversary learns

An adversary that reads fewer holders than the threshold in every epoch, and others in each,
may well read more shares than the threshold in the end.  They lie on different polynomials:
for every secret there is exactly one choice of what the others drew, in all epochs, under
which the adversary would have seen just what it saw.
-/

namespace Frostito.Reshare

section Proactive

variable {S P : Type} [CurveScalar S] [CurvePoint P S]

/-! ### Epochs under observation -/

/-- An epoch without the draws of the dealers that the adversary does not read. -/
structure Watch (S : Type) where
  newThreshold : UInt32
  dealers : List UInt32
  players : List UInt32
  arrival : UInt32 → List UInt32
  /-- The new players that the adversary reads. -/
  watched : List UInt32
  /-- The generators of the dealers that it reads. -/
  known : UInt32 → Rng S
  /-- What the generators of the others return when the coefficients are drawn. -/
  rest : UInt32 → Rng S

namespace Watch

/-- The epoch in which the dealers that are not read draw `hidden`. -/
def epoch (w : Watch S) (readers : List UInt32) (hidden : UInt32 → List S) : Epoch S where
  newThreshold := w.newThreshold
  dealers := w.dealers
  rng i := if i ∈ readers then w.known i else hidden i ++ₛ w.rest i
  players := w.players
  arrival := w.arrival

/-- Every dealer that is not read draws all coefficients but the constant term. -/
def Draws (w : Watch S) (readers : List UInt32) (hidden : UInt32 → List S) : Prop :=
  ∀ i, (hidden i).length = if i ∈ w.dealers ∧ i ∉ readers then w.newThreshold.toNat - 1 else 0

variable (P) in
/-- In two runs of the epoch the watched players receive the same sub-shares and finish with
the same shares. -/
def SameView (w : Watch S) (readers : List UInt32) (key : P) (share : UInt32 → S)
    (hidden : UInt32 → List S) (key' : P) (share' : UInt32 → S) (hidden' : UInt32 → List S) :
    Prop :=
  ∀ j ∈ w.watched,
    (∀ i ∈ w.dealers, ∃ (s : SubShare S) (c c' : DealerCommitment P),
      (w.epoch readers hidden).delivery share j i = .ok (s, c) ∧
      (w.epoch readers hidden').delivery share' j i = .ok (s, c')) ∧
    (w.epoch readers hidden).nextShare key share j
      = (w.epoch readers hidden').nextShare key' share' j

/-- The epoch can be run by `holders` with the threshold `t`, and the adversary reads one
player less than the new threshold. -/
structure Valid (w : Watch S) (holders : List UInt32) (t : UInt32) : Prop where
  epoch : ∀ readers hidden, (w.epoch readers hidden).Valid holders t
  nodup : w.watched.Nodup
  subset : w.watched ⊆ w.players
  length_eq : w.watched.length + 1 = w.newThreshold.toNat

end Watch

/-- Watched epochs that run one after the other. -/
def ValidWatches (holders : List UInt32) (t : UInt32) : List (Watch S) → Prop
  | [] => True
  | w :: ws => w.Valid holders t ∧ ValidWatches w.players w.newThreshold ws

/-- Draws for every epoch; the players watched in one are the dealers read in the next. -/
def DrawsAll : List UInt32 → List (Watch S) → List (UInt32 → List S) → Prop
  | _, [], [] => True
  | readers, w :: ws, hidden :: hs => w.Draws readers hidden ∧ DrawsAll w.watched ws hs
  | _, _, _ => False

/-- The adversary sees the same in every epoch of two runs. -/
def SameViews (key key' : P) :
    List UInt32 → (UInt32 → S) → (UInt32 → S) → List (Watch S) →
      List (UInt32 → List S) → List (UInt32 → List S) → Prop
  | _, _, _, [], [], [] => True
  | readers, share, share', w :: ws, hidden :: hs, hidden' :: hs' =>
    w.SameView P readers key share hidden key' share' hidden' ∧
      SameViews key key' w.watched ((w.epoch readers hidden).nextShare key share)
        ((w.epoch readers hidden').nextShare key' share') ws hs hs'
  | _, _, _, _, _, _ => False

/-! ### One epoch -/

variable {holders readers : List UInt32} {t : UInt32} {key key' : P} {share share' : UInt32 → S}
  {e : Epoch S} {w : Watch S} {hidden hidden' : UInt32 → List S}

/-- The value that dealer `i` sends player `j`. -/
def Epoch.value (e : Epoch S) (share : UInt32 → S) (j i : UInt32) : S :=
  Horner.horner (fromU32 j : S) (share i :: (e.rng i).take (e.newThreshold.toNat - 1))

/-- It is the value that is delivered. -/
lemma Epoch.Valid.delivery_eq (he : e.Valid holders t) (h0 : 0 ∉ holders) (share : UInt32 → S)
    {i j : UInt32} (hi : i ∈ e.dealers) (hj : j ≠ 0) :
    ∃ c : DealerCommitment P, e.delivery share j i = .ok (⟨i, j, e.value share j i⟩, c) := by
  have hi0 : i ≠ 0 := by
    rintro rfl
    exact h0 (he.dealers_subset hi)
  obtain ⟨d, rng, hnew, hdeals⟩ := Dealer.new_eq_ok (P := P) hi0 he.newThreshold_ne_zero
    (share i) (e.rng i)
  obtain ⟨-, hpoly⟩ := Dealer.polynomial_of_new hnew
  refine ⟨d.commitment, ?_⟩
  rw [Epoch.delivery, Epoch.deal, hnew, Outcome.ok_bind]
  simp only
  rw [(hdeals.generateSubshare_eq hj).1, hpoly]
  rfl

/-- The new share is a combination of the delivered values. -/
lemma Holding.nextShare_eq [PrimeOrder P] (h : Holding holders t key share)
    (he : e.Valid holders t) {j : UInt32} (hj : j ∈ e.players) :
    e.nextShare key share j = ((e.dealers.insertionSort (· ≤ ·)).map fun i =>
      lagrangeCoeff (e.dealers.insertionSort (· ≤ ·)) i * e.value share j i).sum := by
  have hj0 : j ≠ 0 := by
    rintro rfl
    exact he.zero_notMem_players hj
  obtain ⟨dealer, hdealt⟩ := he.exists_dealt (P := P) h.zero_notMem share
  obtain ⟨newShare, hfin, hshare⟩ := h.finalize_eq (fromU32_injective P) he hdealt hj
  have hperm := List.perm_insertionSort (· ≤ ·) e.dealers
  have hvalues : ∀ i ∈ e.dealers.insertionSort (· ≤ ·),
      Sharing.IsShare (generator : P) (dealer i).commitment.coefficients (fromU32 j)
        (e.value share j i) := by
    intro i hi
    obtain ⟨⟨rng, hdeal⟩, hdeals⟩ := hdealt i (hperm.mem_iff.mp hi)
    obtain ⟨-, hpoly⟩ := Dealer.polynomial_of_new hdeal
    have hverify := (hdeals.generateSubshare_eq hj0).2
    rw [hpoly] at hverify
    exact (DealerCommitment.verifySubshare_iff.mp hverify).2
  -- both are the share of the combined commitments at `j`, and there is only one
  have hcombined := Sharing.IsShare.combine (t := e.newThreshold.toNat)
    (w := lagrangeCoeff (e.dealers.insertionSort (· ≤ ·)))
    (fun i hi => ((hdealt i (hperm.mem_iff.mp hi)).2.length_coefficients).le) hvalues
  rw [Epoch.nextShare, hfin]
  exact smul_generator_injective (P := P) (hshare.trans hcombined.symm)

/-- What a dealer that is not read sends is the value of its hidden coefficients. -/
lemma Watch.Draws.value_eq (hd : w.Draws readers hidden) (share : UInt32 → S) {i : UInt32}
    (hi : i ∈ w.dealers) (hread : i ∉ readers) (j : UInt32) :
    (w.epoch readers hidden).value share j i
      = Horner.horner (fromU32 j : S) (share i :: hidden i) := by
  have hlen : (hidden i).length = w.newThreshold.toNat - 1 := by
    rw [hd i, if_pos ⟨hi, hread⟩]
  simp only [Epoch.value, Watch.epoch, if_neg hread]
  rw [take_drawn_append hlen]

/-- The views agree when the values sent to the watched players do. -/
lemma sameView_iff [PrimeOrder P] (hw : w.Valid holders t) (h : Holding holders t key share)
    (h' : Holding holders t key' share') :
    w.SameView P readers key share hidden key' share' hidden' ↔
      ∀ j ∈ w.watched, ∀ i ∈ w.dealers, (w.epoch readers hidden).value share j i
        = (w.epoch readers hidden').value share' j i := by
  have he := hw.epoch readers hidden
  have he' := hw.epoch readers hidden'
  have hne : ∀ j ∈ w.watched, j ≠ 0 := by
    rintro j hj rfl
    exact he.zero_notMem_players (hw.subset hj)
  constructor
  · intro hview j hj i hi
    obtain ⟨s, c, c', hs, hs'⟩ := (hview j hj).1 i hi
    obtain ⟨d, hd⟩ := he.delivery_eq (P := P) h.zero_notMem share hi (hne j hj)
    obtain ⟨d', hd'⟩ := he'.delivery_eq (P := P) h'.zero_notMem share' hi (hne j hj)
    have hfst := (Prod.mk.inj (Outcome.ok.inj (hd.symm.trans hs))).1
    have hfst' := (Prod.mk.inj (Outcome.ok.inj (hd'.symm.trans hs'))).1
    exact congrArg SubShare.value (hfst.trans hfst'.symm)
  · intro hvalues j hj
    refine ⟨fun i hi => ?_, ?_⟩
    · obtain ⟨c, hc⟩ := he.delivery_eq (P := P) h.zero_notMem share hi (hne j hj)
      obtain ⟨c', hc'⟩ := he'.delivery_eq (P := P) h'.zero_notMem share' hi (hne j hj)
      exact ⟨_, c, c', hc, by rw [hc', hvalues j hj i hi]⟩
    · rw [h.nextShare_eq he (hw.subset hj), h'.nextShare_eq he' (hw.subset hj)]
      refine congrArg List.sum (List.map_congr_left fun i hi => ?_)
      have hmem := (List.perm_insertionSort (· ≤ ·) w.dealers).mem_iff.mp hi
      exact congrArg _ (hvalues j hj i hmem)

/-- **One epoch**: exactly one choice of the hidden draws gives the other run the same
view. -/
theorem existsUnique_draws [PrimeOrder P] (hw : w.Valid holders t)
    (h : Holding holders t key share) (h' : Holding holders t key' share')
    (hread : ∀ i ∈ readers, share i = share' i) (hdraws : w.Draws readers hidden) :
    ∃! hidden' : UInt32 → List S, w.Draws readers hidden' ∧
      w.SameView P readers key share hidden key' share' hidden' := by
  have hinj := fromU32_injective P
  have hne : ∀ j ∈ w.watched, j ≠ 0 := by
    rintro j hj rfl
    exact (hw.epoch readers hidden).zero_notMem_players (hw.subset hj)
  -- dealer by dealer, the values at the watched players leave one polynomial
  have hdealer : ∀ i, ∃! cs : List S,
      (cs.length = if i ∈ w.dealers ∧ i ∉ readers then w.newThreshold.toNat - 1 else 0) ∧
      (i ∈ w.dealers → i ∉ readers → ∀ j ∈ w.watched,
        Horner.horner (fromU32 j : S) (share' i :: cs)
          = Horner.horner (fromU32 j : S) (share i :: hidden i)) := by
    intro i
    by_cases hi : i ∈ w.dealers ∧ i ∉ readers
    · have hobserved : Observation (· ≠ 0) (w.watched.map fun j =>
          (j, Horner.horner (fromU32 j : S) (share i :: hidden i))) := by
        refine ⟨by simpa [Function.comp_def] using hw.nodup, fun p hp => ?_⟩
        obtain ⟨j, hj, rfl⟩ := List.mem_map.mp hp
        exact hne j hj
      refine (existsUnique_congr fun cs => ?_).mpr (Interpolation.existsUnique_horner_cons
        (hobserved.nodup_points hinj) (hobserved.zero_notMem_points hinj fun _ => id) (share' i))
      rw [if_pos hi, ← hw.length_eq, Nat.add_sub_cancel]
      simp [hi.1, hi.2]
    · refine ⟨[], ⟨by rw [if_neg hi, List.length_nil], fun hd hr => absurd ⟨hd, hr⟩ hi⟩, ?_⟩
      rintro cs ⟨hlen, -⟩
      rw [if_neg hi] at hlen
      exact List.eq_nil_of_length_eq_zero hlen
  obtain ⟨f, hf⟩ := forall_existsUnique_iff.mp hdealer
  have hview : ∀ hidden', w.Draws readers hidden' →
      (w.SameView P readers key share hidden key' share' hidden' ↔
        ∀ i, i ∈ w.dealers → i ∉ readers → ∀ j ∈ w.watched,
          Horner.horner (fromU32 j : S) (share' i :: hidden' i)
            = Horner.horner (fromU32 j : S) (share i :: hidden i)) := by
    intro hidden' hdraws'
    rw [sameView_iff hw h h']
    constructor
    · intro hvalues i hi hr j hj
      have hvalue := hvalues j hj i hi
      rw [hdraws.value_eq share hi hr, hdraws'.value_eq share' hi hr] at hvalue
      exact hvalue.symm
    · intro hvalues j hj i hi
      by_cases hr : i ∈ readers
      · simp only [Epoch.value, Watch.epoch, if_pos hr, hread i hr]
      · rw [hdraws.value_eq share hi hr, hdraws'.value_eq share' hi hr]
        exact (hvalues i hi hr j hj).symm
  have hall : ∀ hidden', (w.Draws readers hidden' ∧
      w.SameView P readers key share hidden key' share' hidden') ↔ ∀ i, f i = hidden' i := by
    intro hidden'
    constructor
    · rintro ⟨hdraws', hsame⟩ i
      exact hf.mp ⟨hdraws' i, (hview hidden' hdraws').mp hsame i⟩
    · intro heq
      have hdraws' : w.Draws readers hidden' := fun i => (hf.mpr (heq i)).1
      exact ⟨hdraws', (hview hidden' hdraws').mpr fun i => (hf.mpr (heq i)).2⟩
  exact ⟨f, (hall f).mpr fun _ => rfl, fun hidden' h => (funext ((hall hidden').mp h)).symm⟩

/-! ### Every epoch -/

/-- What holder `i` has of the sharing of `secret` with the further coefficients `cs`. -/
def initialShare (secret : S) (cs : List S) (i : UInt32) : S :=
  Horner.horner (fromU32 i : S) (secret :: cs)

lemma holding_initialShare (ht : t ≠ 0) (h0 : 0 ∉ holders) (secret : S) {cs : List S}
    (hlen : cs.length + 1 = t.toNat) :
    Holding holders t (secret • (generator : P)) (initialShare secret cs) := by
  have h : Holding holders t (Horner.horner (0 : S) (secret :: cs) • (generator : P))
      (initialShare secret cs) :=
    holding_of_polynomial ht h0 (List.length_cons.trans hlen).le fun i _ => rfl
  rwa [Horner.horner_zero, List.headD_cons] at h

/-- Runs that go on from shares which agree where the adversary reads. -/
theorem existsUnique_views [PrimeOrder P] {ws : List (Watch S)}
    (hvalid : ValidWatches holders t ws) (h : Holding holders t key share)
    (h' : Holding holders t key' share') (hread : ∀ i ∈ readers, share i = share' i)
    {hs : List (UInt32 → List S)} (hdraws : DrawsAll readers ws hs) :
    ∃! hs' : List (UInt32 → List S), DrawsAll readers ws hs' ∧
      SameViews key key' readers share share' ws hs hs' := by
  have hinj := fromU32_injective P
  induction ws generalizing holders t readers share share' hs with
  | nil =>
    cases hs with
    | cons hidden hs => exact hdraws.elim
    | nil =>
      refine ⟨[], ⟨trivial, trivial⟩, ?_⟩
      rintro hs' ⟨hdraws', -⟩
      cases hs' with
      | nil => rfl
      | cons hidden' hs' => exact hdraws'.elim
  | cons w ws ih =>
    cases hs with
    | nil => exact hdraws.elim
    | cons hidden hs =>
      obtain ⟨hw, hrest⟩ := hvalid
      obtain ⟨hfirst, hlater⟩ := hdraws
      obtain ⟨hidden', ⟨hfirst', hview⟩, huniq⟩ := existsUnique_draws hw h h' hread hfirst
      -- the draws of this epoch settle the shares that the next one starts from
      obtain ⟨hs', ⟨hlater', hviews⟩, huniqs⟩ := ih hrest
        (h.step hinj (hw.epoch readers hidden)).2 (h'.step hinj (hw.epoch readers hidden')).2
        (fun j hj => (hview j hj).2) hlater
      refine ⟨hidden' :: hs', ⟨⟨hfirst', hlater'⟩, hview, hviews⟩, ?_⟩
      rintro hs'' ⟨hdraws'', hviews''⟩
      cases hs'' with
      | nil => exact hdraws''.elim
      | cons hidden'' hs'' =>
        obtain rfl := huniq hidden'' ⟨hdraws''.1, hviews''.1⟩
        rw [huniqs hs'' ⟨hdraws''.2, hviews''.2⟩]

/-- **Resharing is proactive.**  Over any number of epochs an adversary that reads, in each, all
that one holder less than the threshold has, learns nothing of the secret: for every secret
there is exactly one sharing of it, with exactly one choice of what the other dealers drew in
every epoch, under which it sees the same. -/
theorem mobile_adversary_learns_nothing [PrimeOrder P] (ht : t ≠ 0) (h0 : 0 ∉ holders)
    (hnd : readers.Nodup) (hsub : readers ⊆ holders) (hlen : readers.length + 1 = t.toNat)
    {ws : List (Watch S)} (hvalid : ValidWatches holders t ws) (secret : S) {cs : List S}
    (hcs : cs.length + 1 = t.toNat) {hs : List (UInt32 → List S)}
    (hdraws : DrawsAll readers ws hs) (secret' : S) :
    ∃! run : List S × List (UInt32 → List S),
      (run.1.length + 1 = t.toNat ∧ DrawsAll readers ws run.2) ∧
      (∀ i ∈ readers, initialShare secret cs i = initialShare secret' run.1 i) ∧
      SameViews (secret • generator : P) (secret' • generator) readers (initialShare secret cs)
        (initialShare secret' run.1) ws hs run.2 := by
  have hinj := fromU32_injective P
  have hobserved : Observation (· ≠ 0) (readers.map fun i => (i, initialShare secret cs i)) := by
    refine ⟨by simpa [Function.comp_def] using hnd, fun p hp => ?_⟩
    obtain ⟨i, hi, rfl⟩ := List.mem_map.mp hp
    rintro rfl
    exact h0 (hsub hi)
  obtain ⟨cs', ⟨hcs', hshares⟩, huniq⟩ := Interpolation.existsUnique_horner_cons
    (hobserved.nodup_points hinj) (hobserved.zero_notMem_points hinj fun _ => id) secret'
  simp only [List.length_map] at hcs' huniq
  simp only [List.forall_mem_map] at hshares huniq
  have hlen' : cs'.length + 1 = t.toNat := hcs' ▸ hlen
  have hread : ∀ i ∈ readers, initialShare secret cs i = initialShare secret' cs' i :=
    fun i hi => (hshares i hi).symm
  obtain ⟨hs', ⟨hdraws', hviews⟩, huniqs⟩ := existsUnique_views hvalid
    (holding_initialShare (P := P) ht h0 secret hcs)
    (holding_initialShare (P := P) ht h0 secret' hlen') hread hdraws
  refine ⟨(cs', hs'), ⟨⟨hlen', hdraws'⟩, hread, hviews⟩, ?_⟩
  rintro ⟨cs'', hs''⟩ ⟨⟨hlen'', hdraws''⟩, hread'', hviews''⟩
  obtain rfl : cs'' = cs' :=
    huniq cs'' ⟨Nat.succ_injective (hlen''.trans hlen.symm), fun i hi => (hread'' i hi).symm⟩
  rw [huniqs hs'' ⟨hdraws'', hviews''⟩]

end Proactive

section Two

open Reference

/-- The holders 1 and 2 reshare to 4 and 6; the adversary reads 1 and then 4. -/
def someWatch : Watch Residue where
  newThreshold := 2
  dealers := [2, 1]
  players := [4, 6]
  arrival _ := [1, 2]
  watched := [4]
  known _ := Stream'.const ((7 : ℕ) : Residue)
  rest _ := Stream'.const 0

lemma validWatches_someWatch : ValidWatches [1, 2] 2 [someWatch] := by
  refine ⟨⟨fun readers hidden => ?_, by decide, by decide, rfl⟩, trivial⟩
  refine ⟨show (2 : UInt32) ≠ 0 by decide, show [2, 1].Nodup by decide,
    show [2, 1] ⊆ [1, 2] by decide, show (2 : UInt32).toNat ≤ 2 by decide,
    show (0 : UInt32) ∉ [4, 6] by decide, fun j _ i => ?_⟩
  simp [someWatch, Watch.epoch, or_comm]

/-- One sharing of `9` explains what it sees of the sharing `5 + x`. -/
theorem mobile_adversary_learns_nothing_five :
    ∃! run : List Residue × List (UInt32 → List Residue),
      (run.1.length + 1 = (2 : UInt32).toNat ∧ DrawsAll [1] [someWatch] run.2) ∧
      (∀ i ∈ [1], initialShare (5 : Residue) [1] i = initialShare 9 run.1 i) ∧
      SameViews ((5 : Residue) • generator : Residue) ((9 : Residue) • generator) [1]
        (initialShare 5 [1]) (initialShare 9 run.1) [someWatch]
        [fun i => if i = 2 then [3] else []] run.2 := by
  have hdraws : DrawsAll [1] [someWatch] [fun i => if i = 2 then [3] else []] := by
    refine ⟨fun i => ?_, trivial⟩
    by_cases h2 : i = 2
    · subst h2
      rfl
    · by_cases h1 : i = 1 <;> simp [someWatch, h1, h2]
  exact mobile_adversary_learns_nothing (by decide) (by decide) (by decide) (by decide) rfl
    validWatches_someWatch 5 rfl hdraws 9

end Two

end Frostito.Reshare
