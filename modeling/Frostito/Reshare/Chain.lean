import Frostito.Reference.Backend
import Frostito.Reshare.Delivery

/-!
# Resharing preserves the key over any number of epochs

In each epoch some of the holders deal their shares, with a threshold of their choice for
the next, and every new player hears from all of them.  What an epoch keeps is that the
holders' shares lie on one sharing of the key with no more coefficients than the threshold:
the dealers' commitments are sharings of shares of it, and combine to a sharing of the same
key.
-/

namespace Frostito.Reshare

/-- One epoch: the new threshold, the dealers among the old holders with the randomness each
of them deals with, and the new players with the order in which each hears from the
dealers. -/
structure Epoch (S : Type) where
  newThreshold : UInt32
  dealers : List UInt32
  rng : UInt32 → Rng S
  players : List UInt32
  arrival : UInt32 → List UInt32

section Chain

variable {S P : Type} [CurveScalar S] [CurvePoint P S]

namespace Epoch

/-- Dealer `i` deals its share. -/
def deal (e : Epoch S) (share : UInt32 → S) (i : UInt32) : Outcome Error (Dealer P S × Rng S) :=
  Dealer.new i (share i) e.newThreshold (e.rng i)

/-- What dealer `i` sends player `j`. -/
def delivery (e : Epoch S) (share : UInt32 → S) (j i : UInt32) :
    Outcome Error (SubShare S × DealerCommitment P) := do
  let (dealer, _) ← e.deal share i
  let subshare ← dealer.generateSubshare j
  .ok (subshare, dealer.commitment)

/-- Player `j` collects what the dealers send it and finishes. -/
def finalize (e : Epoch S) (key : P) (share : UInt32 → S) (j : UInt32) :
    Outcome Error (S × SharePolynomial P) := do
  let a ← Aggregator.new j e.dealers
  let deliveries ← (e.arrival j).mapM (e.delivery share j)
  (Calls.run deliver a deliveries).finalize key

/-- The share of player `j` after the epoch. -/
def nextShare (e : Epoch S) (key : P) (share : UInt32 → S) (j : UInt32) : S :=
  match e.finalize key share j with
  | .ok (newShare, _) => newShare
  | _ => 0

/-- An epoch that `holders` with the threshold `t` can run: enough distinct holders deal, and
every new player, from 1 on, hears from all of them. -/
structure Valid (e : Epoch S) (holders : List UInt32) (t : UInt32) : Prop where
  newThreshold_ne_zero : e.newThreshold ≠ 0
  dealers_nodup : e.dealers.Nodup
  dealers_subset : e.dealers ⊆ holders
  enough : t.toNat ≤ e.dealers.length
  zero_notMem_players : 0 ∉ e.players
  mem_arrival : ∀ j ∈ e.players, ∀ i, i ∈ e.arrival j ↔ i ∈ e.dealers

end Epoch

/-- The shares after a list of epochs. -/
def shareAfter (key : P) (share : UInt32 → S) (epochs : List (Epoch S)) : UInt32 → S :=
  epochs.foldl (fun share e => e.nextShare key share) share

/-- The holders after a list of epochs. -/
def holdersAfter (holders : List UInt32) (epochs : List (Epoch S)) : List UInt32 :=
  (epochs.getLast?.map Epoch.players).getD holders

/-- The threshold after a list of epochs. -/
def thresholdAfter (t : UInt32) (epochs : List (Epoch S)) : UInt32 :=
  (epochs.getLast?.map Epoch.newThreshold).getD t

/-- Epochs that run one after the other, each on the holders the one before left. -/
def ValidChain (holders : List UInt32) (t : UInt32) : List (Epoch S) → Prop
  | [] => True
  | e :: epochs => e.Valid holders t ∧ ValidChain e.players e.newThreshold epochs

/-- The shares of the holders lie on one sharing of the key, with at most as many coefficients
as the threshold. -/
structure Holding (holders : List UInt32) (t : UInt32) (key : P) (share : UInt32 → S) : Prop
    where
  threshold_ne_zero : t ≠ 0
  zero_notMem : 0 ∉ holders
  sharing : ∃ cs : List P, cs.length ≤ t.toNat ∧ cs.headD 0 = key ∧
    ∀ i ∈ holders, Sharing.IsShare (generator : P) cs (fromU32 i) (share i)

variable {holders : List UInt32} {t : UInt32} {key : P} {share : UInt32 → S} {e : Epoch S}

/-- The shares of a scalar polynomial are a sharing of its constant term in the exponent. -/
lemma holding_of_polynomial (ht : t ≠ 0) (h0 : 0 ∉ holders) {f : List S}
    (hdeg : f.length ≤ t.toNat)
    (hshare : ∀ i ∈ holders, share i = Horner.horner (fromU32 i : S) f) :
    Holding holders t (Horner.horner (0 : S) f • (generator : P)) share := by
  refine ⟨ht, h0, f.map fun a => a • generator, by simpa using hdeg, ?_, ?_⟩
  · rw [← Horner.horner_zero (R := S), Horner.horner_map_smul]
  · intro i hi
    rw [hshare i hi]
    exact Sharing.isShare_map_smul _ _

/-- Enough holders recover the discrete logarithm of the key. -/
lemma Holding.reconstruct_eq (hinj : Function.Injective (fromU32 : UInt32 → S))
    (h : Holding holders t key share) {players : List UInt32} (hnd : players.Nodup)
    (hsub : players ⊆ holders) (hmany : t.toNat ≤ players.length) :
    ∃ secret, reconstruct (players.map fun j => (j, share j)) = .ok secret ∧
      secret • generator = key := by
  obtain ⟨cs, hlen, rfl, hshare⟩ := h.sharing
  have hpos := toNat_ne_zero_iff.mpr h.threshold_ne_zero
  have hindices : ValidIndices players :=
    ⟨List.length_pos_iff.mp (by omega), fun hp => h.zero_notMem (hsub hp), hnd⟩
  exact reconstruct_of_isShare hinj hindices (hlen.trans hmany) fun j hj => hshare j (hsub hj)

/-! ### One epoch -/

/-- The dealers of an epoch as `Dealer.new` builds them. -/
def Epoch.Dealt (e : Epoch S) (share : UInt32 → S) (dealer : UInt32 → Dealer P S) : Prop :=
  ∀ i ∈ e.dealers, (∃ rng, e.deal share i = .ok (dealer i, rng)) ∧
    (dealer i).Deals i (share i) e.newThreshold

/-- The polynomial that the players of the epoch derive. -/
def Epoch.polynomial (e : Epoch S) (dealer : UInt32 → Dealer P S) : SharePolynomial P :=
  combined (S := S) e.dealers e.newThreshold fun i => (dealer i).commitment

/-- Every dealer of a valid epoch can deal. -/
lemma Epoch.Valid.exists_dealt (he : e.Valid holders t) (h0 : 0 ∉ holders)
    (share : UInt32 → S) : ∃ dealer : UInt32 → Dealer P S, e.Dealt share dealer := by
  have hall : ∀ i, ∃ d : Dealer P S, i ∈ e.dealers →
      (∃ rng, e.deal share i = .ok (d, rng)) ∧ d.Deals i (share i) e.newThreshold := by
    intro i
    by_cases hi : i ∈ e.dealers
    · have hi0 : i ≠ 0 := by
        rintro rfl
        exact h0 (he.dealers_subset hi)
      obtain ⟨d, rng, hnew, hdeals⟩ := Dealer.new_eq_ok (P := P) hi0 he.newThreshold_ne_zero
        (share i) (e.rng i)
      exact ⟨d, fun _ => ⟨⟨rng, hnew⟩, hdeals⟩⟩
    · exact ⟨⟨0, [], ⟨0, [], by simp⟩⟩, fun hmem => absurd hmem hi⟩
  choose dealer hdealer using hall
  exact ⟨dealer, hdealer⟩

lemma Holding.validIndices_dealers (h : Holding holders t key share) (he : e.Valid holders t) :
    ValidIndices e.dealers := by
  have hpos := toNat_ne_zero_iff.mpr h.threshold_ne_zero
  have henough := he.enough
  exact ⟨List.length_pos_iff.mp (by omega), fun h0 => h.zero_notMem (he.dealers_subset h0),
    he.dealers_nodup⟩

/-- The commitments share the shares of the key, so their combination shares the key. -/
lemma Holding.head?_polynomial (hinj : Function.Injective (fromU32 : UInt32 → S))
    (h : Holding holders t key share) (he : e.Valid holders t) {dealer : UInt32 → Dealer P S}
    (hdealt : e.Dealt share dealer) : (e.polynomial dealer).coefficients.head? = some key := by
  obtain ⟨cs, hlen, rfl, hshare⟩ := h.sharing
  have hperm := List.perm_insertionSort (· ≤ ·) e.dealers
  have hpos := Nat.pos_of_ne_zero (toNat_ne_zero_iff.mpr he.newThreshold_ne_zero)
  have hhead : (e.polynomial dealer).coefficients.headD 0 = cs.headD 0 := by
    refine Sharing.headD_reshare hpos ((hperm.nodup_iff.mpr he.dealers_nodup).map hinj) ?_ ?_
    · rw [hperm.length_eq]
      exact hlen.trans he.enough
    · intro i hi
      have hi' := hperm.mem_iff.mp hi
      rw [(hdealt i hi').2.headD_coefficients]
      exact hshare i (he.dealers_subset hi')
  have hne : (e.polynomial dealer).coefficients ≠ [] := by
    refine List.length_pos_iff.mp ?_
    rwa [Epoch.polynomial, combined, Horner.length_combine]
  obtain ⟨c, rest, hcs⟩ := List.exists_cons_of_ne_nil hne
  rw [hcs, List.headD_cons] at hhead
  rw [hcs, List.head?_cons, hhead]

/-- Every new player finishes with the polynomial, and with a share on it. -/
lemma Holding.finalize_eq (hinj : Function.Injective (fromU32 : UInt32 → S))
    (h : Holding holders t key share) (he : e.Valid holders t) {dealer : UInt32 → Dealer P S}
    (hdealt : e.Dealt share dealer) {j : UInt32} (hj : j ∈ e.players) :
    ∃ newShare, e.finalize key share j = .ok (newShare, e.polynomial dealer) ∧
      Sharing.IsShare (generator : P) (e.polynomial dealer).coefficients (fromU32 j)
        newShare := by
  have hj0 : j ≠ 0 := by
    rintro rfl
    exact he.zero_notMem_players hj
  have hconsistent : Consistent j e.dealers e.newThreshold (fun i => (dealer i).commitment)
      fun i => Horner.horner (fromU32 j : S) (dealer i).polynomial :=
    ⟨fun i hi => (hdealt i hi).2.dealerIndex_eq,
      fun i hi => (hdealt i hi).2.length_coefficients,
      fun i hi => ((hdealt i hi).2.generateSubshare_eq hj0).2⟩
  -- each dealer deals from its current share, and the sub-share it sends verifies
  have hdeliveries : (e.arrival j).mapM (e.delivery share j)
      = .ok ((e.arrival j).map (fromDealer j (fun i => (dealer i).commitment)
        fun i => Horner.horner (fromU32 j : S) (dealer i).polynomial)) := by
    refine Outcome.mapM_eq_ok_map fun i hi => ?_
    obtain ⟨⟨rng, hdeal⟩, hdeals⟩ := hdealt i ((he.mem_arrival j hj i).mp hi)
    rw [Epoch.delivery, hdeal, Outcome.ok_bind]
    simp only
    rw [(hdeals.generateSubshare_eq hj0).1]
    rfl
  have hnew : Aggregator.new j e.dealers
      = .ok (⟨j, e.dealers.insertionSort (· ≤ ·), [], []⟩ : Aggregator P S) :=
    Aggregator.new_eq_ok_iff.mpr ⟨hj0, h.validIndices_dealers he, rfl⟩
  have hfin := hconsistent.finalize_eq hinj hnew (he.mem_arrival j hj)
    (h.head?_polynomial hinj he hdealt)
  refine ⟨_, ?_, (inv_run (inv_new hnew) _).isShare_of_finalize hinj hfin⟩
  rw [Epoch.finalize, hnew, Outcome.ok_bind, hdeliveries, Outcome.ok_bind]
  exact hfin

/-- What one epoch gives: all players finish with one polynomial, of the new threshold and
the key, and each with a share that it accepts. -/
def Epoch.Succeeds (e : Epoch S) (key : P) (share : UInt32 → S) : Prop :=
  ∃ p : SharePolynomial P, p.coefficients.length = e.newThreshold.toNat ∧
    p.groupKey = .ok key ∧
    ∀ j ∈ e.players, ∃ newShare, e.finalize key share j = .ok (newShare, p) ∧
      p.verifyShare j newShare = .ok true

/-- **One epoch succeeds, and leaves its players holding the key.** -/
theorem Holding.step (hinj : Function.Injective (fromU32 : UInt32 → S))
    (h : Holding holders t key share) (he : e.Valid holders t) :
    e.Succeeds key share ∧ Holding e.players e.newThreshold key (e.nextShare key share) := by
  obtain ⟨dealer, hdealt⟩ := he.exists_dealt (P := P) h.zero_notMem share
  have hlen : (e.polynomial dealer).coefficients.length = e.newThreshold.toNat := by
    rw [Epoch.polynomial, combined, Horner.length_combine]
  have hkey := h.head?_polynomial hinj he hdealt
  refine ⟨⟨e.polynomial dealer, hlen, ?_, fun j hj => ?_⟩,
    he.newThreshold_ne_zero, he.zero_notMem_players,
    (e.polynomial dealer).coefficients, hlen.le, ?_, fun j hj => ?_⟩
  · rw [SharePolynomial.groupKey, hkey, Outcome.expectSome_some]
  · obtain ⟨newShare, hfin, hshare⟩ := h.finalize_eq hinj he hdealt hj
    have hj0 : j ≠ 0 := by
      rintro rfl
      exact he.zero_notMem_players hj
    exact ⟨newShare, hfin, by rw [SharePolynomial.verifyShare_eq hj0, decide_eq_true hshare]⟩
  · obtain ⟨c, rest, hcs⟩ := List.exists_cons_of_ne_nil (l := (e.polynomial dealer).coefficients)
      (by rintro hnil; simp [hnil] at hkey)
    rw [hcs, List.head?_cons, Option.some.injEq] at hkey
    rw [hcs, List.headD_cons, hkey]
  · obtain ⟨newShare, hfin, hshare⟩ := h.finalize_eq hinj he hdealt hj
    rwa [Epoch.nextShare, hfin]

/-! ### Every epoch -/

omit [CurveScalar S] in
lemma holdersAfter_cons (holders : List UInt32) (e : Epoch S) (epochs : List (Epoch S)) :
    holdersAfter holders (e :: epochs) = holdersAfter e.players epochs := by
  cases epochs with
  | nil => rfl
  | cons e' epochs =>
    rw [holdersAfter, List.getLast?_cons_cons, holdersAfter]
    simp [List.getLast?_cons]

omit [CurveScalar S] in
lemma thresholdAfter_cons (t : UInt32) (e : Epoch S) (epochs : List (Epoch S)) :
    thresholdAfter t (e :: epochs) = thresholdAfter e.newThreshold epochs := by
  cases epochs with
  | nil => rfl
  | cons e' epochs =>
    rw [thresholdAfter, List.getLast?_cons_cons, thresholdAfter]
    simp [List.getLast?_cons]

/-- After every epoch the holders hold the key. -/
theorem Holding.run (hinj : Function.Injective (fromU32 : UInt32 → S))
    {epochs : List (Epoch S)} (h : Holding holders t key share)
    (hvalid : ValidChain holders t epochs) :
    (∀ before e after, epochs = before ++ e :: after →
      e.Succeeds key (shareAfter key share before)) ∧
    Holding (holdersAfter holders epochs) (thresholdAfter t epochs) key
      (shareAfter key share epochs) := by
  induction epochs generalizing holders t share with
  | nil => exact ⟨fun before e after heq => absurd heq (by simp), h⟩
  | cons e epochs ih =>
    -- the chain goes on from the players of the first epoch, who hold the key by `step`
    obtain ⟨he, hrest⟩ := hvalid
    obtain ⟨hsucceeds, hnext⟩ := h.step hinj he
    obtain ⟨hall, hlast⟩ := ih hnext hrest
    rw [holdersAfter_cons, thresholdAfter_cons]
    refine ⟨fun before e' after heq => ?_, hlast⟩
    cases before with
    | nil =>
      rw [List.nil_append, List.cons.injEq] at heq
      exact heq.1 ▸ hsucceeds
    | cons e₀ before =>
      rw [List.cons_append, List.cons.injEq] at heq
      obtain ⟨rfl, heq⟩ := heq
      exact hall before e' after heq

/-- **Resharing preserves the key over any number of epochs.**  From the shares of a
polynomial `f` on, and for every chain of epochs in which enough distinct holders deal with
whatever randomness: all players of every epoch finish with one polynomial of the new
threshold with the key `f(0) · G`, on which their shares lie, and as many final shares as the
last threshold asks for combine to `f(0)`. -/
theorem reshare_chain_preserves_key [PrimeOrder P] (ht : t ≠ 0) (h0 : 0 ∉ holders) {f : List S}
    (hdeg : f.length ≤ t.toNat)
    (hshare : ∀ i ∈ holders, share i = Horner.horner (fromU32 i : S) f)
    (hkey : key = Horner.horner (0 : S) f • (generator : P)) {epochs : List (Epoch S)}
    (hvalid : ValidChain holders t epochs) :
    (∀ before e after, epochs = before ++ e :: after →
      e.Succeeds key (shareAfter key share before)) ∧
    ∀ players : List UInt32, players.Nodup → players ⊆ holdersAfter holders epochs →
      (thresholdAfter t epochs).toNat ≤ players.length →
      reconstruct (players.map fun j => (j, shareAfter key share epochs j))
        = .ok (Horner.horner (0 : S) f) := by
  have hinj := fromU32_injective P
  have hstart : Holding holders t key share :=
    hkey ▸ holding_of_polynomial ht h0 hdeg hshare
  obtain ⟨hall, hlast⟩ := hstart.run hinj hvalid
  refine ⟨hall, fun players hnd hsub hmany => ?_⟩
  obtain ⟨secret, hsecret, hlog⟩ := hlast.reconstruct_eq hinj hnd hsub hmany
  have heq : secret = Horner.horner (0 : S) f := smul_generator_injective (hlog.trans hkey)
  rw [hsecret, heq]

end Chain

open Reference in
/-- The holders 1 and 2 of `5 + x` reshare to the players 4 and 6, with the threshold 2. -/
theorem reshare_chain_five :
    ∃ e : Epoch Residue, e.dealers = [2, 1] ∧ e.players = [4, 6] ∧
      e.Succeeds (5 : Residue) (fun i => 5 + fromU32 i) ∧
      reconstruct ([4, 6].map fun j =>
        (j, e.nextShare (5 : Residue) (fun i => 5 + fromU32 i) j)) = .ok 5 := by
  let f : List Residue := [5, 1]
  have hzero : (5 : Residue) = Horner.horner (0 : Residue) f := by
    rw [Horner.horner_zero, List.headD_cons]
  have hvalid : ValidChain [1, 2] 2 [(⟨2, [2, 1], fun _ => Stream'.const 7, [4, 6],
      fun _ => [1, 2]⟩ : Epoch Residue)] := by
    refine ⟨⟨by decide, by decide, by simp, by decide, by decide, fun j _ i => ?_⟩, trivial⟩
    simp [or_comm]
  have hshare : ∀ i ∈ [1, 2], 5 + (fromU32 i : Residue)
      = Horner.horner (fromU32 i : Residue) f :=
    fun i _ => by simp [f, add_comm]
  have hkey : (5 : Residue) = Horner.horner (0 : Residue) f • (generator : Residue) := by
    rw [← hzero]
    exact (mul_one _).symm
  obtain ⟨hall, hfinal⟩ :=
    reshare_chain_preserves_key (by decide) (by decide) (by decide) hshare hkey hvalid
  refine ⟨_, rfl, rfl, hall [] _ [] rfl, ?_⟩
  have hreconstruct := hfinal [4, 6] (by decide) (List.Subset.refl _) (by decide)
  rw [← hzero] at hreconstruct
  exact hreconstruct

end Frostito.Reshare
