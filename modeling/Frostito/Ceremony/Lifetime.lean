import Frostito.Ceremony.Agreement
import Frostito.Reshare.Finishing

/-!
# The life of a key

A key comes out of a ceremony and is handed from one generation of holders to the next: by an
epoch in which enough holders deal and everything they send arrives, or by one in which anybody
submits and delivers anything, to those that finish it nevertheless.  Every generation holds one
secret, the discrete logarithm of the key.
-/

namespace Frostito

section Lifetime

variable {S P : Type} [CurveScalar S] [CurvePoint P S] [Sha2] [Snow]

namespace Ceremony

open Reshare

variable {c : Ceremony P S} {w : World P S} {holders : List UInt32} {t : UInt32}
  {share : UInt32 → S} {key : P}

/-- Enough participants that have finished the ceremony hold its key. -/
lemma Reachable.holding [LawfulCompress P] (hvalid : c.Valid) (h : c.Reachable w)
    (hcollision : ¬c.EchoCollision w) (hne : holders ≠ [])
    (hfinished : ∀ j ∈ holders, j ∈ c.honest ∧ Finished w j (share j) key) :
    Holding holders c.threshold key share := by
  have hround2 : ∀ j ∈ holders, ∃ agreed, InRound2 w j agreed := by
    intro j hj
    obtain ⟨agreed, aggregator, hround2, -⟩ := (hfinished j hj).2
    exact ⟨agreed, aggregator, hround2⟩
  obtain ⟨i, hi⟩ := List.exists_mem_of_ne_nil _ hne
  obtain ⟨agreed, hiround2⟩ := hround2 i hi
  have hshares : ∀ j ∈ holders,
      Sharing.IsShare (generator : P) (Dkg.groupSharing (S := S) c.threshold agreed) (fromU32 j)
        (share j) ∧ key = (Dkg.groupSharing (S := S) c.threshold agreed).headD 0 := by
    intro j hj
    obtain ⟨hhonest, hfinishedj⟩ := hfinished j hj
    obtain ⟨agreed', hjround2⟩ := hround2 j hj
    obtain rfl := h.agreed_eq hvalid hcollision (hfinished i hi).1 hhonest hiround2 hjround2
    exact h.isShare_of_finished hvalid hhonest hjround2 hfinishedj
  refine ⟨hvalid.threshold_ne_zero, fun h0 => ?_, Dkg.groupSharing (S := S) c.threshold agreed, ?_,
    (hshares i hi).2.symm, fun j hj => (hshares j hj).1⟩
  · exact (mem_participants.mp (hvalid.honest_subset 0 (hfinished 0 h0).1)).1 rfl
  · rw [Dkg.groupSharing, Horner.length_combine]

/-- Who holds the key with which threshold and shares: honest participants that finished the
ceremony with it; the players of an epoch that a generation before them can run; those that
finished an epoch for the key, whatever was submitted and delivered in it. -/
inductive Generation (c : Ceremony P S) (w : World P S) (key : P) :
    List UInt32 → UInt32 → (UInt32 → S) → Prop where
  | ceremony {holders : List UInt32} {share : UInt32 → S} (hne : holders ≠ [])
      (hfinished : ∀ j ∈ holders, j ∈ c.honest ∧ Finished w j (share j) key) :
      Generation c w key holders c.threshold share
  | epoch {holders : List UInt32} {t : UInt32} {share : UInt32 → S} {e : Epoch S}
      (hbefore : Generation c w key holders t share) (hvalid : e.Valid holders t) :
      Generation c w key e.players e.newThreshold (e.nextShare key share)
  | rollover {players : List UInt32} {share : UInt32 → S} (hne : players ≠ [])
      (targetEpoch : UInt64) (oldDealerCount oldThreshold newThreshold newPlayerCount : UInt32)
      (events : List (RolloverEvent P S)) (hcounts : ∀ e ∈ events, Rollover.Counts e)
      (hfinished : ∀ j ∈ players, ∃ p, ((Rollover.start (.new targetEpoch oldDealerCount
        oldThreshold newThreshold newPlayerCount key)).run events).Finished j (share j) p) :
      Generation c w key players newThreshold share

/-- Every generation holds the key. -/
lemma Generation.holding [PrimeOrder P] [LawfulCompress P] (hvalid : c.Valid) (h : c.Reachable w)
    (hcollision : ¬c.EchoCollision w) (hgeneration : c.Generation w key holders t share) :
    Holding holders t key share := by
  induction hgeneration with
  | ceremony hne hfinished => exact h.holding hvalid hcollision hne hfinished
  | epoch _ he ih => exact (ih.step (fromU32_injective P) he).2
  | rollover hne _ _ _ _ _ _ hcounts hfinished =>
    exact Rollover.holding_of_finished rfl hcounts hne hfinished

/-- **The life of a key.**  Take any state that any network and any other participants may have
led a ceremony to.  Unless two published sets collide there is one secret, the discrete logarithm
of the key, that every quorum of every generation puts together; and every epoch that a generation
can run succeeds. -/
theorem Reachable.key_survives [PrimeOrder P] [LawfulCompress P] (hvalid : c.Valid)
    (h : c.Reachable w) (key : P) :
    c.EchoCollision w ∨ ∃ secret : S, secret • (generator : P) = key ∧
      ∀ (holders : List UInt32) (t : UInt32) (share : UInt32 → S),
        c.Generation w key holders t share →
        (∀ players : List UInt32, players.Nodup → players ⊆ holders →
          t.toNat ≤ players.length →
          reconstruct (players.map fun j => (j, share j)) = .ok secret) ∧
        ∀ e : Epoch S, e.Valid holders t → e.Succeeds key share := by
  by_cases hcollision : c.EchoCollision w
  · exact .inl hcollision
  have hinj := fromU32_injective P
  obtain ⟨secret, hsecret⟩ := exists_smul_generator_eq (S := S) key
  refine .inr ⟨secret, hsecret, fun holders t share hgeneration => ?_⟩
  have hholding := hgeneration.holding hvalid h hcollision
  refine ⟨fun players hnd hsub hmany => ?_, fun e he => (hholding.step hinj he).1⟩
  obtain ⟨s, hs, hlog⟩ := hholding.reconstruct_eq hinj hnd hsub hmany
  rw [hs, smul_generator_injective (P := P) (hlog.trans hsecret.symm)]

end Ceremony

end Lifetime

open Reference Ceremony Reshare in
/-- The key `11` of the participants 1 and 2 is reshared to the players 4 and 6, and once more to
the participants themselves, by dealers of whom one sends something wrong first. -/
theorem key_survives_three : ∃ (w : World Residue Residue) (share newShare : UInt32 → Residue)
    (e : Epoch Residue), three.Reachable w ∧
    (∀ j ∈ [1, 2], j ∈ three.honest ∧ Finished w j (share j) ((11 : ℕ) : Residue)) ∧
    e.dealers = [2, 1] ∧ e.players = [4, 6] ∧
    (∀ j ∈ [1, 2], ∃ p, ((Rollover.start pairState).run (beforeManifest ++ .publish ::
      afterManifest)).Finished j (newShare j) p) ∧
    (three.EchoCollision w ∨
      reconstruct ([1, 2].map fun j => (j, share j)) = .ok ((11 : ℕ) : Residue) ∧
      e.Succeeds ((11 : ℕ) : Residue) share ∧
      reconstruct ([4, 6].map fun j => (j, e.nextShare ((11 : ℕ) : Residue) share j))
        = .ok ((11 : ℕ) : Residue) ∧
      reconstruct ([1, 2].map fun j => (j, newShare j)) = .ok ((11 : ℕ) : Residue)) := by
  obtain ⟨w, share, hreachable, hall⟩ := exists_finished_three
  have hfinished : ∀ j ∈ [1, 2], j ∈ three.honest ∧
      Finished w j (share j) ((11 : ℕ) : Residue) := by
    intro j hj
    have hhonest : j ∈ three.honest := by simpa [three] using hj
    exact ⟨hhonest, hall j hhonest⟩
  choose! newShare hnew using fun j (hj : j ∈ [1, 2]) => exists_finished_lines hj
  let e : Epoch Residue := ⟨2, [2, 1], fun _ => Stream'.const 7, [4, 6], fun _ => [1, 2]⟩
  have he : e.Valid [1, 2] 2 :=
    ⟨by decide, by decide, by simp [e], by decide, by decide, fun j _ i => by simp [e, or_comm]⟩
  have hfirst : three.Generation w ((11 : ℕ) : Residue) [1, 2] 2 share :=
    .ceremony (List.cons_ne_nil _ _) hfinished
  have hlast : three.Generation w ((11 : ℕ) : Residue) [1, 2] 2 newShare :=
    .rollover (List.cons_ne_nil _ _) 7 3 2 2 2 _ counts_lines fun j hj => pairState_eq ▸ hnew j hj
  refine ⟨w, share, newShare, e, hreachable, hfinished, rfl, rfl, hnew, ?_⟩
  refine (hreachable.key_survives valid_three ((11 : ℕ) : Residue)).imp id ?_
  rintro ⟨secret, hlog, hgenerations⟩
  obtain rfl : secret = ((11 : ℕ) : Residue) := (mul_one secret).symm.trans hlog
  obtain ⟨hquorum, hsucceeds⟩ := hgenerations _ _ _ hfirst
  obtain ⟨hnext, -⟩ := hgenerations _ _ _ (hfirst.epoch he)
  obtain ⟨hagain, -⟩ := hgenerations _ _ _ hlast
  exact ⟨hquorum [1, 2] (by decide) (List.Subset.refl _) le_rfl, hsucceeds e he,
    hnext [4, 6] (by decide) (List.Subset.refl _) le_rfl,
    hagain [1, 2] (by decide) (List.Subset.refl _) le_rfl⟩

end Frostito
