import Frostito.Lib.Layered
import Frostito.Sharers

/-!
# Who can put a dealt secret together

An outer participant of a nested group hands its values to the other outer participants, and
splits the one at the nested position among the inner holders.  The nested position counts as one
more participant of a coalition when enough of its holders belong to it, and not at all when they
do not: the two thresholds are exact together.
-/

namespace Frostito

section Secrecy

variable {S P : Type} [CurveScalar S] [CurvePoint P S]

variable (P) in
/-- A run in which a participant deals this secret with `rng`, sends the outer participants these
values, and splits the one at the nested position `p` with `splitRng` into these pieces. -/
def NestedDealing (index outerT innerN innerT p : UInt32) (rng splitRng : Rng S) (secret : S)
    (outer inner : List (UInt32 × S)) : Prop :=
  ∃ value, Dkg.Dealer.Shares P index outerT rng secret ((p, value) :: outer) ∧
    SplitShares P innerN innerT splitRng value inner

variable (P) in
/-- What the participant may have drawn, when it dealt this secret and the coalition got these
values and pieces. -/
def nestedDraws (index outerT innerN innerT p : UInt32) (rest splitRest : Rng S) (secret : S)
    (outer inner : List (UInt32 × S)) : Set (List S × List S) :=
  {d | d.1.length = outerT.toNat ∧ d.2.length = innerT.toNat - 1 ∧
    NestedDealing P index outerT innerN innerT p (d.1 ++ₛ rest) (d.2 ++ₛ splitRest) secret outer
      inner}

/-- Distinct outer participants, none of them the nested one, and distinct inner holders. -/
structure Coalition (innerN p : UInt32) (outer inner : List (UInt32 × S)) : Prop where
  nodup : (p :: outer.map Prod.fst).Nodup
  ne_zero : ∀ q ∈ outer, q.1 ≠ 0
  inner_nodup : (inner.map Prod.fst).Nodup
  holder : ∀ q ∈ inner, q.1 ∈ participants innerN

/-- What was seen, as values at points. -/
def atPoints (seen : List (UInt32 × S)) : List (S × S) := seen.map fun q => (fromU32 q.1, q.2)

lemma map_fst_atPoints (seen : List (UInt32 × S)) :
    (atPoints seen).map Prod.fst = (seen.map Prod.fst).map fromU32 := by
  rw [atPoints, List.map_map, List.map_map]
  rfl

variable {index outerT innerN innerT p : UInt32} {outer inner : List (UInt32 × S)}

/-- A run in terms of the coefficients drawn. -/
lemma nestedDealing_iff (hi : index ≠ 0) (ht : outerT ≠ 0) (hp : p ≠ 0)
    (h : Coalition innerN p outer inner) (rng splitRng : Rng S) (secret : S) :
    NestedDealing P index outerT innerN innerT p rng splitRng secret outer inner ↔
      (rng.take outerT.toNat).headD 0 = secret ∧
      Layered.Sees (fromU32 p : S) (atPoints outer) (atPoints inner) (rng.take outerT.toNat)
        (splitRng.take (innerT.toNat - 1)) := by
  have hplayer : ∀ value : S, ∀ q ∈ (p, value) :: outer, q.1 ≠ 0 := fun value =>
    List.forall_mem_cons.mpr ⟨hp, h.ne_zero⟩
  have hhead : (rng.take outerT.toNat).head? = some secret ↔
      (rng.take outerT.toNat).headD 0 = secret := by
    obtain ⟨n, hn⟩ := Nat.exists_eq_add_one_of_ne_zero (toNat_ne_zero_iff.mpr ht)
    rw [hn, Stream'.take_succ, List.head?_cons, List.headD_cons, Option.some.injEq]
  have hdealing : ∀ value, (Dkg.Dealer.Shares P index outerT rng secret ((p, value) :: outer) ∧
      SplitShares P innerN innerT splitRng value inner) ↔
      Horner.horner (fromU32 p : S) (rng.take outerT.toNat) = value ∧
      (rng.take outerT.toNat).headD 0 = secret ∧
      (∀ q ∈ outer, Horner.horner (fromU32 q.1 : S) (rng.take outerT.toNat) = q.2) ∧
      ∀ q ∈ inner, Horner.horner (fromU32 q.1 : S)
        (value :: splitRng.take (innerT.toNat - 1)) = q.2 := by
    intro value
    rw [Dkg.Dealer.shares_iff hi ht (hplayer value), splitShares_iff innerT h.holder, hhead,
      List.forall_mem_cons]
    tauto
  simp only [NestedDealing, hdealing, exists_eq_left']
  refine and_congr_right fun _ => ⟨fun ⟨houter, hinner⟩ => ⟨?_, ?_⟩, fun hsees => ⟨?_, ?_⟩⟩
  · exact List.forall_mem_map.mpr houter
  · exact List.forall_mem_map.mpr hinner
  · exact List.forall_mem_map.mp hsees.outer_eq
  · exact List.forall_mem_map.mp hsees.inner_eq

/-- The draws are those of the two polynomials. -/
lemma nestedDraws_eq (hi : index ≠ 0) (ht : outerT ≠ 0) (hp : p ≠ 0)
    (h : Coalition innerN p outer inner) (rest splitRest : Rng S) (secret : S) :
    nestedDraws P index outerT innerN innerT p rest splitRest secret outer inner
      = Layered.Draws (fromU32 p : S) (atPoints outer) (atPoints inner) outerT.toNat innerT.toNat
        secret := by
  ext ⟨drawn, splitDrawn⟩
  refine and_congr_right fun hlen => and_congr_right fun hlen' => ?_
  rw [nestedDealing_iff hi ht hp h, take_drawn_append hlen, take_drawn_append hlen']

/-- **Who can put a dealt secret together.**  A coalition for which the outer participants,
with one more if the inner holders reach the inner threshold, reach the outer threshold determines
the secret.  For any other coalition every secret could have been dealt, with as many draws as
every other under which it sees the same. -/
theorem nested_access_exact [PrimeOrder P] (hi : index ≠ 0) (ht : outerT ≠ 0) (ht' : innerT ≠ 0)
    (hp : p ≠ 0) (h : Coalition innerN p outer inner) :
    (Layered.Authorised outerT.toNat innerT.toNat outer.length inner.length →
      ∀ (rng splitRng rng' splitRng' : Rng S) (secret secret' : S),
        NestedDealing P index outerT innerN innerT p rng splitRng secret outer inner →
        NestedDealing P index outerT innerN innerT p rng' splitRng' secret' outer inner →
        secret = secret') ∧
    (¬Layered.Authorised outerT.toNat innerT.toNat outer.length inner.length →
      ∀ (rest splitRest : Rng S) (secret secret' : S),
        Nonempty (nestedDraws P index outerT innerN innerT p rest splitRest secret outer inner ≃
          nestedDraws P index outerT innerN innerT p rest splitRest secret' outer inner)) := by
  have hinj := fromU32_injective P
  have hpoints : ((fromU32 p : S) :: (atPoints outer).map Prod.fst).Nodup := by
    rw [map_fst_atPoints, ← List.map_cons]
    exact h.nodup.map hinj
  have hinner : ((atPoints inner).map Prod.fst).Nodup := by
    rw [map_fst_atPoints]
    exact h.inner_nodup.map hinj
  constructor
  · intro hauthorised rng splitRng rng' splitRng' secret secret' hrun hrun'
    obtain ⟨rfl, hsees⟩ := (nestedDealing_iff hi ht hp h _ _ _).mp hrun
    obtain ⟨rfl, hsees'⟩ := (nestedDealing_iff hi ht hp h _ _ _).mp hrun'
    have hpos := toNat_ne_zero_iff.mpr ht'
    refine hsees.headD_eq hsees' (t := innerT.toNat) hpoints hinner (by simp) ?_ ?_ ?_
    · rw [Stream'.length_take]
      omega
    · rw [Stream'.length_take]
      omega
    · simpa [atPoints] using hauthorised
  · intro hnot rest splitRest secret secret'
    have h0 : (0 : S) ∉ (fromU32 p : S) :: (atPoints outer).map Prod.fst := by
      rw [map_fst_atPoints, ← List.map_cons]
      refine zero_notMem_map_fromU32 hinj fun hmem => ?_
      rcases List.mem_cons.mp hmem with h0 | hmem
      · exact hp h0.symm
      · obtain ⟨q, hq, hq0⟩ := List.mem_map.mp hmem
        exact h.ne_zero q hq hq0
    have h0' : (0 : S) ∉ (atPoints inner).map Prod.fst := by
      rw [map_fst_atPoints]
      refine zero_notMem_map_fromU32 hinj fun hmem => ?_
      obtain ⟨q, hq, hq0⟩ := List.mem_map.mp hmem
      exact (mem_participants.mp (h.holder q hq)).1 hq0
    rw [nestedDraws_eq hi ht hp h, nestedDraws_eq hi ht hp h]
    refine Layered.nonempty_draws_equiv hpoints h0 hinner h0' ?_ secret secret'
    simpa [atPoints] using hnot

end Secrecy

open Reference in
/-- Of two thresholds of two: one participant with one holder learns nothing, with two holders it
knows the secret. -/
theorem nested_access_exact_two :
    (∀ secret secret' : Residue,
      Nonempty (nestedDraws Residue 1 2 3 2 2 (.const 0) (.const 0) secret [(3, 4)] [(1, 5)] ≃
        nestedDraws Residue 1 2 3 2 2 (.const 0) (.const 0) secret' [(3, 4)] [(1, 5)])) ∧
    ∀ (rng splitRng rng' splitRng' : Rng Residue) (secret secret' : Residue),
      NestedDealing Residue 1 2 3 2 2 rng splitRng secret [(3, 4)] [(1, 5), (2, 6)] →
      NestedDealing Residue 1 2 3 2 2 rng' splitRng' secret' [(3, 4)] [(1, 5), (2, 6)] →
        secret = secret' := by
  have hone : Coalition 3 2 [((3 : UInt32), (4 : Residue))] [(1, 5)] :=
    ⟨by decide, by simp, by decide, by simp [mem_participants]⟩
  have htwo : Coalition 3 2 [((3 : UInt32), (4 : Residue))] [(1, 5), (2, 6)] :=
    ⟨by decide, by simp, by decide, by simp [mem_participants]⟩
  exact ⟨(nested_access_exact (by decide) (by decide) (by decide) (by decide) hone).2 (by decide) _
      _, (nested_access_exact (by decide) (by decide) (by decide) (by decide) htwo).1 (by decide)⟩

end Frostito
