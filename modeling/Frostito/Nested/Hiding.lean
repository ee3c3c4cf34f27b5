import Frostito.Lib.Layered
import Frostito.Sharers

/-!
# Who learns the polynomial of the nested position

The inner holders generate every coefficient of their polynomial with a key generation of its own.
A coalition that reads inner holders knows what they drew and what the other dealers sent them;
for an outer participant that belongs to it, it knows every holder's share of the value at its
index.  Neither kind counts for the other: the constant term is out of its reach as long as it
has fewer inner holders than the inner threshold and fewer outer participants than the outer one.
-/

namespace Frostito

section Hiding

variable {S P : Type} [CurveScalar S] [CurvePoint P S]

/-! ### The draws of a run -/

/-- The generator from which holder `k` draws `draw j k` for coefficient `j`. -/
def interleavedRng (innerN outerT : UInt32) (draw : ℕ → UInt32 → List S) (rest : Rng S) : Rng S :=
  ((List.range outerT.toNat).flatMap fun j => (participants innerN).flatMap (draw j)) ++ₛ rest

/-- Every holder draws one polynomial for each coefficient. -/
def DrawsPolynomials (innerN innerT outerT : UInt32) (draw : ℕ → UInt32 → List S) : Prop :=
  ∀ j k, (draw j k).length
    = if j < outerT.toNat ∧ k ∈ participants innerN then innerT.toNat else 0

/-- The value at `x` of the polynomial that shares coefficient `j`. -/
def coefficientAt (innerN : UInt32) (draw : ℕ → UInt32 → List S) (j : ℕ) (x : S) : S :=
  ((participants innerN).map fun k => Horner.horner x (draw j k)).sum

/-- What holder `k` is left with. -/
def drawnShare (innerN outerT : UInt32) (draw : ℕ → UInt32 → List S) (k : UInt32) : InnerShare S :=
  ⟨k, (List.range outerT.toNat).map fun j => coefficientAt innerN draw j (fromU32 k)⟩

omit [CurveScalar S] in
/-- A body that draws its own stretch of the generator, on every element of a list. -/
lemma exists_mapState_draws {α β ε : Type} (f : α → Rng S → Outcome ε (β × Rng S))
    (stretch : α → List S) {R : α → β → Prop} {xs : List α}
    (h : ∀ x ∈ xs, ∀ rest, ∃ y, f x (stretch x ++ₛ rest) = .ok (y, rest) ∧ R x y) (rest : Rng S) :
    ∃ ys, Outcome.mapState f xs (xs.flatMap stretch ++ₛ rest) = .ok (ys, rest) ∧
      List.Forall₂ R xs ys := by
  induction xs with
  | nil => exact ⟨[], rfl, .nil⟩
  | cons x xs ih =>
    obtain ⟨y, hy, hxy⟩ := h x List.mem_cons_self (xs.flatMap stretch ++ₛ rest)
    obtain ⟨ys, hys, hxys⟩ := ih fun x' hx' => h x' (List.mem_cons_of_mem _ hx')
    refine ⟨y :: ys, ?_, .cons hxy hxys⟩
    rw [Outcome.mapState, List.flatMap_cons, Stream'.append_append_stream, hy, Outcome.ok_bind]
    dsimp only
    rw [hys, Outcome.ok_bind]

variable {innerN innerT outerT : UInt32} {draw draw' : ℕ → UInt32 → List S}

/-- The dealers of one coefficient. -/
lemma exists_newDealers (hdraw : DrawsPolynomials innerN innerT outerT draw) (ht : innerT ≠ 0)
    {j : ℕ} (hj : j < outerT.toNat) (rest : Rng S) :
    ∃ dealers : List (Dkg.Dealer P S),
      newDealers innerN innerT ((participants innerN).flatMap (draw j) ++ₛ rest)
        = .ok (dealers, rest) ∧
      CoefficientDkg.Honest innerN innerT ⟨UInt32.ofNat j, dealers⟩ ∧
      ∀ x : S, (dealers.map fun d => Horner.horner x d.polynomial).sum
        = coefficientAt innerN draw j x := by
  have hnew : ∀ k ∈ participants innerN, ∀ rest : Rng S, ∃ d : Dkg.Dealer P S,
      (.expect (Dkg.Dealer.new k innerT (draw j k ++ₛ rest)) : Outcome Error _) = .ok (d, rest) ∧
        (d.index = k ∧ d.Honest ∧ d.polynomial.length = innerT.toNat ∧
          d.polynomial = draw j k) := by
    intro k hk rest
    have hlen : (draw j k).length = innerT.toNat := by rw [hdraw, if_pos ⟨hj, hk⟩]
    obtain ⟨d, hd, hhonest, hindex, hpoly⟩ :=
      Dkg.Dealer.new_eq_ok (P := P) (mem_participants.mp hk).1 ht (draw j k ++ₛ rest)
    rw [take_drawn_append hlen] at hpoly
    refine ⟨d, ?_, hindex, hhonest, hpoly ▸ hlen, hpoly⟩
    rw [hd, ← hlen, Stream'.drop_append_stream]
    rfl
  obtain ⟨dealers, hrun, hall⟩ := exists_mapState_draws
    (fun k rng => .expect (Dkg.Dealer.new k innerT rng)) (draw j) hnew rest
  refine ⟨dealers, hrun, ⟨?_, fun d hd => ?_, fun d hd => ?_⟩, fun x => ?_⟩
  · rw [← List.forall₂_eq_eq_eq, List.forall₂_map_left_iff]
    exact hall.flip.imp fun d k h => h.1
  · obtain ⟨k, -, -, hhonest, -⟩ := Outcome.exists_of_forall₂ hall.flip hd
    exact hhonest
  · obtain ⟨k, -, -, -, hlen, -⟩ := Outcome.exists_of_forall₂ hall.flip hd
    exact hlen
  · refine congrArg List.sum ?_
    rw [← List.forall₂_eq_eq_eq, List.forall₂_map_left_iff, List.forall₂_map_right_iff]
    exact hall.flip.imp fun d k h => by rw [h.2.2.2]

variable (P) in
/-- The key generation of one coefficient draws the polynomials of its dealers. -/
def newCoefficientDkg (innerN innerT : UInt32) (j : ℕ) (rng : Rng S) :
    Outcome Error (CoefficientDkg P S × Rng S) := do
  let r ← newDealers innerN innerT rng
  .ok (⟨UInt32.ofNat j, r.1⟩, r.2)

/-- **What a run leaves behind, in terms of the draws.** -/
theorem interleavedDkg_interleavedRng (hn : innerN ≠ 0) (ht : innerT ≠ 0)
    (hdraw : DrawsPolynomials innerN innerT outerT draw) (rest : Rng S) :
    interleavedDkg innerN innerT outerT (interleavedRng innerN outerT draw rest)
      = .ok (((participants innerN).map (drawnShare innerN outerT draw),
          (List.range outerT.toNat).map fun j =>
            coefficientAt innerN draw j 0 • (generator : P)), rest) := by
  have hdkg : ∀ j ∈ List.range outerT.toNat, ∀ rest : Rng S, ∃ dkg : CoefficientDkg P S,
      newCoefficientDkg P innerN innerT j ((participants innerN).flatMap (draw j) ++ₛ rest)
        = .ok (dkg, rest) ∧ (dkg.Honest innerN innerT ∧
          ∀ x : S, Horner.horner x (dkg.polynomial innerT) = coefficientAt innerN draw j x) := by
    intro j hj rest
    obtain ⟨dealers, hdealers, hhonest, hvalue⟩ :=
      exists_newDealers (P := P) hdraw ht (List.mem_range.mp hj) rest
    refine ⟨⟨UInt32.ofNat j, dealers⟩, ?_, hhonest, fun x =>
      (hhonest.horner_polynomial x).trans (hvalue x)⟩
    rw [newCoefficientDkg, hdealers, Outcome.ok_bind]
  obtain ⟨dkgs, hrun, hall⟩ := exists_mapState_draws (newCoefficientDkg P innerN innerT)
    (fun j => (participants innerN).flatMap (draw j)) hdkg rest
  have hhonest : ∀ dkg ∈ dkgs, dkg.Honest innerN innerT := by
    intro dkg hmem
    obtain ⟨j, -, hdkg, -⟩ := Outcome.exists_of_forall₂ hall.flip hmem
    exact hdkg
  have hvalues : ∀ x : S, (dkgs.map fun dkg => Horner.horner x (dkg.polynomial innerT))
      = (List.range outerT.toNat).map fun j => coefficientAt innerN draw j x := by
    intro x
    rw [← List.forall₂_eq_eq_eq, List.forall₂_map_left_iff, List.forall₂_map_right_iff]
    exact hall.flip.imp fun dkg j h => h.2 x
  have hcommitments : dkgs.mapM coefficientCommitment = .ok (dkgs.map fun dkg =>
      Horner.horner (0 : S) (dkg.polynomial innerT) • (generator : P)) :=
    Outcome.mapM_eq_ok_map fun dkg hmem => (hhonest dkg hmem).coefficientCommitment_eq
  have hshares : ((participants innerN).mapM fun k => do
      let coefficientShares ← dkgs.mapM (coefficientShare k)
      .ok (⟨k, coefficientShares⟩ : InnerShare S) : Outcome Error _)
      = .ok ((participants innerN).map (drawnShare innerN outerT draw)) := by
    refine Outcome.mapM_eq_ok_map fun k hk => ?_
    rw [Outcome.mapM_eq_ok_map fun dkg hmem =>
      (hhonest dkg hmem).coefficientShare_eq hn (mem_participants.mp hk).1, Outcome.ok_bind,
      hvalues, drawnShare]
  change (Outcome.mapState (newCoefficientDkg P innerN innerT) (List.range outerT.toNat)
    (interleavedRng innerN outerT draw rest) >>= _) = _
  rw [interleavedRng, hrun, Outcome.ok_bind]
  simp only [Outcome.ok_bind, hcommitments, hshares]
  have hkeys := congrArg (List.map fun a => a • (generator : P)) (hvalues 0)
  rw [List.map_map, List.map_map] at hkeys
  exact congrArg (fun keys => Outcome.ok ((_, keys), rest)) hkeys

/-! ### What a coalition sees -/

variable (P) in
/-- What dealer `i` of coefficient `j` sends holder `k`. -/
def sentSubshare (innerT : UInt32) (draw : ℕ → UInt32 → List S) (rest : Rng S) (j : ℕ)
    (i k : UInt32) : Outcome Error (SubShare S) := do
  let (dealer, _) ← Dkg.Dealer.new (P := P) i innerT (draw j i ++ₛ rest)
  dealer.generateSubshare k

variable (P) in
/-- The run with these draws shares this secret. -/
def SharesSecret (innerN innerT outerT : UInt32) (rest : Rng S) (draw : ℕ → UInt32 → List S)
    (secret : S) : Prop :=
  ∃ (shares : List (InnerShare S)) (commitments : List P) (rng : Rng S),
    interleavedDkg innerN innerT outerT (interleavedRng innerN outerT draw rest)
      = .ok ((shares, commitments), rng) ∧
    commitments.head? = some (secret • generator)

variable (P) in
/-- In two runs the coalition sees the same: what its inner holders drew, what every dealer sent
them, and every holder's shares of the values at its outer participants. -/
structure SameRunView (innerN innerT outerT : UInt32) (inner outer : List UInt32) (rest : Rng S)
    (draw draw' : ℕ → UInt32 → List S) : Prop where
  drawn : ∀ j < outerT.toNat, ∀ k ∈ inner, draw j k = draw' j k
  received : ∀ j < outerT.toNat, ∀ k ∈ inner, ∀ i ∈ participants innerN,
    sentSubshare P innerT draw rest j i k = sentSubshare P innerT draw' rest j i k
  evaluated : ∃ (shares shares' : List (InnerShare S)) (commitments commitments' : List P)
    (rng rng' : Rng S),
    interleavedDkg innerN innerT outerT (interleavedRng innerN outerT draw rest)
      = .ok ((shares, commitments), rng) ∧
    interleavedDkg innerN innerT outerT (interleavedRng innerN outerT draw' rest)
      = .ok ((shares', commitments'), rng') ∧
    ∀ q ∈ outer, (shares.map fun share => share.evalAt q) = shares'.map fun share => share.evalAt q

/-- The values that it sees. -/
structure Agree (innerN outerT : UInt32) (inner outer : List UInt32)
    (draw draw' : ℕ → UInt32 → List S) : Prop where
  drawn : ∀ j < outerT.toNat, ∀ k ∈ inner, draw j k = draw' j k
  received : ∀ j < outerT.toNat, ∀ k ∈ inner, ∀ i ∈ participants innerN,
    Horner.horner (fromU32 k : S) (draw j i) = Horner.horner (fromU32 k : S) (draw' j i)
  evaluated : ∀ q ∈ outer, ∀ k ∈ participants innerN,
    (drawnShare innerN outerT draw k).evalAt q = (drawnShare innerN outerT draw' k).evalAt q

lemma sentSubshare_eq (hdraw : DrawsPolynomials innerN innerT outerT draw) (ht : innerT ≠ 0)
    (rest : Rng S) {j : ℕ} (hj : j < outerT.toNat) {i k : UInt32} (hi : i ∈ participants innerN)
    (hk : k ≠ 0) :
    sentSubshare P innerT draw rest j i k
      = .ok ⟨i, k, Horner.horner (fromU32 k : S) (draw j i)⟩ := by
  have hlen : (draw j i).length = innerT.toNat := by rw [hdraw, if_pos ⟨hj, hi⟩]
  obtain ⟨d, hd, hhonest, hindex, hpoly⟩ :=
    Dkg.Dealer.new_eq_ok (P := P) (mem_participants.mp hi).1 ht (draw j i ++ₛ rest)
  rw [take_drawn_append hlen] at hpoly
  rw [sentSubshare, hd, Outcome.ok_bind]
  simp only
  rw [Dkg.Dealer.generateSubshare_eq_ok hhonest.index_ne_zero hk, hindex, hpoly]

lemma sharesSecret_iff [PrimeOrder P] (hn : innerN ≠ 0) (ht : innerT ≠ 0) (hT : outerT ≠ 0)
    (hdraw : DrawsPolynomials innerN innerT outerT draw) (rest : Rng S) (secret : S) :
    SharesSecret P innerN innerT outerT rest draw secret ↔
      coefficientAt innerN draw 0 0 = secret := by
  obtain ⟨m, hm⟩ := Nat.exists_eq_add_one_of_ne_zero (toNat_ne_zero_iff.mpr hT)
  have hrun := interleavedDkg_interleavedRng (P := P) hn ht hdraw rest
  have hhead : ((List.range outerT.toNat).map fun j =>
      coefficientAt innerN draw j 0 • (generator : P)).head?
        = some (coefficientAt innerN draw 0 0 • generator) := by
    rw [hm, List.range_succ_eq_map, List.map_cons, List.head?_cons]
  constructor
  · rintro ⟨shares, commitments, rng, hrun', hhead'⟩
    obtain ⟨hpair, -⟩ := Prod.mk.inj (Outcome.ok.inj (hrun.symm.trans hrun'))
    rw [← (Prod.mk.inj hpair).2, hhead] at hhead'
    exact smul_generator_injective (Option.some.inj hhead')
  · rintro rfl
    exact ⟨_, _, _, hrun, hhead⟩

lemma sameRunView_iff {inner outer : List UInt32} (hn : innerN ≠ 0) (ht : innerT ≠ 0)
    (hsub : inner ⊆ participants innerN) (hdraw : DrawsPolynomials innerN innerT outerT draw)
    (hdraw' : DrawsPolynomials innerN innerT outerT draw') (rest : Rng S) :
    SameRunView P innerN innerT outerT inner outer rest draw draw' ↔
      Agree innerN outerT inner outer draw draw' := by
  have hrun := interleavedDkg_interleavedRng (P := P) hn ht hdraw rest
  have hrun' := interleavedDkg_interleavedRng (P := P) hn ht hdraw' rest
  have hsent : ∀ j < outerT.toNat, ∀ k ∈ inner, ∀ i ∈ participants innerN,
      (sentSubshare P innerT draw rest j i k = sentSubshare P innerT draw' rest j i k ↔
        Horner.horner (fromU32 k : S) (draw j i) = Horner.horner (fromU32 k : S) (draw' j i)) := by
    intro j hj k hk i hi
    have hk0 := (mem_participants.mp (hsub hk)).1
    rw [sentSubshare_eq hdraw ht rest hj hi hk0, sentSubshare_eq hdraw' ht rest hj hi hk0]
    simp
  constructor
  · rintro ⟨hdrawn, hreceived, shares, shares', commitments, commitments', rng, rng', h, h', heval⟩
    refine ⟨hdrawn, fun j hj k hk i hi => (hsent j hj k hk i hi).mp (hreceived j hj k hk i hi),
      fun q hq k hk => ?_⟩
    have hshares := (Prod.mk.inj (Prod.mk.inj (Outcome.ok.inj (hrun.symm.trans h))).1).1
    have hshares' := (Prod.mk.inj (Prod.mk.inj (Outcome.ok.inj (hrun'.symm.trans h'))).1).1
    have heq := heval q hq
    rw [← hshares, ← hshares', List.map_map, List.map_map] at heq
    exact List.map_inj_left.mp heq k hk
  · rintro ⟨hdrawn, hreceived, hevaluated⟩
    refine ⟨hdrawn, fun j hj k hk i hi => (hsent j hj k hk i hi).mpr (hreceived j hj k hk i hi),
      _, _, _, _, _, _, hrun, hrun', fun q hq => ?_⟩
    rw [List.map_map, List.map_map]
    exact List.map_congr_left fun k hk => hevaluated q hq k hk

/-! ### An authorised coalition -/

omit [CurvePoint P S] in
/-- The polynomial that shares coefficient `j` has as many coefficients as the inner threshold. -/
lemma horner_combine_draw (hdraw : DrawsPolynomials innerN innerT outerT draw) {j : ℕ}
    (hj : j < outerT.toNat) (x : S) :
    Horner.horner x (Horner.combine innerT.toNat (participants innerN) (fun _ => (1 : S)) (draw j))
      = coefficientAt innerN draw j x := by
  rw [Horner.horner_combine _ _ _ _ _ fun k hk => by rw [hdraw, if_pos ⟨hj, hk⟩]]
  simp only [one_smul, coefficientAt]

section Determined

variable {inner outer ks : List UInt32}
  (hinj : Function.Injective (fromU32 : UInt32 → S)) (hT : outerT ≠ 0)
  (hdraw : DrawsPolynomials innerN innerT outerT draw)
  (hdraw' : DrawsPolynomials innerN innerT outerT draw')
include hinj hT

omit [CurvePoint P S] in
include hdraw hdraw' in
/-- Enough shares of the first coefficient determine it. -/
lemma coefficientAt_zero_eq (hnd : ks.Nodup) (hlen : innerT.toNat ≤ ks.length)
    (h : ∀ k ∈ ks, coefficientAt innerN draw 0 (fromU32 k)
      = coefficientAt innerN draw' 0 (fromU32 k)) :
    coefficientAt innerN draw 0 0 = coefficientAt innerN draw' 0 0 := by
  have hpos := Nat.pos_of_ne_zero (toNat_ne_zero_iff.mpr hT)
  have hcount : ∀ draw : ℕ → UInt32 → List S,
      (Horner.combine innerT.toNat (participants innerN) (fun _ => (1 : S)) (draw 0)).length
        ≤ (ks.map (fromU32 : UInt32 → S)).length := by
    intro draw
    rwa [Horner.length_combine, List.length_map]
  have hhead := Interpolation.headD_eq_of_horner_eq (hnd.map hinj) (hcount draw) (hcount draw') <|
    List.forall_mem_map.mpr fun k hk => by
      rw [horner_combine_draw hdraw hpos, horner_combine_draw hdraw' hpos, h k hk]
  rwa [← Horner.horner_zero (R := S), ← Horner.horner_zero (R := S), horner_combine_draw hdraw hpos,
    horner_combine_draw hdraw' hpos] at hhead

omit [CurvePoint P S] in
/-- The values at enough outer participants determine a holder's share of the first
coefficient. -/
lemma coefficientAt_eq_of_evalAt (hnd : outer.Nodup) (hlen : outerT.toNat ≤ outer.length)
    {k : UInt32} (h : ∀ q ∈ outer, (drawnShare innerN outerT draw k).evalAt q
      = (drawnShare innerN outerT draw' k).evalAt q) :
    coefficientAt innerN draw 0 (fromU32 k) = coefficientAt innerN draw' 0 (fromU32 k) := by
  obtain ⟨m, hm⟩ := Nat.exists_eq_add_one_of_ne_zero (toNat_ne_zero_iff.mpr hT)
  have hcount : ∀ draw : ℕ → UInt32 → List S,
      (drawnShare innerN outerT draw k).coefficientShares.length
        ≤ (outer.map (fromU32 : UInt32 → S)).length := by
    intro draw
    rwa [drawnShare, List.length_map, List.length_range, List.length_map]
  have hfirst : ∀ draw : ℕ → UInt32 → List S,
      (drawnShare innerN outerT draw k).coefficientShares.headD 0
        = coefficientAt innerN draw 0 (fromU32 k) := by
    intro draw
    rw [drawnShare, hm, List.range_succ_eq_map, List.map_cons, List.headD_cons]
  rw [← hfirst draw, ← hfirst draw']
  refine Interpolation.headD_eq_of_horner_eq (hnd.map hinj) (hcount draw) (hcount draw') ?_
  refine List.forall_mem_map.mpr fun q hq => ?_
  rw [← evalPowers_eq_horner, ← evalPowers_eq_horner]
  exact h q hq

omit [CurvePoint P S] in
include hdraw hdraw' in
/-- Enough of either kind determine the secret. -/
lemma Agree.coefficientAt_eq (h : Agree innerN outerT inner outer draw draw')
    (hn : innerT ≤ innerN) (hinner : inner.Nodup) (houter : outer.Nodup)
    (hmany : innerT.toNat ≤ inner.length ∨ outerT.toNat ≤ outer.length) :
    coefficientAt innerN draw 0 0 = coefficientAt innerN draw' 0 0 := by
  rcases hmany with hmany | hmany
  · refine coefficientAt_zero_eq hinj hT hdraw hdraw' hinner hmany fun k hk => ?_
    refine congrArg List.sum (List.map_congr_left fun i hi => ?_)
    exact h.received 0 (Nat.pos_of_ne_zero (toNat_ne_zero_iff.mpr hT)) k hk i hi
  · refine coefficientAt_zero_eq hinj hT hdraw hdraw' (nodup_participants innerN) ?_ fun k hk => ?_
    · rw [length_participants]
      exact UInt32.le_iff_toNat_le.mp hn
    · exact coefficientAt_eq_of_evalAt hinj hT houter hmany fun q hq => h.evaluated q hq k hk

end Determined

/-! ### Shifting the draws of one holder -/

/-- The draws with `c_j` times the polynomial `delta` added to what holder `i` draws for
coefficient `j`. -/
def shiftDraws (outerT i : UInt32) (delta c : List S) (draw : ℕ → UInt32 → List S) :
    ℕ → UInt32 → List S := fun j k =>
  if j < outerT.toNat ∧ k = i then Layered.add (draw j k) (delta.map (c.getD j 0 * ·)) else draw j k

section Shift

variable {i : UInt32} {delta c : List S} (hdraw : DrawsPolynomials innerN innerT outerT draw)
  (hi : i ∈ participants innerN) (hdelta : delta.length = innerT.toNat)
include hdraw hi hdelta

omit [CurvePoint P S] in
lemma length_delta_eq {j : ℕ} (hj : j < outerT.toNat) (a : S) :
    (delta.map (a * ·)).length = (draw j i).length := by
  rw [List.length_map, hdelta, hdraw, if_pos ⟨hj, hi⟩]

omit [CurvePoint P S] in
lemma drawsPolynomials_shiftDraws :
    DrawsPolynomials innerN innerT outerT (shiftDraws outerT i delta c draw) := by
  intro j k
  rw [shiftDraws, ← hdraw j k]
  split
  · next h =>
    obtain ⟨hj, rfl⟩ := h
    exact Layered.length_add (length_delta_eq hdraw hi hdelta hj _)
  · rfl

omit [CurvePoint P S] in
/-- What a shift adds to the values of what is drawn. -/
lemma horner_shiftDraws {j : ℕ} (hj : j < outerT.toNat) (k : UInt32) (x : S) :
    Horner.horner x (shiftDraws outerT i delta c draw j k) = Horner.horner x (draw j k)
      + if k = i then c.getD j 0 * Horner.horner x delta else 0 := by
  rw [shiftDraws]
  by_cases hk : k = i
  · subst hk
    rw [if_pos ⟨hj, rfl⟩, if_pos rfl, Layered.horner_add x (length_delta_eq hdraw hi hdelta hj _)]
    exact congrArg _ (Horner.horner_map (LinearMap.mulLeft S (c.getD j 0)) x delta)
  · rw [if_neg fun h => hk h.2, if_neg hk, add_zero]

omit [CurvePoint P S] in
/-- What a shift adds to the values of a coefficient's polynomial. -/
lemma coefficientAt_shiftDraws {j : ℕ} (hj : j < outerT.toNat) (x : S) :
    coefficientAt innerN (shiftDraws outerT i delta c draw) j x
      = coefficientAt innerN draw j x + c.getD j 0 * Horner.horner x delta := by
  simp only [coefficientAt, horner_shiftDraws hdraw hi hdelta hj]
  rw [List.sum_map_add, List.sum_map_eq_nsmul_single i _ fun k hk _ => if_neg hk,
    List.count_eq_one_of_mem (nodup_participants innerN) hi, one_smul, if_pos rfl]

omit [CurvePoint P S] in
/-- What a shift adds to a holder's share of the value at `q`. -/
lemma evalAt_shiftDraws (hc : c.length = outerT.toNat) (k q : UInt32) :
    (drawnShare innerN outerT (shiftDraws outerT i delta c draw) k).evalAt q
      = (drawnShare innerN outerT draw k).evalAt q
        + Horner.horner (fromU32 k : S) delta * Horner.horner (fromU32 q : S) c := by
  have hsum : (drawnShare innerN outerT (shiftDraws outerT i delta c draw) k).coefficientShares
      = Layered.add (drawnShare innerN outerT draw k).coefficientShares
        (c.map (Horner.horner (fromU32 k : S) delta * ·)) := by
    refine List.ext_getElem (by simp [drawnShare, Layered.add, hc]) fun j hj hj' => ?_
    have hlt : j < outerT.toNat := by simpa [drawnShare] using hj
    simp only [drawnShare, Layered.add, List.getElem_map, List.getElem_range, List.getElem_zipWith]
    rw [coefficientAt_shiftDraws hdraw hi hdelta hlt, List.getD_eq_getElem c 0 (hc ▸ hlt), mul_comm]
  have hlen : (c.map (Horner.horner (fromU32 k : S) delta * ·)).length
      = (drawnShare innerN outerT draw k).coefficientShares.length := by
    rw [List.length_map, hc, drawnShare, List.length_map, List.length_range]
  rw [InnerShare.evalAt, InnerShare.evalAt, evalPowers_eq_horner, evalPowers_eq_horner, hsum,
    Layered.horner_add _ hlen]
  exact congrArg _
    (Horner.horner_map (LinearMap.mulLeft S (Horner.horner (fromU32 k : S) delta)) _ c)

omit [CurvePoint P S] in
/-- A shift by polynomials that vanish where the coalition looks. -/
lemma Agree.shiftDraws {inner outer : List UInt32} {seen : ℕ → UInt32 → List S}
    (h : Agree innerN outerT inner outer seen draw) (hfree : i ∉ inner)
    (hc : c.length = outerT.toNat)
    (hdelta0 : ∀ k ∈ inner, Horner.horner (fromU32 k : S) delta = 0)
    (hc0 : ∀ q ∈ outer, Horner.horner (fromU32 q : S) c = 0) :
    Agree innerN outerT inner outer seen (shiftDraws outerT i delta c draw) := by
  refine ⟨fun j hj k hk => ?_, fun j hj k hk d hd => ?_, fun q hq k hk => ?_⟩
  · rw [h.drawn j hj k hk, Frostito.shiftDraws, if_neg]
    rintro ⟨-, rfl⟩
    exact hfree hk
  · rw [h.received j hj k hk d hd, horner_shiftDraws hdraw hi hdelta hj, hdelta0 k hk, mul_zero,
      ite_self, add_zero]
  · rw [h.evaluated q hq k hk, evalAt_shiftDraws hdraw hi hdelta hc, hc0 q hq, mul_zero, add_zero]

end Shift

omit [CurvePoint P S] in
/-- A shift of what one holder draws can be taken back. -/
lemma eq_of_shiftDraws_eq {i : UInt32} {delta c : List S}
    (hdraw : DrawsPolynomials innerN innerT outerT draw)
    (hdraw' : DrawsPolynomials innerN innerT outerT draw') (hi : i ∈ participants innerN)
    (hdelta : delta.length = innerT.toNat)
    (h : shiftDraws outerT i delta c draw = shiftDraws outerT i delta c draw') : draw = draw' := by
  funext j k
  have heq := congrFun (congrFun h j) k
  simp only [shiftDraws] at heq
  split at heq
  · next hjk =>
    obtain ⟨hj, rfl⟩ := hjk
    exact Layered.add_right_cancel (length_delta_eq hdraw hi hdelta hj _)
      (length_delta_eq hdraw' hi hdelta hj _) heq
  · exact heq

/-! ### The two thresholds -/

variable (P) in
/-- What the holders may have drawn when the secret is this one and the coalition sees what it
sees of the run with the draws `seen`. -/
def interleavedDraws (innerN innerT outerT : UInt32) (inner outer : List UInt32) (rest : Rng S)
    (seen : ℕ → UInt32 → List S) (secret : S) : Set (ℕ → UInt32 → List S) :=
  {draw | DrawsPolynomials innerN innerT outerT draw ∧
    SameRunView P innerN innerT outerT inner outer rest seen draw ∧
    SharesSecret P innerN innerT outerT rest draw secret}

section Exact

variable {inner outer : List UInt32} {seen : ℕ → UInt32 → List S}

/-- A coalition with too few of both kinds can be shown any secret. -/
lemma nonempty_interleavedDraws_embedding [PrimeOrder P] (hn : innerT ≤ innerN) (ht : innerT ≠ 0)
    (hT : outerT ≠ 0) (hinner : inner.Nodup) (hsub : inner ⊆ participants innerN)
    (houter : outer.Nodup) (h0 : 0 ∉ outer)
    (hseen : DrawsPolynomials innerN innerT outerT seen) (hfew : inner.length < innerT.toNat)
    (hfew' : outer.length < outerT.toNat) (rest : Rng S) (secret secret' : S) :
    Nonempty (interleavedDraws P innerN innerT outerT inner outer rest seen secret ↪
      interleavedDraws P innerN innerT outerT inner outer rest seen secret') := by
  have hinj := fromU32_injective P
  have hle := UInt32.le_iff_toNat_le.mp hn
  have hn0 : innerN ≠ 0 := toNat_ne_zero_iff.mp (by omega)
  -- some holder does not belong to the coalition
  obtain ⟨i, hi, hfree⟩ : ∃ i ∈ participants innerN, i ∉ inner := by
    by_contra! hall
    have hlength := (List.subperm_of_subset (nodup_participants innerN) hall).length_le
    rw [length_participants] at hlength
    omega
  have hinner0 : (0 : S) ∉ inner.map fromU32 := zero_notMem_map_fromU32 hinj fun hmem =>
    (mem_participants.mp (hsub hmem)).1 rfl
  obtain ⟨tail, htail, hzero⟩ := Layered.exists_horner_eq_zero (hinner.map hinj) hinner0 (1 : S)
    (show _ ≤ innerT.toNat - 1 by rw [List.length_map]; omega)
  obtain ⟨tail', htail', hzero'⟩ := Layered.exists_horner_eq_zero (houter.map hinj)
    (zero_notMem_map_fromU32 hinj h0) (secret' - secret)
    (show _ ≤ outerT.toNat - 1 by rw [List.length_map]; omega)
  have hdelta : ((1 : S) :: tail).length = innerT.toNat := by
    rw [List.length_cons, htail]
    omega
  have hc : ((secret' - secret) :: tail').length = outerT.toNat := by
    rw [List.length_cons, htail']
    omega
  refine ⟨fun draw => ⟨shiftDraws outerT i (1 :: tail) ((secret' - secret) :: tail') draw.1, ?_⟩,
    fun draw draw' heq => ?_⟩
  · obtain ⟨draw, hdraw, hview, hsecret⟩ := draw
    have hshifted := drawsPolynomials_shiftDraws (c := (secret' - secret) :: tail') hdraw hi hdelta
    rw [sameRunView_iff hn0 ht hsub hseen hdraw] at hview
    rw [sharesSecret_iff hn0 ht hT hdraw] at hsecret
    refine ⟨hshifted, (sameRunView_iff hn0 ht hsub hseen hshifted rest).mpr ?_,
      (sharesSecret_iff hn0 ht hT hshifted rest secret').mpr ?_⟩
    · exact hview.shiftDraws hdraw hi hdelta hfree hc (List.forall_mem_map.mp hzero)
        (List.forall_mem_map.mp hzero')
    · rw [coefficientAt_shiftDraws hdraw hi hdelta
        (Nat.pos_of_ne_zero (toNat_ne_zero_iff.mpr hT)), hsecret, Horner.horner_zero]
      simp
  · exact Subtype.ext (eq_of_shiftDraws_eq draw.2.1 draw'.2.1 hi hdelta (Subtype.mk.inj heq))

/-- **Who learns the polynomial of the nested position.**  As many inner holders as the inner
threshold, or as many outer participants as the outer one, determine the secret of the run.  A
coalition with fewer of both learns nothing of it: every secret has as many draws of the holders
as every other under which it sees the same. -/
theorem interleaved_access_exact [PrimeOrder P] (hn : innerT ≤ innerN) (ht : innerT ≠ 0)
    (hT : outerT ≠ 0) (hinner : inner.Nodup) (hsub : inner ⊆ participants innerN)
    (houter : outer.Nodup) (h0 : 0 ∉ outer)
    (hseen : DrawsPolynomials innerN innerT outerT seen) (rest : Rng S) :
    (innerT.toNat ≤ inner.length ∨ outerT.toNat ≤ outer.length → ∀ secret secret',
      SharesSecret P innerN innerT outerT rest seen secret →
      (interleavedDraws P innerN innerT outerT inner outer rest seen secret').Nonempty →
        secret = secret') ∧
    (inner.length < innerT.toNat → outer.length < outerT.toNat → ∀ secret secret',
      Nonempty (interleavedDraws P innerN innerT outerT inner outer rest seen secret ≃
        interleavedDraws P innerN innerT outerT inner outer rest seen secret')) := by
  have hinj := fromU32_injective P
  have hn0 : innerN ≠ 0 := by
    rintro rfl
    exact ht (UInt32.le_zero_iff.mp hn)
  constructor
  · rintro hmany secret secret' hsecret ⟨draw, hdraw, hview, hsecret'⟩
    rw [sharesSecret_iff hn0 ht hT hseen] at hsecret
    rw [sharesSecret_iff hn0 ht hT hdraw] at hsecret'
    rw [sameRunView_iff hn0 ht hsub hseen hdraw] at hview
    rw [← hsecret, ← hsecret',
      hview.coefficientAt_eq hinj hT hseen hdraw hn hinner houter hmany]
  · intro hfew hfew' secret secret'
    obtain ⟨f⟩ := nonempty_interleavedDraws_embedding (P := P) hn ht hT hinner hsub houter h0 hseen
      hfew hfew' rest secret secret'
    obtain ⟨g⟩ := nonempty_interleavedDraws_embedding (P := P) hn ht hT hinner hsub houter h0 hseen
      hfew hfew' rest secret' secret
    exact Function.Embedding.antisymm f g

end Exact

end Hiding

section Two

open Reference

/-- Two holders draw polynomials of two coefficients, for the two coefficients of the outer one. -/
def someDraws : ℕ → UInt32 → List Residue := fun j k =>
  if j < (2 : UInt32).toNat ∧ k ∈ participants 2 then [1, 1] else []

lemma drawsPolynomials_someDraws : DrawsPolynomials 2 2 2 someDraws := by
  intro j k
  rw [someDraws]
  split
  · rfl
  · rfl

/-- One holder and one outer participant learn nothing, both holders know the secret. -/
theorem interleaved_access_exact_two :
    (∀ secret secret' : Residue,
      Nonempty (interleavedDraws Residue 2 2 2 [1] [3] (.const 0) someDraws secret ≃
        interleavedDraws Residue 2 2 2 [1] [3] (.const 0) someDraws secret')) ∧
    ∀ secret secret' : Residue, SharesSecret Residue 2 2 2 (.const 0) someDraws secret →
      (interleavedDraws Residue 2 2 2 [1, 2] [] (.const 0) someDraws secret').Nonempty →
        secret = secret' :=
  ⟨(interleaved_access_exact (by decide) (by decide) (by decide) (by decide) (by decide)
      (by decide) (by decide) drawsPolynomials_someDraws _).2 (by decide) (by decide),
    (interleaved_access_exact (by decide) (by decide) (by decide) (by decide) (by decide)
      (by decide) (by decide) drawsPolynomials_someDraws _).1 (.inl (by decide))⟩

end Two

end Frostito
