import Frostito.Lib.Interpolation

/-!
# A value that is shared again

A polynomial shares a secret among outer parties, and its value at one more point is the constant
term of a second polynomial, which shares it among inner parties.  A coalition of both kinds
determines the secret when its outer parties, with the shared value counted as one more if enough
inner parties belong to it, are as many as the outer threshold.  Otherwise the draws can be
shifted: any other secret has as many choices of them under which the coalition sees the same.
-/

namespace Layered

open Horner

variable {F : Type*} [Field F]

/-- What a coalition sees of the polynomial `f`, and of its value at `p`, which is shared with
the further coefficients `tail`. -/
structure Sees (p : F) (outer inner : List (F × F)) (f tail : List F) : Prop where
  outer_eq : ∀ q ∈ outer, horner q.1 f = q.2
  inner_eq : ∀ q ∈ inner, horner q.1 (horner p f :: tail) = q.2

/-- The coalition is large enough for the thresholds. -/
def Authorised (outerThreshold innerThreshold outer inner : ℕ) : Prop :=
  outerThreshold ≤ outer + if innerThreshold ≤ inner then 1 else 0

instance (outerThreshold innerThreshold outer inner : ℕ) :
    Decidable (Authorised outerThreshold innerThreshold outer inner) :=
  inferInstanceAs (Decidable (_ ≤ _))

section Determined

variable [DecidableEq F] {p : F} {outer inner : List (F × F)} {f f' tail tail' : List F}

/-- Enough inner parties know the value that was shared again. -/
lemma Sees.horner_eq (h : Sees p outer inner f tail) (h' : Sees p outer inner f' tail')
    (hnd : (inner.map Prod.fst).Nodup) (hlen : tail.length < inner.length)
    (hlen' : tail'.length < inner.length) : horner p f = horner p f' := by
  have hcount : ∀ {v : F} {cs : List F}, cs.length < inner.length →
      (v :: cs).length ≤ (inner.map Prod.fst).length := by
    intro v cs hcs
    rwa [List.length_cons, List.length_map]
  have hvalues : ∀ x ∈ inner.map Prod.fst,
      horner x (horner p f :: tail) = horner x (horner p f' :: tail') :=
    List.forall_mem_map.mpr fun q hq => (h.inner_eq q hq).trans (h'.inner_eq q hq).symm
  exact Interpolation.headD_eq_of_horner_eq hnd (hcount hlen) (hcount hlen') hvalues

/-- **An authorised coalition determines the secret.** -/
theorem Sees.headD_eq (h : Sees p outer inner f tail) (h' : Sees p outer inner f' tail')
    {t : ℕ} (hnd : (p :: outer.map Prod.fst).Nodup) (hnd' : (inner.map Prod.fst).Nodup)
    (hf : f.length = f'.length) (htail : tail.length < t) (htail' : tail'.length < t)
    (hauthorised : Authorised f.length t outer.length inner.length) :
    f.headD 0 = f'.headD 0 := by
  have houter : ∀ x ∈ outer.map Prod.fst, horner x f = horner x f' :=
    List.forall_mem_map.mpr fun q hq => (h.outer_eq q hq).trans (h'.outer_eq q hq).symm
  rw [Authorised] at hauthorised
  split at hauthorised
  · next hinner =>
    have hvalue : horner p f = horner p f' :=
      h.horner_eq h' hnd' (htail.trans_le hinner) (htail'.trans_le hinner)
    have hlen : f.length ≤ (p :: outer.map Prod.fst).length := by simpa using hauthorised
    exact Interpolation.headD_eq_of_horner_eq hnd hlen (hf ▸ hlen)
      (List.forall_mem_cons.mpr ⟨hvalue, houter⟩)
  · have hlen : f.length ≤ (outer.map Prod.fst).length := by simpa using hauthorised
    exact Interpolation.headD_eq_of_horner_eq (List.nodup_cons.mp hnd).2 hlen (hf ▸ hlen) houter

end Determined

/-! ### Shifting the draws -/

/-- Coefficientwise sum. -/
def add (as bs : List F) : List F := List.zipWith (· + ·) as bs

lemma length_add {as bs : List F} (h : bs.length = as.length) : (add as bs).length = as.length := by
  rw [add, List.length_zipWith, h, min_self]

lemma horner_add (x : F) {as bs : List F} (h : bs.length = as.length) :
    horner x (add as bs) = horner x as + horner x bs := by
  induction as generalizing bs with
  | nil =>
    obtain rfl := List.length_eq_zero_iff.mp h
    exact (add_zero _).symm
  | cons a as ih =>
    obtain ⟨b, bs, rfl⟩ := List.exists_cons_of_length_eq_add_one h
    have hlen : bs.length = as.length := by simpa using h
    rw [add, List.zipWith_cons_cons, horner_cons, horner_cons, horner_cons, ← add, ih hlen,
      smul_add]
    ring

lemma headD_add {as bs : List F} (h : bs.length = as.length) :
    (add as bs).headD 0 = as.headD 0 + bs.headD 0 := by
  have hzero := horner_add (0 : F) h
  rwa [horner_zero, horner_zero, horner_zero] at hzero

/-- Different lists stay different when they are shifted. -/
lemma add_right_cancel {as as' bs : List F} (h : bs.length = as.length)
    (h' : bs.length = as'.length) (heq : add as bs = add as' bs) : as = as' := by
  refine List.ext_getElem (h.symm.trans h') fun k hk hk' => ?_
  have hget := List.getElem_of_eq heq (by rwa [length_add h])
  simpa [add] using hget

/-- A sharing of the secret `s` that is zero at the points, with room for `n` coefficients. -/
lemma exists_horner_eq_zero {xs : List F} (hnd : xs.Nodup) (h0 : 0 ∉ xs) (s : F) {n : ℕ}
    (hn : xs.length ≤ n) :
    ∃ cs : List F, cs.length = n ∧ ∀ x ∈ xs, horner x (s :: cs) = 0 := by
  have hpoints : (xs.map fun x => (x, (0 : F))).map Prod.fst = xs := by
    rw [List.map_map, Function.comp_def, List.map_id']
  obtain ⟨cs, ⟨hlen, hcs⟩, -⟩ :=
    Interpolation.existsUnique_horner_cons (by rwa [hpoints]) (by rwa [hpoints]) s
  have hpadded : ∀ (x : F) (as : List F) (m : ℕ),
      horner x (as ++ List.replicate m 0) = horner x as := by
    intro x as m
    induction as with
    | nil => exact horner_replicate_zero x m
    | cons a as ih => rw [List.cons_append, horner_cons, horner_cons, ih]
  refine ⟨cs ++ List.replicate (n - xs.length) 0, ?_, fun x hx => ?_⟩
  · rw [List.length_append, List.length_replicate, hlen, List.length_map]
    omega
  · rw [← List.cons_append, hpadded]
    exact hcs (x, 0) (List.mem_map_of_mem hx)

/-- A pair of polynomials that no member of the coalition sees. -/
structure Hidden (p : F) (outer inner : List (F × F)) (f tail : List F) : Prop where
  outer_eq : ∀ q ∈ outer, horner q.1 f = 0
  inner_eq : ∀ q ∈ inner, horner q.1 (horner p f :: tail) = 0

variable {p : F} {outer inner : List (F × F)}

/-- A coalition that is not authorised can be shown any secret. -/
lemma exists_hidden {outerThreshold innerThreshold : ℕ}
    (hnd : (p :: outer.map Prod.fst).Nodup) (h0 : 0 ∉ p :: outer.map Prod.fst)
    (hnd' : (inner.map Prod.fst).Nodup) (h0' : 0 ∉ inner.map Prod.fst)
    (hnot : ¬Authorised outerThreshold innerThreshold outer.length inner.length) (s : F) :
    ∃ f tail : List F, f.length = outerThreshold ∧ tail.length = innerThreshold - 1 ∧
      f.headD 0 = s ∧ Hidden p outer inner f tail := by
  have houter0 : 0 ∉ outer.map Prod.fst := fun hmem => h0 (List.mem_cons_of_mem _ hmem)
  rw [Authorised] at hnot
  split at hnot
  · -- the inner parties know the value, so it stays as it was
    obtain ⟨cs, hlen, hzero⟩ := exists_horner_eq_zero hnd h0 s
      (show _ ≤ outerThreshold - 1 by rw [List.length_cons, List.length_map]; omega)
    rw [List.forall_mem_cons, List.forall_mem_map] at hzero
    refine ⟨s :: cs, List.replicate (innerThreshold - 1) 0, ?_, List.length_replicate, rfl,
      hzero.2, fun q _ => ?_⟩
    · rw [List.length_cons, hlen]
      omega
    · rw [horner_cons, hzero.1, horner_replicate_zero, smul_zero, add_zero]
  · next hinner =>
    obtain ⟨cs, hlen, hzero⟩ := exists_horner_eq_zero (List.nodup_cons.mp hnd).2 houter0 s
      (show _ ≤ outerThreshold - 1 by rw [List.length_map]; omega)
    obtain ⟨tail, hlen', hzero'⟩ := exists_horner_eq_zero hnd' h0' (horner p (s :: cs))
      (show _ ≤ innerThreshold - 1 by rw [List.length_map]; omega)
    refine ⟨s :: cs, tail, ?_, hlen', rfl, List.forall_mem_map.mp hzero,
      List.forall_mem_map.mp hzero'⟩
    rw [List.length_cons, hlen]
    omega

/-- A hidden shift leaves what is seen as it was. -/
lemma Hidden.sees {f tail shift tailShift : List F} (h : Hidden p outer inner shift tailShift)
    (hf : shift.length = f.length) (htail : tailShift.length = tail.length)
    (hsees : Sees p outer inner f tail) :
    Sees p outer inner (add f shift) (add tail tailShift) := by
  refine ⟨fun q hq => ?_, fun q hq => ?_⟩
  · rw [horner_add _ hf, h.outer_eq q hq, add_zero, hsees.outer_eq q hq]
  · have hcons : horner p (add f shift) :: add tail tailShift
        = add (horner p f :: tail) (horner p shift :: tailShift) := by
      rw [horner_add _ hf]
      rfl
    rw [hcons, horner_add _ (by rw [List.length_cons, List.length_cons, htail]), h.inner_eq q hq,
      add_zero, hsees.inner_eq q hq]

/-- The choices of draws under which the coalition sees what it sees of the sharing of `s`. -/
def Draws (p : F) (outer inner : List (F × F)) (outerThreshold innerThreshold : ℕ) (s : F) :
    Set (List F × List F) :=
  {d | d.1.length = outerThreshold ∧ d.2.length = innerThreshold - 1 ∧ d.1.headD 0 = s ∧
    Sees p outer inner d.1 d.2}

variable {outerThreshold innerThreshold : ℕ} (hnd : (p :: outer.map Prod.fst).Nodup)
  (h0 : 0 ∉ p :: outer.map Prod.fst) (hnd' : (inner.map Prod.fst).Nodup)
  (h0' : 0 ∉ inner.map Prod.fst)
  (hnot : ¬Authorised outerThreshold innerThreshold outer.length inner.length)
include hnd h0 hnd' h0' hnot

/-- Shifting the draws turns sharings of one secret into sharings of another. -/
lemma nonempty_draws_embedding (s s' : F) :
    Nonempty (Draws p outer inner outerThreshold innerThreshold s ↪
      Draws p outer inner outerThreshold innerThreshold s') := by
  obtain ⟨shift, tailShift, hlen, hlen', hhead, hhidden⟩ :=
    exists_hidden hnd h0 hnd' h0' hnot (s' - s)
  refine ⟨fun d => ⟨(add d.1.1 shift, add d.1.2 tailShift), ?_⟩, ?_⟩
  · obtain ⟨⟨f, tail⟩, hf, htail, hs, hsees⟩ := d
    have hf' := hlen.trans hf.symm
    have htail' := hlen'.trans htail.symm
    refine ⟨(length_add hf').trans hf, (length_add htail').trans htail, ?_,
      hhidden.sees hf' htail' hsees⟩
    rw [headD_add hf', hhead, hs, add_sub_cancel]
  · rintro ⟨⟨f₁, tail₁⟩, hf₁, htail₁, _⟩ ⟨⟨f₂, tail₂⟩, hf₂, htail₂, _⟩ heq
    obtain ⟨hf, htail⟩ := Prod.mk.inj (Subtype.mk.inj heq)
    refine Subtype.ext (Prod.ext ?_ ?_)
    · exact add_right_cancel (hlen.trans hf₁.symm) (hlen.trans hf₂.symm) hf
    · exact add_right_cancel (hlen'.trans htail₁.symm) (hlen'.trans htail₂.symm) htail

/-- **A coalition that is not authorised learns nothing**: every secret has as many draws under
which it sees the same. -/
theorem nonempty_draws_equiv (s s' : F) :
    Nonempty (Draws p outer inner outerThreshold innerThreshold s ≃
      Draws p outer inner outerThreshold innerThreshold s') := by
  obtain ⟨f⟩ := nonempty_draws_embedding hnd h0 hnd' h0' hnot s s'
  obtain ⟨g⟩ := nonempty_draws_embedding hnd h0 hnd' h0' hnot s' s
  exact Function.Embedding.antisymm f g

end Layered
