import Frostito.Lib.Interpolation

/-!
# Verifiable sharings in the exponent

A sharing is known to the public only through its coefficients in a group: a list `cs` of
group elements, the first of which is the public key.  A scalar is the share at a point
when its multiple of the base is the value of the sharing there.  Sharings of one length
combine coefficientwise, and their shares combine with the same weights; enough shares of
one sharing, or enough sharings of its shares, interpolate to its key.
-/

namespace Sharing

open Horner Interpolation

variable {F M ι : Type*} [Field F] [AddCommGroup M] [Module F M]

/-- `s` is the share at the point `x` of the sharing with the coefficients `cs`. -/
def IsShare (g : M) (cs : List M) (x s : F) : Prop := s • g = horner x cs

instance [DecidableEq M] (g : M) (cs : List M) (x s : F) : Decidable (IsShare g cs x s) :=
  inferInstanceAs (Decidable (s • g = horner x cs))

variable {g : M} {x : F}

/-- The value of a scalar polynomial is a share of the sharing it commits to. -/
lemma isShare_map_smul (x : F) (as : List F) :
    IsShare g (as.map fun a => a • g) x (horner x as) := (horner_map_smul g x as).symm

/-- Shares combine as the sharings do. -/
theorem IsShare.combine {t : ℕ} {D : List ι} {w s : ι → F} {c : ι → List M}
    (hc : ∀ d ∈ D, (c d).length ≤ t) (h : ∀ d ∈ D, IsShare g (c d) x (s d)) :
    IsShare g (Horner.combine t D w c) x (D.map fun d => w d * s d).sum := by
  rw [IsShare, horner_combine t D w c x hc, List.sum_smul, List.map_map]
  congr 1
  refine List.map_congr_left fun d hd => ?_
  rw [← h d hd, Function.comp_apply, mul_smul]

/-- The key of a combination is the combination of the keys. -/
lemma headD_combine {t : ℕ} (ht : 0 < t) (D : List ι) (w : ι → F) (c : ι → List M) :
    (Horner.combine t D w c).headD 0 = (D.map fun d => w d • (c d).headD 0).sum := by
  have hhead : ∀ cs : List M, cs.headD 0 = cs.getD 0 0 := by
    intro cs
    cases cs <;> rfl
  rw [hhead, getD_combine t D w c ht]
  simp only [hhead]

/-! ### Parties with their points -/

variable [DecidableEq F] {parties : List ι} {point : ι → F}

/-- The weight of a party's point when the points of all parties are interpolated at
zero. -/
def partyWeight (parties : List ι) (point : ι → F) (i : ι) : F :=
  weight (parties.map point).toFinset (point i)

/-- As many shares as there are coefficients interpolate to the key. -/
theorem reconstruct (hnd : (parties.map point).Nodup) {cs : List M}
    (hlen : cs.length ≤ parties.length) {s : ι → F}
    (h : ∀ i ∈ parties, IsShare g cs (point i) (s i)) :
    (parties.map fun i => partyWeight parties point i * s i).sum • g = cs.headD 0 := by
  rw [← list_sum_weight_smul_horner hnd (by simpa using hlen), List.sum_smul, List.map_map,
    List.map_map]
  congr 1
  refine List.map_congr_left fun i hi => ?_
  rw [Function.comp_apply, Function.comp_apply, mul_smul, h i hi]
  rfl

/-- Sharings of the shares of a sharing, one by each of enough parties, combine to a sharing
of the same key. -/
theorem headD_reshare {t : ℕ} (ht : 0 < t) (hnd : (parties.map point).Nodup) {old : List M}
    (hlen : old.length ≤ parties.length) {c : ι → List M}
    (hkey : ∀ i ∈ parties, (c i).headD 0 = horner (point i) old) :
    (Horner.combine t parties (partyWeight parties point) c).headD 0 = old.headD 0 := by
  rw [headD_combine ht, ← list_sum_weight_smul_horner hnd (by simpa using hlen), List.map_map]
  congr 1
  exact List.map_congr_left fun i hi => by rw [hkey i hi]; rfl

end Sharing
