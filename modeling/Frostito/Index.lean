import Mathlib.Data.List.Nodup
import Mathlib.Data.List.Perm.Subperm
import Mathlib.Data.List.Range

/-!
# Participant indices

Participants are numbered from 1 on, by `u32` values, and looked up by their position in a
list.
-/

namespace Frostito

lemma toNat_ne_zero_iff {i : UInt32} : i.toNat ≠ 0 ↔ i ≠ 0 := by
  rw [Ne, Ne, ← UInt32.toNat_inj, UInt32.toNat_zero]

/-- There are no more indices than `u32` values. -/
lemma length_le_of_nodup {indices : List UInt32} (h : indices.Nodup) :
    indices.length ≤ UInt32.size := by
  have hnodup : (indices.map UInt32.toNat).Nodup := h.map fun _ _ => UInt32.toNat_inj.mp
  have hsub : indices.map UInt32.toNat ⊆ List.range UInt32.size := by
    intro n hn
    obtain ⟨i, -, rfl⟩ := List.mem_map.mp hn
    exact List.mem_range.mpr i.toNat_lt
  have hle := (List.subperm_of_subset hnodup hsub).length_le
  rwa [List.length_map, List.length_range] at hle

/-- The participants `1..=n`. -/
def participants (n : UInt32) : List UInt32 :=
  (List.range n.toNat).map fun k => UInt32.ofNat (k + 1)

lemma toNat_ofNat_succ {n : UInt32} {k : ℕ} (hk : k < n.toNat) :
    (UInt32.ofNat (k + 1)).toNat = k + 1 := by
  have hn : n.toNat < 2 ^ 32 := n.toNat_lt
  exact UInt32.toNat_ofNat_of_lt' (show k + 1 < 2 ^ 32 by omega)

lemma mem_participants {n i : UInt32} : i ∈ participants n ↔ i ≠ 0 ∧ i ≤ n := by
  rw [participants, List.mem_map, UInt32.le_iff_toNat_le, ← toNat_ne_zero_iff]
  constructor
  · rintro ⟨k, hk, rfl⟩
    have hk' := List.mem_range.mp hk
    rw [toNat_ofNat_succ hk']
    omega
  · rintro ⟨hi, hin⟩
    refine ⟨i.toNat - 1, List.mem_range.mpr (by omega), ?_⟩
    rw [Nat.sub_add_cancel (by omega), UInt32.ofNat_toNat]

lemma nodup_participants (n : UInt32) : (participants n).Nodup := by
  refine List.Nodup.map_on ?_ List.nodup_range
  intro a ha b hb hab
  have h := congrArg UInt32.toNat hab
  rw [toNat_ofNat_succ (List.mem_range.mp ha), toNat_ofNat_succ (List.mem_range.mp hb)] at h
  exact Nat.succ_injective h

lemma pairwise_participants (n : UInt32) : (participants n).Pairwise (· < ·) := by
  refine List.pairwise_map.mpr (List.pairwise_lt_range.imp_of_mem fun ha hb hlt => ?_)
  rw [UInt32.lt_iff_toNat_lt, toNat_ofNat_succ (List.mem_range.mp ha),
    toNat_ofNat_succ (List.mem_range.mp hb)]
  exact Nat.succ_lt_succ hlt

lemma length_participants (n : UInt32) : (participants n).length = n.toNat := by
  simp [participants]

lemma participants_ne_nil {n : UInt32} (hn : n ≠ 0) : participants n ≠ [] := by
  rw [← List.length_pos_iff, length_participants]
  exact Nat.pos_of_ne_zero (toNat_ne_zero_iff.mpr hn)

/-- `indices.iter().position(|&i| i == index)`. -/
def position (indices : List UInt32) (index : UInt32) : Option ℕ :=
  indices.findIdx? fun i => i = index

lemma exists_position_eq_some_iff {indices : List UInt32} {index : UInt32} :
    (∃ pos, position indices index = some pos) ↔ index ∈ indices := by
  rw [← Option.isSome_iff_exists, position, List.findIdx?_isSome, List.any_eq_true]
  simp

/-- What stands at the position of an index in a list computed from the indices. -/
lemma getElem?_map_position {α : Type} {indices : List UInt32} {index : UInt32} {pos : ℕ}
    (h : position indices index = some pos) (f : UInt32 → α) :
    (indices.map f)[pos]? = some (f index) := by
  obtain ⟨hlt, hget, -⟩ := List.findIdx?_eq_some_iff_getElem.mp h
  have heq : indices[pos] = index := by simpa using hget
  rw [List.getElem?_map, List.getElem?_eq_getElem hlt, heq, Option.map_some]

end Frostito
