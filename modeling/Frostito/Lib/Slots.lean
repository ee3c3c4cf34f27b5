import Mathlib.Data.List.Nodup
import Mathlib.Data.List.ReduceOption
import Mathlib.Order.Basic
import Mathlib.Order.Nat

/-!
# Slots filled by index

A vector with one optional entry for each index.  When every entry sits in the slot its
own index names, reading the filled slots from the front lists the entries in strictly
ascending order of index, and the slots and that list determine each other.
-/

namespace Slots

variable {α : Type} (key : α → ℕ)

/-- Every filled slot holds an entry whose index is the slot's position. -/
def Indexed (l : List (Option α)) : Prop := ∀ k a, l[k]? = some (some a) → key a = k

variable {key} {l : List (Option α)}

lemma indexed_replicate_none (n : ℕ) : Indexed key (List.replicate n none) := by
  intro k a h
  rw [List.getElem?_replicate] at h
  split at h <;> simp at h

/-- What a slot holds after one slot was written. -/
lemma getElem?_set_eq_some_some {k j : ℕ} {x : Option α} {a : α}
    (h : (l.set k x)[j]? = some (some a)) :
    (j = k ∧ x = some a) ∨ (j ≠ k ∧ l[j]? = some (some a)) := by
  rw [List.getElem?_set] at h
  split at h
  · next hkj =>
    split at h
    · exact .inl ⟨hkj.symm, Option.some.inj h⟩
    · exact absurd h (by simp)
  · next hkj => exact .inr ⟨Ne.symm hkj, h⟩

/-- Writing a slot adds no entry but the one written. -/
lemma mem_reduceOption_set {k : ℕ} {x : Option α} {a : α}
    (h : a ∈ (l.set k x).reduceOption) : x = some a ∨ a ∈ l.reduceOption := by
  rw [List.reduceOption_mem_iff] at h ⊢
  rcases List.mem_or_eq_of_mem_set h with h | h
  · exact .inr h
  · exact .inl h.symm

/-- Writing an empty slot keeps the other entries and adds the new one. -/
lemma mem_reduceOption_set_some {k : ℕ} {a b : α} (hk : l[k]? = some none) :
    b ∈ (l.set k (some a)).reduceOption ↔ b = a ∨ b ∈ l.reduceOption := by
  constructor
  · intro h
    rcases mem_reduceOption_set h with heq | hb
    · exact .inl (Option.some.inj heq).symm
    · exact .inr hb
  · have hlt := (List.getElem?_eq_some_iff.mp hk).1
    rw [List.reduceOption_mem_iff, List.reduceOption_mem_iff]
    rintro (rfl | hb)
    · exact List.mem_set hlt _
    · obtain ⟨j, hj⟩ := List.mem_iff_getElem?.mp hb
      have hne : k ≠ j := by
        rintro rfl
        rw [hk] at hj
        exact absurd hj (by simp)
      refine List.mem_iff_getElem?.mpr ⟨j, ?_⟩
      rw [List.getElem?_set_ne hne, hj]

lemma Indexed.set_some (h : Indexed key l) {k : ℕ} {a : α} (hk : key a = k) :
    Indexed key (l.set k (some a)) := by
  intro j b hb
  rcases getElem?_set_eq_some_some hb with ⟨rfl, hab⟩ | ⟨-, hb⟩
  · rw [← Option.some.inj hab, hk]
  · exact h j b hb

lemma Indexed.set_none (h : Indexed key l) (k : ℕ) : Indexed key (l.set k none) := by
  intro j b hb
  rcases getElem?_set_eq_some_some hb with ⟨-, hab⟩ | ⟨-, hb⟩
  · exact absurd hab (by simp)
  · exact h j b hb

/-- The entries are found in their slots. -/
lemma Indexed.mem_reduceOption_iff (h : Indexed key l) {a : α} :
    a ∈ l.reduceOption ↔ l[key a]? = some (some a) := by
  rw [List.reduceOption_mem_iff]
  constructor
  · intro hmem
    obtain ⟨k, hk⟩ := List.mem_iff_getElem?.mp hmem
    rwa [h k a hk]
  · exact List.mem_of_getElem?

lemma Indexed.key_lt (h : Indexed key l) {a : α} (ha : a ∈ l.reduceOption) : key a < l.length :=
  (List.getElem?_eq_some_iff.mp (h.mem_reduceOption_iff.mp ha)).1

/-- Reading the slots in order lists the entries by strictly ascending index. -/
theorem Indexed.pairwise_reduceOption (h : Indexed key l) :
    l.reduceOption.Pairwise fun a b => key a < key b := by
  -- the tail's entries start one slot later, so the induction carries an offset
  have hoff : ∀ (off : ℕ) (m : List (Option α)),
      (∀ k a, m[k]? = some (some a) → key a = off + k) →
      (m.reduceOption.Pairwise fun a b => key a < key b) ∧ ∀ a ∈ m.reduceOption, off ≤ key a := by
    intro off m
    induction m generalizing off with
    | nil => intro _; simp
    | cons x m ih =>
      intro hm
      obtain ⟨hpair, hle⟩ := ih (off + 1) fun k a hk => by
        have := hm (k + 1) a (by simpa using hk)
        omega
      cases x with
      | none =>
        rw [List.reduceOption_cons_of_none]
        exact ⟨hpair, fun a ha => (Nat.le_succ off).trans (hle a ha)⟩
      | some b =>
        have hb : key b = off := hm 0 b rfl
        rw [List.reduceOption_cons_of_some, List.pairwise_cons]
        refine ⟨⟨fun a ha => hb ▸ hle a ha, hpair⟩, fun a ha => ?_⟩
        rcases List.mem_cons.mp ha with rfl | ha
        · exact hb.ge
        · exact (Nat.le_succ off).trans (hle a ha)
  exact (hoff 0 l fun k a hk => by rw [h k a hk, Nat.zero_add]).1

/-- Emptying a slot removes the entry with its index. -/
lemma Indexed.mem_reduceOption_set_none (h : Indexed key l) {k : ℕ} (hk : k < l.length) {a : α} :
    a ∈ (l.set k none).reduceOption ↔ a ∈ l.reduceOption ∧ key a ≠ k := by
  rw [(h.set_none k).mem_reduceOption_iff, h.mem_reduceOption_iff]
  rcases eq_or_ne k (key a) with rfl | hne
  · simp [List.getElem?_set_self hk]
  · simp [List.getElem?_set_ne hne, hne.symm]

/-- The entries determine the slots. -/
theorem Indexed.eq_of_mem_iff (h : Indexed key l) {l' : List (Option α)} (h' : Indexed key l')
    (hlen : l.length = l'.length) (hmem : ∀ a, a ∈ l.reduceOption ↔ a ∈ l'.reduceOption) :
    l = l' := by
  refine List.ext_getElem? fun k => ?_
  have hsome : ∀ a, l[k]? = some (some a) ↔ l'[k]? = some (some a) := by
    intro a
    have hiff := hmem a
    rw [h.mem_reduceOption_iff, h'.mem_reduceOption_iff] at hiff
    constructor
    · intro hk
      have hkey := h k a hk
      rw [hkey] at hiff
      exact hiff.mp hk
    · intro hk
      have hkey := h' k a hk
      rw [hkey] at hiff
      exact hiff.mpr hk
  rcases lt_or_ge k l.length with hk | hk
  · have hk' : k < l'.length := hlen ▸ hk
    rw [List.getElem?_eq_getElem hk, List.getElem?_eq_getElem hk'] at hsome ⊢
    congr 1
    cases hx : l[k] with
    | some a => exact (Option.some.inj ((hsome a).mp (by rw [hx]))).symm
    | none =>
      cases hy : l'[k] with
      | none => rfl
      | some a => exact absurd ((hsome a).mpr (by rw [hy])) (by simp [hx])
  · rw [List.getElem?_eq_none hk, List.getElem?_eq_none (hlen ▸ hk)]

theorem Indexed.eq_of_reduceOption_eq (h : Indexed key l) {l' : List (Option α)}
    (h' : Indexed key l') (hlen : l.length = l'.length)
    (heq : l.reduceOption = l'.reduceOption) : l = l' :=
  h.eq_of_mem_iff h' hlen fun a => by rw [heq]

end Slots
