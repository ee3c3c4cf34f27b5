import Mathlib.Data.List.Sort
import Mathlib.Data.List.Nodup

/-!
# Sorted lists without repeats

A list is checked for repeats by sorting it and comparing neighbours.  On a sorted list
the comparison finds a repeat exactly when there is one.
-/

namespace Sorted

variable {α : Type}

/-- The second of the first two equal neighbours: the loop over `windows(2)`. -/
def firstRepeat [DecidableEq α] : List α → Option α
  | a :: b :: rest => if a = b then some b else firstRepeat (b :: rest)
  | _ => none

@[simp] lemma firstRepeat_nil [DecidableEq α] : firstRepeat ([] : List α) = none := rfl

@[simp] lemma firstRepeat_singleton [DecidableEq α] (a : α) : firstRepeat [a] = none := rfl

lemma firstRepeat_cons_cons [DecidableEq α] (a b : α) (l : List α) :
    firstRepeat (a :: b :: l) = if a = b then some b else firstRepeat (b :: l) := rfl

variable {r : α → α → Prop} [Std.Antisymm r]

/-- On a sorted list no two neighbours are equal exactly when no two elements are. -/
theorem firstRepeat_eq_none_iff [DecidableEq α] {l : List α} (hl : l.Pairwise r) :
    firstRepeat l = none ↔ l.Nodup := by
  induction l with
  | nil => simp
  | cons a l ih =>
    cases l with
    | nil => simp
    | cons b l =>
      obtain ⟨ha, hbl⟩ := List.pairwise_cons.mp hl
      rw [firstRepeat_cons_cons, List.nodup_cons]
      split
      · next hab => simp [hab]
      · next hab =>
        rw [ih hbl]
        constructor
        · intro hnd
          refine ⟨fun hmem => ?_, hnd⟩
          rcases List.mem_cons.mp hmem with rfl | hmem
          · exact hab rfl
          -- `a` further down would be squeezed between itself and `b`
          · have hba : r b a := (List.pairwise_cons.mp hbl).1 a hmem
            exact hab (antisymm (ha b List.mem_cons_self) hba)
        · exact fun h => h.2

/-- Two sorted lists without repeats and with the same members are equal. -/
theorem eq_of_mem_iff {l l' : List α} (hl : l.Pairwise r) (hl' : l'.Pairwise r)
    (hnd : l.Nodup) (hnd' : l'.Nodup) (h : ∀ a, a ∈ l ↔ a ∈ l') : l = l' :=
  List.Perm.eq_of_pairwise (fun _ _ _ _ => antisymm) hl hl'
    ((List.perm_ext_iff_of_nodup hnd hnd').mpr h)

/-! ### The first members -/

section Take

variable {lt : α → α → Prop} [Std.Asymm lt] {l l' : List α} {t : ℕ}

/-- On a sorted list what stands below one of the first members is one of them. -/
lemma mem_take_of_lt (hl : l.Pairwise lt) {a b : α} (ha : a ∈ l) (hb : b ∈ l.take t)
    (hab : lt a b) : a ∈ l.take t := by
  rw [← List.take_append_drop t l] at ha hl
  rcases List.mem_append.mp ha with ha | ha
  · exact ha
  · exact absurd hab (Std.Asymm.asymm _ _ ((List.pairwise_append.mp hl).2.2 b hb a ha))

omit [Std.Asymm lt] in
/-- The others stand above them. -/
lemma lt_of_notMem_take (hl : l.Pairwise lt) {a b : α} (ha : a ∈ l.take t) (hb : b ∈ l)
    (hnot : b ∉ l.take t) : lt a b := by
  rw [← List.take_append_drop t l] at hb hl
  rcases List.mem_append.mp hb with hb | hb
  · exact absurd hb hnot
  · exact (List.pairwise_append.mp hl).2.2 a ha b hb

lemma nodup_of_pairwise (hl : l.Pairwise lt) : l.Nodup := by
  have hne : l.Pairwise fun a b => a ≠ b := by
    refine hl.imp fun {a b} hab => ?_
    rintro rfl
    exact Std.Asymm.asymm _ _ hab hab
  exact hne

/-- Adding members leaves the first `t` as they were exactly when none of the new ones
stands below one of them. -/
theorem take_eq_take_iff (hl : l.Pairwise lt) (hl' : l'.Pairwise lt) (hsub : l ⊆ l')
    (ht : t ≤ l.length) :
    l'.take t = l.take t ↔ ∀ b ∈ l', b ∉ l → ∀ a ∈ l.take t, lt a b := by
  constructor
  · intro heq b hb hnew a ha
    refine lt_of_notMem_take hl' (heq ▸ ha) hb fun hmem => hnew ?_
    exact List.mem_of_mem_take (heq ▸ hmem)
  · intro hnew
    have hlen' : t ≤ l'.length :=
      ht.trans (List.subperm_of_subset (nodup_of_pairwise hl) hsub).length_le
    have hnd : (l.take t).Nodup := nodup_of_pairwise hl.take
    have hlen : (l'.take t).length = (l.take t).length := by
      rw [List.length_take_of_le ht, List.length_take_of_le hlen']
    -- a first member of `l'` above all those of `l` leaves room for all of them
    have hkeep : l.take t ⊆ l'.take t → (l.take t).Perm (l'.take t) := fun h =>
      (List.subperm_of_subset hnd h).perm_of_length_le hlen.le
    have hmem : l'.take t ⊆ l.take t := by
      intro b hb
      by_contra hnot
      have habove : ∀ a ∈ l.take t, lt a b := by
        intro a ha
        by_cases hbl : b ∈ l
        · exact lt_of_notMem_take hl ha hbl hnot
        · exact hnew b (List.mem_of_mem_take hb) hbl a ha
      have hperm := hkeep fun a ha =>
        mem_take_of_lt hl' (hsub (List.mem_of_mem_take ha)) hb (habove a ha)
      exact hnot (hperm.mem_iff.mpr hb)
    have hperm := (List.subperm_of_subset (nodup_of_pairwise hl'.take) hmem).perm_of_length_le
      hlen.ge
    exact hperm.eq_of_pairwise (fun a b _ _ hab hba => absurd hba (Std.Asymm.asymm _ _ hab))
      hl'.take hl.take

end Take

end Sorted
