import Mathlib.Data.List.Nodup

/-!
# Lists of keyed entries

A list in which no two entries have one key is a table: looking a key up finds the entry
with that key, wherever in the list it stands.
-/

namespace Keyed

variable {α κ : Type} [DecidableEq κ] {key : α → κ} {l l' : List α}

/-- A lookup finds exactly the entry with the key. -/
theorem find?_eq_some_iff (hnd : (l.map key).Nodup) {k : κ} {a : α} :
    l.find? (fun x => key x = k) = some a ↔ a ∈ l ∧ key a = k := by
  constructor
  · intro h
    exact ⟨List.mem_of_find?_eq_some h, by simpa using List.find?_some h⟩
  · rintro ⟨ha, rfl⟩
    have hsome : (l.find? fun x => key x = key a).isSome :=
      List.find?_isSome.mpr ⟨a, ha, by simp⟩
    obtain ⟨b, hb⟩ := Option.isSome_iff_exists.mp hsome
    have hba : b = a := List.inj_on_of_nodup_map hnd (List.mem_of_find?_eq_some hb) ha
      (by simpa using List.find?_some hb)
    rw [hb, hba]

/-- Only one entry has the key of an entry. -/
lemma filter_eq_singleton (hnd : (l.map key).Nodup) {a : α} (ha : a ∈ l) :
    l.filter (fun x => key x = key a) = [a] := by
  refine List.perm_singleton.mp ((List.perm_ext_iff_of_nodup (hnd.of_map.filter _)
    (List.nodup_singleton a)).mpr fun x => ?_)
  rw [List.mem_filter, List.mem_singleton]
  constructor
  · rintro ⟨hx, hkey⟩
    exact List.inj_on_of_nodup_map hnd hx ha (of_decide_eq_true hkey)
  · rintro rfl
    exact ⟨ha, decide_eq_true rfl⟩

omit [DecidableEq κ] in
/-- An entry with a key that is not in the table may be appended. -/
lemma nodup_map_append_singleton (hnd : (l.map key).Nodup) {a : α} (ha : key a ∉ l.map key) :
    ((l ++ [a]).map key).Nodup := by
  rw [List.map_append, List.map_singleton, ← List.concat_eq_append]
  exact hnd.concat ha

/-- A lookup does not depend on the order of the entries. -/
theorem find?_perm (hnd : (l.map key).Nodup) (hperm : l.Perm l') (k : κ) :
    l.find? (fun x => key x = k) = l'.find? fun x => key x = k := by
  have hnd' : (l'.map key).Nodup := (hperm.map key).nodup_iff.mp hnd
  ext a
  rw [find?_eq_some_iff hnd, find?_eq_some_iff hnd', hperm.mem_iff]

end Keyed
