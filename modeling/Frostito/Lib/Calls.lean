import Mathlib.Data.List.Nodup
import Mathlib.Data.Set.Basic

/-!
# Runs of a stateful object

An object whose methods take `&mut self` is a function from a state and a call to the next
state and what the call returned.  A run is a list of calls made one after the other on
the same object, whatever each of them returned: a caller may ignore errors.  The two
rules below are how every invariant and every monotone fact about runs is proved here.
-/

namespace Calls

variable {σ ι ρ : Type} (call : σ → ι → σ × ρ)

/-- The state after a list of calls. -/
def run (s : σ) (is : List ι) : σ := is.foldl (fun s i => (call s i).1) s

@[simp] lemma run_nil (s : σ) : run call s [] = s := rfl

@[simp] lemma run_cons (s : σ) (i : ι) (is : List ι) :
    run call s (i :: is) = run call (call s i).1 is := rfl

lemma run_append (s : σ) (is js : List ι) :
    run call s (is ++ js) = run call (run call s is) js := by
  simp [run, List.foldl_append]

/-- What every call of a list returned. -/
def log (s : σ) : List ι → List (ι × ρ)
  | [] => []
  | i :: is => (i, (call s i).2) :: log (call s i).1 is

variable {call}

/-- What holds at the start and is kept by every call made holds at the end. -/
theorem run_invariant {I : σ → Prop} {s : σ} {is : List ι} (h0 : I s)
    (hstep : ∀ i ∈ is, ∀ s, I s → I (call s i).1) : I (run call s is) := by
  induction is generalizing s with
  | nil => exact h0
  | cons i is ih =>
    rw [run_cons]
    exact ih (hstep i List.mem_cons_self s h0) fun j hj => hstep j (List.mem_cons_of_mem _ hj)

/-! ### Keys that are given out once -/

variable {κ : Type} {spent : σ → Set κ} {emit : ι × ρ → Option κ}

/-- A growing set only grows over a run. -/
theorem subset_run (hgrow : ∀ s i, spent s ⊆ spent (call s i).1) (s : σ) (is : List ι) :
    spent s ⊆ spent (run call s is) := by
  induction is generalizing s with
  | nil => exact subset_rfl
  | cons i is ih => exact (hgrow s i).trans (ih _)

/-- **Keys that are given out once.**  When the spent keys only grow, and a call that gives a
key out finds it unspent and spends it, then no key is given out twice, and all of them are
spent in the end and were not before. -/
theorem nodup_emit (hgrow : ∀ s i, spent s ⊆ spent (call s i).1)
    (hemit : ∀ s i k, emit (i, (call s i).2) = some k → k ∉ spent s ∧ k ∈ spent (call s i).1)
    (s : σ) (is : List ι) :
    ((log call s is).filterMap emit).Nodup ∧
      ∀ k ∈ (log call s is).filterMap emit, k ∉ spent s ∧ k ∈ spent (run call s is) := by
  induction is generalizing s with
  | nil => simp [log]
  | cons i is ih =>
    obtain ⟨hnd, hkeys⟩ := ih (call s i).1
    -- what later calls give out is unspent after this one
    have hrest : ∀ k ∈ (log call (call s i).1 is).filterMap emit,
        k ∉ spent s ∧ k ∈ spent (run call s (i :: is)) := fun k hk =>
      ⟨fun hs => (hkeys k hk).1 (hgrow s i hs), (hkeys k hk).2⟩
    rw [log]
    cases hk : emit (i, (call s i).2) with
    | none =>
      rw [List.filterMap_cons_none hk]
      exact ⟨hnd, hrest⟩
    | some k =>
      obtain ⟨hunspent, hspent⟩ := hemit s i k hk
      rw [List.filterMap_cons_some hk, List.nodup_cons, List.forall_mem_cons]
      exact ⟨⟨fun hmem => (hkeys k hmem).1 hspent, hnd⟩,
        ⟨hunspent, subset_run hgrow _ is hspent⟩, hrest⟩

end Calls
