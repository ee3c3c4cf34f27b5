import Mathlib.Data.List.Forall2
import Mathlib.Data.List.Flatten
import Mathlib.Tactic.Ring

/-!
# Records of one width

A sequence of values that are all encoded in `n` elements is read back in pieces of `n`.
The pieces can be taken by position or with an iterator over exact chunks; both read the same
pieces.  Where the decoder of a single value accepts nothing but its encoding, the pieces of a
sequence decode to the values it was encoded from, and to nothing else.
-/

namespace Chunks

variable {α β : Type*}

/-- The `i`-th piece of `n` elements. -/
def chunk (n : ℕ) (xs : List α) (i : ℕ) : List α := (xs.drop (i * n)).take n

/-- `chunks_exact`: the pieces of `n` elements, without a shorter remainder. -/
def chunksExact (n : ℕ) (xs : List α) : List (List α) :=
  (List.range (xs.length / n)).map (chunk n xs)

variable {n : ℕ} {enc : β → List α}

lemma chunk_zero_append {ys : List α} (h : ys.length = n) (xs : List α) :
    chunk n (ys ++ xs) 0 = ys := by
  rw [chunk, Nat.zero_mul, List.drop_zero, List.take_left' h]

lemma chunk_succ_append {ys : List α} (h : ys.length = n) (xs : List α) (i : ℕ) :
    chunk n (ys ++ xs) (i + 1) = chunk n xs i := by
  have hpos : (i + 1) * n = ys.length + i * n := by rw [h]; ring
  rw [chunk, hpos, ← List.drop_drop, List.drop_left, chunk]

/-- The pieces in front of a position, when there are enough elements for them. -/
lemma map_chunk_range_append {ys : List α} (h : ys.length = n) (xs : List α) (k : ℕ) :
    (List.range (k + 1)).map (chunk n (ys ++ xs)) = ys :: (List.range k).map (chunk n xs) := by
  rw [List.range_succ_eq_map, List.map_cons, List.map_map, chunk_zero_append h]
  exact congrArg _ (List.map_congr_left fun i _ => chunk_succ_append h xs i)

/-- The pieces of encoded values are their encodings. -/
theorem map_chunk_flatMap (henc : ∀ b, (enc b).length = n) (bs : List β) :
    (List.range bs.length).map (chunk n (bs.flatMap enc)) = bs.map enc := by
  induction bs with
  | nil => rfl
  | cons b bs ih =>
    rw [List.length_cons, List.flatMap_cons, map_chunk_range_append (henc b), ih, List.map_cons]

/-- A sequence of whole pieces is its pieces in a row. -/
theorem flatten_map_chunk {xs : List α} {k : ℕ} (h : xs.length = k * n) :
    ((List.range k).map (chunk n xs)).flatten = xs := by
  induction k generalizing xs with
  | zero =>
    have hnil : xs = [] := List.eq_nil_of_length_eq_zero (by rw [h, Nat.zero_mul])
    rw [hnil]
    rfl
  | succ k ih =>
    have htake : (xs.take n).length = n := by
      rw [List.length_take, h, Nat.min_eq_left]
      exact Nat.le_mul_of_pos_left n k.succ_pos
    have hdrop : (xs.drop n).length = k * n := by
      rw [List.length_drop, h, Nat.succ_mul, Nat.add_sub_cancel]
    have hsplit := map_chunk_range_append htake (xs.drop n) k
    rw [List.take_append_drop] at hsplit
    rw [hsplit, List.flatten_cons, ih hdrop, List.take_append_drop]

lemma chunksExact_eq (hn : 0 < n) {xs : List α} {k : ℕ} (h : xs.length = k * n) :
    chunksExact n xs = (List.range k).map (chunk n xs) := by
  rw [chunksExact, h, Nat.mul_div_cancel k hn]

/-- Values paired with their encodings. -/
lemma forall₂_enc_iff {pieces : List (List α)} {bs : List β} :
    List.Forall₂ (fun piece b => enc b = piece) pieces bs ↔ bs.map enc = pieces := by
  have heq : bs.map enc = pieces ↔ List.Forall₂ Eq (bs.map enc) pieces := by
    rw [List.forall₂_eq_eq_eq]
  rw [heq, List.forall₂_map_left_iff]
  exact ⟨List.Forall₂.flip, List.Forall₂.flip⟩

/-- What a decoder that accepts exactly the encodings reads from the pieces of a sequence. -/
theorem forall₂_decode_iff {dec : List α → Option β} (henc : ∀ b, (enc b).length = n)
    (hdec : ∀ xs b, dec xs = some b ↔ enc b = xs) {xs : List α} {k : ℕ}
    (h : xs.length = k * n) {bs : List β} :
    List.Forall₂ (fun piece b => dec piece = some b) ((List.range k).map (chunk n xs)) bs ↔
      bs.length = k ∧ bs.flatMap enc = xs := by
  simp only [hdec]
  rw [forall₂_enc_iff]
  constructor
  · intro hmap
    refine ⟨by simpa using congrArg List.length hmap, ?_⟩
    rw [List.flatMap_def, hmap, flatten_map_chunk h]
  · rintro ⟨rfl, rfl⟩
    exact (map_chunk_flatMap henc bs).symm

end Chunks
