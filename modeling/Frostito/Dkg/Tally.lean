import Mathlib.Data.Finmap
import Mathlib.Data.Finset.Sort
import Frostito.Dkg.Complaint
import Frostito.Lib.Calls

/-!
# The tally of complaints

A `ComplaintTally` collects the verdicts on complaints and names the dealers that enough
distinct accusers have an upheld complaint against.  What it holds depends on which verdicts
were recorded, and not on their order or on repetitions.
-/

namespace Frostito

/-- The verdict on one complaint: the accuser, the accused and what was concluded. -/
abbrev VerdictTriple := UInt32 × UInt32 × ComplaintVerdict

/-- Counts distinct accusers per accused dealer, gated on the ceremony threshold. -/
structure ComplaintTally where
  threshold : UInt32
  /-- accused -> distinct accusers with an `Upheld` verdict -/
  upheld : Finmap fun _ : UInt32 => Finset UInt32
  /-- accusers whose complaint was authentic but `Unfounded` -/
  flagged : Finset UInt32

namespace ComplaintTally

/-- A tally gated on the ceremony threshold `t`. -/
def new (threshold : UInt32) : ComplaintTally := ⟨threshold, ∅, ∅⟩

/-- `upheld.entry(accused).or_default()`. -/
def accusersOf (t : ComplaintTally) (accused : UInt32) : Finset UInt32 :=
  (t.upheld.lookup accused).getD ∅

/-- Record one verified complaint's verdict. -/
def record (t : ComplaintTally) (accuser accused : UInt32) (verdict : ComplaintVerdict) :
    ComplaintTally × Outcome Error Unit :=
  if accuser = 0 ∨ accused = 0 ∨ accuser = accused then (t, .err .invalidIndex) else
  match verdict with
  | .upheld =>
    ({ t with upheld := t.upheld.insert accused (insert accuser (t.accusersOf accused)) }, .ok ())
  | .unfounded => ({ t with flagged := insert accuser t.flagged }, .ok ())

/-- How many distinct accusers hold an upheld complaint against `accused`. -/
def count (t : ComplaintTally) (accused : UInt32) : ℕ :=
  match t.upheld.lookup accused with
  | some accusers => accusers.card
  | none => 0

/-- Whether `accused` has reached the threshold and may be disqualified. -/
def reached (t : ComplaintTally) (accused : UInt32) : Bool :=
  decide (t.threshold.toNat ≤ t.count accused)

/-- Every dealer that has reached the threshold, ascending. -/
def disqualifiable (t : ComplaintTally) : List UInt32 :=
  (t.upheld.keys.sort (· ≤ ·)).filter t.reached

/-- The accusers of `accused`, ascending. -/
def accusers (t : ComplaintTally) (accused : UInt32) : List UInt32 :=
  match t.upheld.lookup accused with
  | some accusers => accusers.sort (· ≤ ·)
  | none => []

/-- Dealers with at least one upheld complaint but fewer than `t`, with their accusers. -/
def belowThreshold (t : ComplaintTally) : List (UInt32 × List UInt32) :=
  ((t.upheld.keys.sort (· ≤ ·)).filter fun d => !t.reached d).map fun d => (d, t.accusers d)

/-- Accusers that made an authentic but unfounded accusation, ascending. -/
def flaggedAccusers (t : ComplaintTally) : List UInt32 := t.flagged.sort (· ≤ ·)

/-- One call of `record`. -/
def recordTriple (t : ComplaintTally) (triple : VerdictTriple) :
    ComplaintTally × Outcome Error Unit :=
  t.record triple.1 triple.2.1 triple.2.2

/-- The tally of a list of verdicts. -/
def tallied (threshold : UInt32) (triples : List VerdictTriple) : ComplaintTally :=
  Calls.run recordTriple (new threshold) triples

/-- `record` takes a verdict into account: the indices are proper and distinct. -/
def Counts (triple : VerdictTriple) : Prop :=
  triple.1 ≠ 0 ∧ triple.2.1 ≠ 0 ∧ triple.1 ≠ triple.2.1

/-! ### One verdict -/

variable {t : ComplaintTally} {triple : VerdictTriple} {a d : UInt32}

/-- What recording a verdict does: one that counts goes to the accused when it is upheld and
to its accuser when it is not, and any other leaves the tally as it was. -/
theorem recordTriple_cases (t : ComplaintTally) (triple : VerdictTriple) :
    (Counts triple ∧ triple.2.2 = .upheld ∧ (t.recordTriple triple).1 = { t with
      upheld := t.upheld.insert triple.2.1 (insert triple.1 (t.accusersOf triple.2.1)) }) ∨
    (Counts triple ∧ triple.2.2 = .unfounded ∧
      (t.recordTriple triple).1 = { t with flagged := insert triple.1 t.flagged }) ∨
    (¬Counts triple ∧ (t.recordTriple triple).1 = t) := by
  rw [recordTriple, record.eq_def]
  split
  · next hbad =>
    refine .inr (.inr ⟨?_, rfl⟩)
    rintro ⟨haccuser, haccused, hne⟩
    rcases hbad with h | h | h
    · exact haccuser h
    · exact haccused h
    · exact hne h
  · next hgood =>
    push Not at hgood
    split
    · next hupheld => exact .inl ⟨hgood, hupheld, rfl⟩
    · next hunfounded => exact .inr (.inl ⟨hgood, hunfounded, rfl⟩)

/-- An upheld verdict adds its accuser to those of the accused. -/
lemma mem_accusersOf_record :
    a ∈ (t.recordTriple triple).1.accusersOf d ↔
      a ∈ t.accusersOf d ∨ (Counts triple ∧ triple = (a, d, .upheld)) := by
  obtain ⟨accuser, accused, verdict⟩ := triple
  rcases t.recordTriple_cases (accuser, accused, verdict) with
    ⟨hcounts, hverdict, hrecord⟩ | ⟨hcounts, hverdict, hrecord⟩ | ⟨hcounts, hsame⟩
  · obtain rfl : verdict = .upheld := hverdict
    rw [hrecord]
    by_cases hd : d = accused
    · subst hd
      simp [accusersOf, Finmap.lookup_insert, hcounts, eq_comm, or_comm]
    · simp [accusersOf, Finmap.lookup_insert_of_ne _ hd, Ne.symm hd]
  · obtain rfl : verdict = .unfounded := hverdict
    rw [hrecord]
    simp [accusersOf]
  · rw [hsame]
    simp [hcounts]

/-- An unfounded verdict flags its accuser. -/
lemma mem_flagged_record :
    a ∈ (t.recordTriple triple).1.flagged ↔
      a ∈ t.flagged ∨ (Counts triple ∧ triple.1 = a ∧ triple.2.2 = .unfounded) := by
  rcases t.recordTriple_cases triple with
    ⟨-, hverdict, hrecord⟩ | ⟨hcounts, hverdict, hrecord⟩ | ⟨hcounts, hsame⟩
  · rw [hrecord]
    simp [hverdict]
  · rw [hrecord, Finset.mem_insert]
    simp [hcounts, hverdict, eq_comm, or_comm]
  · rw [hsame]
    simp [hcounts]

/-- No dealer is listed without an accuser. -/
def Nonvoid (t : ComplaintTally) : Prop := ∀ d ∈ t.upheld, (t.accusersOf d).Nonempty

lemma Nonvoid.record (h : t.Nonvoid) (triple : VerdictTriple) :
    (t.recordTriple triple).1.Nonvoid := by
  rcases t.recordTriple_cases triple with ⟨-, -, hrecord⟩ | ⟨-, -, hrecord⟩ | ⟨-, hsame⟩
  · rw [hrecord]
    intro d hd
    rw [Finmap.mem_insert] at hd
    by_cases hda : d = triple.2.1
    · subst hda
      rw [accusersOf, Finmap.lookup_insert]
      exact ⟨triple.1, Finset.mem_insert_self _ _⟩
    · rw [accusersOf, Finmap.lookup_insert_of_ne _ hda]
      exact h d (hd.resolve_left hda)
  · rw [hrecord]
    exact h
  · rwa [hsame]

lemma threshold_record : (t.recordTriple triple).1.threshold = t.threshold := by
  rcases t.recordTriple_cases triple with ⟨-, -, hrecord⟩ | ⟨-, -, hrecord⟩ | ⟨-, hsame⟩
  · rw [hrecord]
  · rw [hrecord]
  · rw [hsame]

/-! ### The tally of a list of verdicts -/

variable {threshold : UInt32} {triples triples' : List VerdictTriple}

lemma nonvoid_tallied : (tallied threshold triples).Nonvoid :=
  Calls.run_invariant (fun _ hd => absurd hd Finmap.notMem_empty)
    fun triple _ _ h => h.record triple

lemma threshold_tallied : (tallied threshold triples).threshold = threshold :=
  Calls.run_invariant (I := fun t : ComplaintTally => t.threshold = threshold) rfl
    fun _ _ _ h => threshold_record.trans h

/-- The accusers of a dealer are those of its upheld verdicts that count. -/
theorem mem_accusersOf_tallied :
    a ∈ (tallied threshold triples).accusersOf d ↔
      Counts (a, d, .upheld) ∧ (a, d, .upheld) ∈ triples := by
  induction triples using List.reverseRecOn with
  | nil => simp [tallied, new, accusersOf]
  | append_singleton before triple ih =>
    rw [tallied, Calls.run_append, ← tallied, Calls.run_cons, Calls.run_nil,
      mem_accusersOf_record, ih, List.mem_append, List.mem_singleton, and_or_left]
    refine or_congr_right ⟨?_, ?_⟩
    · rintro ⟨hcounts, rfl⟩
      exact ⟨hcounts, rfl⟩
    · rintro ⟨hcounts, rfl⟩
      exact ⟨hcounts, rfl⟩

/-- The flagged accusers are those of the unfounded verdicts that count. -/
theorem mem_flagged_tallied :
    a ∈ (tallied threshold triples).flagged ↔
      ∃ triple ∈ triples, Counts triple ∧ triple.1 = a ∧ triple.2.2 = .unfounded := by
  induction triples using List.reverseRecOn with
  | nil => simp [tallied, new]
  | append_singleton before triple ih =>
    rw [tallied, Calls.run_append, ← tallied, Calls.run_cons, Calls.run_nil, mem_flagged_record,
      ih]
    simp only [List.mem_append, List.mem_singleton, or_and_right, exists_or, exists_eq_left]

lemma mem_upheld_tallied :
    d ∈ (tallied threshold triples).upheld ↔
      ((tallied threshold triples).accusersOf d).Nonempty := by
  refine ⟨nonvoid_tallied d, ?_⟩
  rintro ⟨a, ha⟩
  by_contra hnot
  rw [accusersOf, Finmap.lookup_eq_none.mpr hnot] at ha
  simp at ha

/-- **The tally does not depend on the order of the verdicts, nor on repetitions.** -/
theorem tallied_congr (h : ∀ triple, triple ∈ triples ↔ triple ∈ triples') :
    tallied threshold triples = tallied threshold triples' := by
  have haccusers : ∀ d, (tallied threshold triples).accusersOf d
      = (tallied threshold triples').accusersOf d := by
    intro d
    ext a
    rw [mem_accusersOf_tallied, mem_accusersOf_tallied, h]
  have hupheld : (tallied threshold triples).upheld = (tallied threshold triples').upheld := by
    refine Finmap.ext_lookup fun d => ?_
    by_cases hd : d ∈ (tallied threshold triples).upheld
    · have hd' := hd
      rw [mem_upheld_tallied, haccusers, ← mem_upheld_tallied] at hd'
      obtain ⟨s, hs⟩ := Finmap.mem_iff.mp hd
      obtain ⟨s', hs'⟩ := Finmap.mem_iff.mp hd'
      have hsame := haccusers d
      rw [accusersOf, accusersOf, hs, hs', Option.getD_some, Option.getD_some] at hsame
      rw [hs, hs', hsame]
    · have hd' := hd
      rw [mem_upheld_tallied, haccusers, ← mem_upheld_tallied] at hd'
      rw [Finmap.lookup_eq_none.mpr hd, Finmap.lookup_eq_none.mpr hd']
  have hflagged : (tallied threshold triples).flagged = (tallied threshold triples').flagged := by
    ext a
    simp only [mem_flagged_tallied, h]
  have hthreshold : (tallied threshold triples).threshold
      = (tallied threshold triples').threshold := by
    rw [threshold_tallied, threshold_tallied]
  cases ht : tallied threshold triples
  cases ht' : tallied threshold triples'
  rw [ht, ht'] at hupheld hflagged hthreshold
  exact congr (congr (congrArg mk hthreshold) hupheld) hflagged

lemma count_eq_card (t : ComplaintTally) (d : UInt32) : t.count d = (t.accusersOf d).card := by
  rw [count, accusersOf]
  cases t.upheld.lookup d <;> simp

/-- **Who may be disqualified**: the dealers that at least `threshold` distinct others hold an
upheld complaint against. -/
theorem mem_disqualifiable_iff (ht : threshold ≠ 0) :
    d ∈ (tallied threshold triples).disqualifiable ↔
      d ≠ 0 ∧ ∃ accusers : Finset UInt32, threshold.toNat ≤ accusers.card ∧
        ∀ a ∈ accusers, a ≠ 0 ∧ a ≠ d ∧ (a, d, .upheld) ∈ triples := by
  have hpos := Nat.pos_of_ne_zero (toNat_ne_zero_iff.mpr ht)
  have hreached : d ∈ (tallied threshold triples).disqualifiable ↔
      threshold.toNat ≤ ((tallied threshold triples).accusersOf d).card := by
    rw [disqualifiable, List.mem_filter, Finset.mem_sort, Finmap.mem_keys, mem_upheld_tallied,
      reached, decide_eq_true_eq, count_eq_card, threshold_tallied, ← Finset.card_pos]
    exact ⟨fun h => h.2, fun h => ⟨hpos.trans_le h, h⟩⟩
  rw [hreached]
  constructor
  · intro hcard
    obtain ⟨a, ha⟩ := Finset.card_pos.mp (hpos.trans_le hcard)
    refine ⟨(mem_accusersOf_tallied.mp ha).1.2.1, _, hcard, fun a ha => ?_⟩
    obtain ⟨⟨ha0, -, had⟩, hmem⟩ := mem_accusersOf_tallied.mp ha
    exact ⟨ha0, had, hmem⟩
  · rintro ⟨hd, accusers, hcard, hall⟩
    refine hcard.trans (Finset.card_le_card fun a ha => ?_)
    obtain ⟨ha0, had, hmem⟩ := hall a ha
    exact mem_accusersOf_tallied.mpr ⟨⟨ha0, hd, had⟩, hmem⟩

/-! ### The reports -/

lemma pairwise_lt_sort (s : Finset UInt32) : (s.sort (· ≤ ·)).Pairwise (· < ·) :=
  ((Finset.pairwise_sort s (· ≤ ·)).and (Finset.sort_nodup s (· ≤ ·))).imp fun h =>
    UInt32.lt_of_le_of_ne h.1 h.2

/-- The dealers that are named ascend. -/
lemma pairwise_disqualifiable (t : ComplaintTally) : t.disqualifiable.Pairwise (· < ·) :=
  (pairwise_lt_sort t.upheld.keys).sublist List.filter_sublist

lemma accusers_eq (t : ComplaintTally) (d : UInt32) :
    t.accusers d = (t.accusersOf d).sort (· ≤ ·) := by
  rw [accusers, accusersOf]
  cases t.upheld.lookup d <;> simp

@[simp] lemma mem_accusers : a ∈ t.accusers d ↔ a ∈ t.accusersOf d := by
  rw [accusers_eq, Finset.mem_sort]

lemma length_accusers (t : ComplaintTally) (d : UInt32) :
    (t.accusers d).length = t.count d := by
  rw [accusers_eq, Finset.length_sort, count_eq_card]

@[simp] lemma mem_flaggedAccusers : a ∈ t.flaggedAccusers ↔ a ∈ t.flagged := Finset.mem_sort _

/-- What the reports of a tally say of each other: every accused dealer stands in exactly one of
`disqualifiable` and `below_threshold`, and all of them ascend. -/
structure ReportsPartition (t : ComplaintTally) : Prop where
  accusers_ascending : ∀ d, (t.accusers d).Pairwise (· < ·)
  disqualifiable_ascending : t.disqualifiable.Pairwise (· < ·)
  belowThreshold_ascending : (t.belowThreshold.map Prod.fst).Pairwise (· < ·)
  flaggedAccusers_ascending : t.flaggedAccusers.Pairwise (· < ·)
  mem_disqualifiable_iff : ∀ d, d ∈ t.disqualifiable ↔
    t.accusers d ≠ [] ∧ t.threshold.toNat ≤ (t.accusers d).length
  mem_belowThreshold_iff : ∀ d as, (d, as) ∈ t.belowThreshold ↔
    as = t.accusers d ∧ as ≠ [] ∧ as.length < t.threshold.toNat

/-- They do, as long as no dealer is listed without an accuser. -/
theorem Nonvoid.reportsPartition (h : t.Nonvoid) : t.ReportsPartition := by
  have hkeys : ∀ d, d ∈ t.upheld.keys.sort (· ≤ ·) ↔ t.accusers d ≠ [] := by
    intro d
    rw [Finset.mem_sort, Finmap.mem_keys]
    constructor
    · intro hd
      obtain ⟨a, ha⟩ := h d hd
      exact List.ne_nil_of_mem (mem_accusers.mpr ha)
    · intro hne
      by_contra hnot
      exact hne (by rw [accusers, Finmap.lookup_eq_none.mpr hnot])
  refine ⟨fun d => ?_, t.pairwise_disqualifiable, ?_, pairwise_lt_sort _,
    fun d => ?_, fun d as => ?_⟩
  · rw [accusers_eq]
    exact pairwise_lt_sort _
  · rw [belowThreshold, List.map_map]
    exact List.map_id' _ ▸ (pairwise_lt_sort t.upheld.keys).sublist List.filter_sublist
  · rw [disqualifiable, List.mem_filter, hkeys, reached, decide_eq_true_eq, length_accusers]
  · rw [belowThreshold, List.mem_map]
    simp only [List.mem_filter, hkeys, reached, Bool.not_eq_true', decide_eq_false_iff_not, not_le,
      Prod.mk.injEq]
    constructor
    · rintro ⟨_, ⟨hne, hlt⟩, rfl, rfl⟩
      exact ⟨rfl, hne, length_accusers t _ ▸ hlt⟩
    · rintro ⟨rfl, hne, hlt⟩
      exact ⟨d, ⟨hne, length_accusers t d ▸ hlt⟩, rfl, rfl⟩

end ComplaintTally

end Frostito
