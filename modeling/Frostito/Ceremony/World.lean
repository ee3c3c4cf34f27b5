import Mathlib.Logic.Relation
import Frostito.Dkg.Binding
import Frostito.Dkg.Convergence
import Frostito.Dkg.Correctness
import Frostito.Sealed.Integrity

/-!
# The ceremony

A participant that follows the protocol records its own package and then those that reach it,
publishes the digest of the set once it is complete, opens sealed packages only after every
participant has published the digest that it has itself, and accuses a dealer whose package
holds a bad sub-share.  It may disqualify dealers at any time; to go on without them it publishes
the digest of the smaller set, and starts round 2 again.

Everything else is up to the network, and to the participants that do not follow the protocol:
who acts next and what reaches it.  Three things are asked of the network.  What a participant
confirms with is one digest each of enough participants, and a digest in the name of an honest one
is one that it has published; what verifies as a complaint of an honest participant is one that it
has signed; and no commitment that is submitted has more coefficients than a `u32` counts.
-/

namespace Frostito

/-- What a participant brings: its secrets, and what it deals. -/
structure Contribution (P S : Type) where
  x25519Secret : X25519Key
  identitySecret : S
  dealer : Dkg.Dealer P S
  package : Round1Package P S

/-- The parameters of a ceremony, its signed roster, and who follows the protocol. -/
structure Ceremony (P S : Type) where
  epoch : UInt64
  threshold : UInt32
  numParticipants : UInt32
  roster : SealedRoster
  /-- The round of the sealed packages. -/
  round : UInt8
  /-- The identity keys that the roster binds to its participants. -/
  identityKey : UInt32 → Option P
  honest : Finset UInt32
  contribution : UInt32 → Contribution P S

/-- What a participant keeps. -/
structure Participant (P S : Type) where
  state : DkgState P
  tally : ComplaintTally
  /-- The set that it last published the digest of. -/
  echoed : Option (AgreedRound1 P)
  /-- That set and the aggregator over it, once all digests have been confirmed. -/
  round2 : Option (AgreedRound1 P × Dkg.Aggregator P S)

/-- What a participant publishes: the digest of a set, or a complaint. -/
inductive Broadcast (P S : Type) where
  | echo (agreed : AgreedRound1 P)
  | complaint (c : Complaint P S)

/-- What a participant does, or what reaches it. -/
inductive Action (P S : Type) where
  | submit (package : Round1Package P S)
  | disqualify (dealerIndex : UInt32)
  | applyTally
  | echo
  | confirm (peers : List (UInt32 × EchoDigest))
  | openPackage (sealedShare : SealedSubShare) (rng : Rng S)
  | hear (complaint : Complaint P S)

/-- The participants, and what they have published. -/
structure World (P S : Type) where
  participant : UInt32 → Participant P S
  published : List (UInt32 × Broadcast P S)

namespace World

variable {S P : Type}

/-- Participant `j` has published the digest of the set. -/
def Echoed (w : World P S) (j : UInt32) (agreed : AgreedRound1 P) : Prop :=
  (j, .echo agreed) ∈ w.published

/-- Participant `j` has signed the complaint. -/
def Signed (w : World P S) (j : UInt32) (c : Complaint P S) : Prop :=
  (j, .complaint c) ∈ w.published

/-- The world in which participant `j` has become `p` and has published `b`. -/
def after (w : World P S) (j : UInt32) (p : Participant P S) (b : Option (Broadcast P S)) :
    World P S :=
  ⟨Function.update w.participant j p, (b.map fun b => (j, b)).toList ++ w.published⟩

variable {w : World P S} {i j : UInt32} {p : Participant P S} {b : Option (Broadcast P S)}

@[simp] lemma participant_after_self : (w.after j p b).participant j = p := by simp [after]

@[simp] lemma participant_after_of_ne (h : i ≠ j) :
    (w.after j p b).participant i = w.participant i := by simp [after, h]

lemma echoed_after {agreed : AgreedRound1 P} :
    (w.after j p b).Echoed i agreed ↔
      (i = j ∧ b = some (.echo agreed)) ∨ w.Echoed i agreed := by
  cases b <;> simp [after, Echoed, eq_comm]

lemma signed_after {c : Complaint P S} :
    (w.after j p b).Signed i c ↔ (i = j ∧ b = some (.complaint c)) ∨ w.Signed i c := by
  cases b <;> simp [after, Signed, eq_comm]

end World

namespace Ceremony

variable {S P : Type} [CurveScalar S] [CurvePoint P S] [Sha2]

/-! ### What a participant does -/

/-- A participant that has recorded its own package. -/
def start (c : Ceremony P S) (j : UInt32) : Participant P S where
  state := ((DkgState.new c.epoch c.threshold c.numParticipants).submitCommitment
    (c.contribution j).package).1
  tally := ComplaintTally.new c.threshold
  echoed := none
  round2 := none

/-- `agreed.confirm_all(peers, n)?` and `Aggregator::from_agreed(j, agreed)`. -/
def enterRound2 (c : Ceremony P S) (j : UInt32) (agreed : AgreedRound1 P)
    (peers : List EchoDigest) : Outcome Error (Dkg.Aggregator P S) := do
  agreed.confirmAll peers c.numParticipants.toNat
  Dkg.Aggregator.fromAgreed j agreed

/-- The complaint that a participant signs about the evidence it was handed. -/
def accuse (c : Ceremony P S) (j : UInt32) (evidence : BadSubShareEvidence) (rng : Rng S) :
    Outcome Error (Complaint P S × Rng S) :=
  Complaint.sign c.epoch c.roster.sessionId c.round j (.badSubShare evidence)
    (c.contribution j).identitySecret rng

/-- `Complaint::verify` under the accuser's roster key and against the confirmed set. -/
def judge (c : Ceremony P S) (p : Participant P S) (complaint : Complaint P S) :
    Outcome Error ComplaintVerdict := do
  let pubkey ← .okOr (c.identityKey complaint.accuserIndex)
    (.unknownParticipant complaint.accuserIndex)
  complaint.verify c.epoch c.roster.sessionId pubkey (p.round2.map Prod.fst)

variable [Snow]

/-- What a participant becomes, and what it publishes. -/
def act (c : Ceremony P S) (j : UInt32) (p : Participant P S) :
    Action P S → Participant P S × Option (Broadcast P S)
  | .submit package => ({ p with state := (p.state.submitCommitment package).1 }, none)
  | .disqualify d => ({ p with state := (p.state.disqualify d).1 }, none)
  | .applyTally =>
    ({ p with state := (p.state.disqualifyAll p.tally.disqualifiable).1 }, none)
  | .echo =>
    match p.state.agreedRound1 with
    | .ok agreed => ({ p with echoed := some agreed, round2 := none }, some (.echo agreed))
    | _ => (p, none)
  | .confirm peers =>
    match p.echoed with
    | none => (p, none)
    | some agreed =>
      match c.enterRound2 j agreed (peers.map Prod.snd) with
      | .ok aggregator => ({ p with round2 := some (agreed, aggregator) }, none)
      | _ => (p, none)
  | .openPackage sealedShare rng =>
    match p.round2 with
    | none => (p, none)
    | some (agreed, aggregator) =>
      match openSubshareAgreedWithEvidence (c.contribution j).x25519Secret j c.roster c.round
          sealedShare agreed with
      | .ok subshare =>
        ({ p with round2 := some (agreed, (aggregator.deliver agreed subshare).1) }, none)
      | .err (.badSubShare evidence) =>
        match c.accuse j evidence rng with
        | .ok (complaint, _) => (p, some (.complaint complaint))
        | _ => (p, none)
      | _ => (p, none)
  | .hear complaint =>
    match c.judge p complaint with
    | .ok verdict => ({ p with tally := (p.tally.record complaint.accuserIndex
        complaint.accusedIndex verdict).1 }, none)
    | _ => (p, none)

omit [Snow] in
/-- A threshold, and honest participants that each have dealt for it. -/
structure Valid (c : Ceremony P S) : Prop where
  threshold_ne_zero : c.threshold ≠ 0
  honest_subset : ∀ j ∈ c.honest, j ∈ participants c.numParticipants
  dealt : ∀ j ∈ c.honest, ∃ rng rng' rng'' : Rng S,
    Dkg.Dealer.new j c.threshold rng = .ok ((c.contribution j).dealer, rng') ∧
      (c.contribution j).dealer.round1Package c.epoch rng'
        = .ok ((c.contribution j).package, rng'')

/-! ### What can happen -/

/-- The world at the beginning. -/
def init (c : Ceremony P S) : World P S := ⟨c.start, []⟩

/-- The world after participant `j` has acted. -/
def next (c : Ceremony P S) (w : World P S) (j : UInt32) (a : Action P S) : World P S :=
  let r := c.act j (w.participant j) a
  w.after j r.1 r.2

omit [Snow] in
variable (S) in
/-- One digest from each of enough participants; those of honest ones are their own. -/
structure Relayed (c : Ceremony P S) (w : World P S) (peers : List (UInt32 × EchoDigest)) :
    Prop where
  nodup : (peers.map Prod.fst).Nodup
  subset : peers.map Prod.fst ⊆ participants c.numParticipants
  genuine : ∀ p ∈ peers, p.1 ∈ c.honest → ∃ agreed, w.Echoed p.1 agreed ∧ agreed.digest = p.2

/-- What the network may let happen. -/
def Allows (c : Ceremony P S) (w : World P S) : Action P S → Prop
  | .submit package => package.commitment.coefficients.length < 2 ^ 32
  | .confirm peers => c.Relayed S w peers
  | .hear complaint => ∀ pubkey, complaint.accuserIndex ∈ c.honest →
      c.identityKey complaint.accuserIndex = some pubkey →
      complaint.Authentic c.epoch c.roster.sessionId pubkey →
      ∃ signed, w.Signed complaint.accuserIndex signed ∧
        signed.content.body = complaint.content.body
  | _ => True

/-- An honest participant acts, in one of the ways that `T` gives it. -/
def StepOf (c : Ceremony P S) (T : Participant P S → Action P S → Prop) (w w' : World P S) :
    Prop :=
  ∃ j ∈ c.honest, ∃ a, c.Allows w a ∧ T (w.participant j) a ∧ w' = c.next w j a

/-- An honest participant acts. -/
def Step (c : Ceremony P S) : World P S → World P S → Prop := c.StepOf fun _ _ => True

/-- What the ceremony can come to. -/
def Reachable (c : Ceremony P S) (w : World P S) : Prop := Relation.ReflTransGen c.Step c.init w

lemma reachable_of_steps {c : Ceremony P S} {T : Participant P S → Action P S → Prop}
    {w : World P S}
    (h : Relation.ReflTransGen (c.StepOf T) c.init w) : c.Reachable w := by
  refine Relation.ReflTransGen.mono (fun w w' hstep => ?_) _ _ h
  obtain ⟨j, hj, a, hallowed, -, hw⟩ := hstep
  exact ⟨j, hj, a, hallowed, trivial, hw⟩

/-! ### What can become of a participant -/

/-- The cases of an action. -/
inductive Acts (c : Ceremony P S) (j : UInt32) (p : Participant P S) (a : Action P S) :
    Participant P S → Option (Broadcast P S) → Prop where
  | stay : Acts c j p a p none
  | calls (calls : List (DkgCall P S))
      (hsubmit : ∀ package, .submit package ∈ calls → a = .submit package) :
      Acts c j p a { p with state := Calls.run DkgState.call p.state calls } none
  | echo (agreed : AgreedRound1 P) (hagreed : p.state.agreedRound1 = .ok agreed) :
      Acts c j p a { p with echoed := some agreed, round2 := none } (some (.echo agreed))
  | confirm (peers : List (UInt32 × EchoDigest)) (agreed : AgreedRound1 P)
      (aggregator : Dkg.Aggregator P S) (ha : a = .confirm peers)
      (hechoed : p.echoed = some agreed)
      (henter : c.enterRound2 j agreed (peers.map Prod.snd) = .ok aggregator) :
      Acts c j p a { p with round2 := some (agreed, aggregator) } none
  | accept (agreed : AgreedRound1 P) (aggregator : Dkg.Aggregator P S) (subshare : SubShare S)
      (hround2 : p.round2 = some (agreed, aggregator)) :
      Acts c j p a { p with round2 := some (agreed, (aggregator.deliver agreed subshare).1) } none
  | accuse (sealedShare : SealedSubShare) (agreed : AgreedRound1 P)
      (aggregator : Dkg.Aggregator P S) (evidence : BadSubShareEvidence) (complaint : Complaint P S)
      (rng rng' : Rng S) (hround2 : p.round2 = some (agreed, aggregator))
      (hevidence : openSubshareAgreedWithEvidence (S := S) (c.contribution j).x25519Secret j
        c.roster c.round sealedShare agreed = .err (.badSubShare evidence))
      (hsign : c.accuse j evidence rng = .ok (complaint, rng')) :
      Acts c j p a p (some (.complaint complaint))
  | record (complaint : Complaint P S) (verdict : ComplaintVerdict) (ha : a = .hear complaint)
      (hjudge : c.judge p complaint = .ok verdict) :
      Acts c j p a { p with tally := (p.tally.recordTriple
        (complaint.accuserIndex, complaint.accusedIndex, verdict)).1 } none

omit [Snow] in
/-- The loop of disqualifications makes a list of calls. -/
lemma exists_disqualifyAll_eq (s : DkgState P) (ds : List UInt32) :
    ∃ done : List UInt32, (s.disqualifyAll ds).1
      = Calls.run DkgState.call s (done.map fun d => (.disqualify d : DkgCall P S)) := by
  induction ds generalizing s with
  | nil => exact ⟨[], rfl⟩
  | cons d ds ih =>
    rw [DkgState.disqualifyAll]
    split
    · obtain ⟨done, hdone⟩ := ih (s.disqualify d).1
      exact ⟨d :: done, hdone⟩
    · exact ⟨[d], rfl⟩
    · exact ⟨[d], rfl⟩

/-- Every action is one of the cases. -/
theorem acts_act (c : Ceremony P S) (j : UInt32) (p : Participant P S) (a : Action P S) :
    c.Acts j p a (c.act j p a).1 (c.act j p a).2 := by
  cases a with
  | submit package => exact .calls [.submit package] (by simp)
  | disqualify d => exact .calls [.disqualify d] (by simp)
  | applyTally =>
    obtain ⟨done, hdone⟩ := exists_disqualifyAll_eq (S := S) p.state p.tally.disqualifiable
    rw [act, hdone]
    exact .calls _ (by simp)
  | echo =>
    rw [act]
    split
    · next agreed hagreed => exact .echo agreed hagreed
    · exact .stay
  | confirm peers =>
    rw [act]
    split
    · exact .stay
    · next agreed hechoed =>
      split
      · next aggregator henter => exact .confirm peers agreed aggregator rfl hechoed henter
      · exact .stay
  | openPackage sealedShare rng =>
    rw [act]
    split
    · exact .stay
    · next agreed aggregator hround2 =>
      split
      · next subshare _ => exact .accept agreed aggregator subshare hround2
      · next evidence hevidence =>
        split
        · next complaint rng' hsign =>
          exact .accuse sealedShare agreed aggregator evidence complaint rng rng' hround2 hevidence
            hsign
        · exact .stay
      · exact .stay
  | hear complaint =>
    rw [act]
    split
    · next verdict hjudge => exact .record complaint verdict rfl hjudge
    · exact .stay

omit [Snow] in
/-- What comes out of a deal that follows the protocol. -/
structure Dealt (c : Ceremony P S) (j : UInt32) : Prop where
  honest : (c.contribution j).dealer.Honest
  index_eq : (c.contribution j).dealer.index = j
  length_eq : (c.contribution j).dealer.polynomial.length = c.threshold.toNat
  commitment_eq : (c.contribution j).package.commitment = (c.contribution j).dealer.commitment
  verify : (c.contribution j).package.verify c.epoch = .ok ()

omit [Snow] in
lemma dealt_of_new {c : Ceremony P S} {j : UInt32} (hj : j ≠ 0) (ht : c.threshold ≠ 0)
    {rng rng' rng'' : Rng S}
    (hnew : Dkg.Dealer.new j c.threshold rng = .ok ((c.contribution j).dealer, rng'))
    (hpackage : (c.contribution j).dealer.round1Package c.epoch rng'
      = .ok ((c.contribution j).package, rng'')) : c.Dealt j := by
  obtain ⟨dealer, hnew', hhonest, hindex, hpoly⟩ := Dkg.Dealer.new_eq_ok (P := P) hj ht rng
  obtain ⟨rfl, -⟩ := Prod.mk.inj (Outcome.ok.inj (hnew'.symm.trans hnew))
  obtain ⟨package, rng₁, hpackage', hcommit, hverify⟩ :=
    hhonest.verify_round1Package c.epoch rng'
  obtain ⟨rfl, -⟩ := Prod.mk.inj (Outcome.ok.inj (hpackage'.symm.trans hpackage))
  exact ⟨hhonest, hindex, by rw [hpoly, Stream'.length_take], hcommit, hverify⟩

omit [Snow] in
/-- Honest participants have dealt. -/
lemma Valid.honest_dealer {c : Ceremony P S} (h : c.Valid) {j : UInt32} (hj : j ∈ c.honest) :
    c.Dealt j := by
  obtain ⟨rng, rng', rng'', hnew, hpackage⟩ := h.dealt j hj
  exact dealt_of_new (mem_participants.mp (h.honest_subset j hj)).1 h.threshold_ne_zero hnew
    hpackage

/-- **What holds at the beginning and is kept in every case of every action holds
throughout.** -/
theorem Reachable.invariant {c : Ceremony P S} {I : World P S → Prop} (hinit : I c.init)
    (hstep : ∀ w j a p b, c.Reachable w → I w → j ∈ c.honest → c.Allows w a →
      c.Acts j (w.participant j) a p b → I (w.after j p b)) {w : World P S}
    (h : c.Reachable w) : I w := by
  induction h with
  | refl => exact hinit
  | tail hbefore hnext ih =>
    obtain ⟨j, hj, a, hallowed, -, rfl⟩ := hnext
    exact hstep _ j a _ _ hbefore ih hj hallowed (c.acts_act j _ a)

end Ceremony

/-! ### Three participants -/

section Three

open Reference

/-- What a participant brings that deals the polynomial `secret + slope x`. -/
def line (j : UInt32) (secret slope : ℕ) : Contribution Residue Residue where
  x25519Secret := Vector.replicate 32 j.toUInt8
  identitySecret := ((9 : ℕ) : Residue)
  dealer := ⟨j, [(secret : Residue), (slope : Residue)], (linePackage j secret slope).commitment⟩
  package := linePackage j secret slope

lemma dealt_line {j : UInt32} (hj : j ≠ 0) (secret slope : ℕ) :
    ∃ rng rng' rng'' : Rng Residue,
      Dkg.Dealer.new j 2 rng = .ok ((line j secret slope).dealer, rng') ∧
        (line j secret slope).dealer.round1Package 7 rng'
          = .ok ((line j secret slope).package, rng'') := by
  refine ⟨.cons (secret : Residue) (.cons (slope : Residue) (.const ((3 : ℕ) : Residue))),
    .const ((3 : ℕ) : Residue), _, ?_, rfl⟩
  have hne : [(secret : Residue), (slope : Residue)] ≠ [] := List.cons_ne_nil _ _
  obtain ⟨_, hcommit⟩ :=
    DealerCommitment.fromPolynomial_eq_ok (P := Residue) hj hne (by simp)
  have htwo : (2 : UInt32) ≠ 0 := by decide
  rw [Dkg.Dealer.new, Outcome.refuse_of_neg hj, Outcome.ok_bind, Outcome.refuse_of_neg htwo,
    Outcome.ok_bind]
  have hdraw : Rng.randoms (2 : UInt32).toNat (.cons (secret : Residue) (.cons (slope : Residue)
      (.const ((3 : ℕ) : Residue)))) = ([(secret : Residue), (slope : Residue)], .const _) := rfl
  rw [hdraw]
  simp only [hcommit]
  rfl

/-- The roster of the participants 1, 2 and 3. -/
def rosterOfThree : SealedRoster where
  participants := [(1, publicOf (Vector.replicate 32 1)), (2, publicOf (Vector.replicate 32 2)),
    (3, publicOf (Vector.replicate 32 3))]
  sessionId := Vector.replicate 32 0
  valid := ⟨by decide, by decide, by decide⟩
  sorted := by decide

/-- The participants 1, 2 and 3, of whom 3 does not follow the protocol. -/
def three : Ceremony Residue Residue where
  epoch := 7
  threshold := 2
  numParticipants := 3
  roster := rosterOfThree
  round := 2
  identityKey j := if j ∈ participants 3 then some (((9 : ℕ) : Residue) • generator) else none
  honest := {1, 2}
  contribution j := if j = 1 then line 1 5 1 else if j = 2 then line 2 6 2 else line 3 7 3

lemma mem_participants_three {j : UInt32} :
    j ∈ participants three.numParticipants ↔ j = 1 ∨ j = 2 ∨ j = 3 := by
  rw [show participants three.numParticipants = [1, 2, 3] from rfl]
  simp

lemma mem_honest_three {j : UInt32} (hj : j ∈ three.honest) : j = 1 ∨ j = 2 := by
  simpa [three] using hj

lemma valid_three : three.Valid where
  threshold_ne_zero := show (2 : UInt32) ≠ 0 by decide
  honest_subset j hj := by
    rcases mem_honest_three hj with rfl | rfl
    · exact mem_participants_three.mpr (.inl rfl)
    · exact mem_participants_three.mpr (.inr (.inl rfl))
  dealt j hj := by
    rcases mem_honest_three hj with rfl | rfl
    · exact dealt_line (by decide) 5 1
    · exact dealt_line (by decide) 6 2

end Three

end Frostito
