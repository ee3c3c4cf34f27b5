import Frostito.Nested.Commit
import Frostito.Reference.Backend

/-!
# What a precommitment leaves to the holder that reveals last

Nothing: the hash input of the first round determines the commitment, so two reveals that the
same precommitments accept are one, or their inputs are a collision.  The pair that the outer
protocol is shown does not depend on the order of the reveals, and therefore not on who reveals
last.
-/

namespace Frostito

section Reveal

variable {S P : Type} [CurveScalar S] [CurvePoint P S]

/-- What `inner_precommit` hashes. -/
def precommitInput (c : InnerCommitments P) : Bytes :=
  innerPrecommitDomain ++ u32ToLeBytes c.holderIndex ++ c.sessionId.toList ++
    CurvePoint.compress c.hidingCommitment ++ CurvePoint.compress c.bindingCommitment

/-- All fields have their places. -/
lemma precommitInput_injective [LawfulCompress P] :
    Function.Injective (precommitInput : InnerCommitments P → Bytes) := by
  intro c c' h
  have hpoint : ∀ p p' : P, (CurvePoint.compress p).length = (CurvePoint.compress p').length :=
    fun p p' => by rw [LawfulCompress.length_compress, LawfulCompress.length_compress]
  obtain ⟨h, hbinding⟩ := List.append_inj' h (hpoint _ _)
  obtain ⟨h, hhiding⟩ := List.append_inj' h (hpoint _ _)
  obtain ⟨h, hsession⟩ := List.append_inj' h (by simp)
  have hholder := u32ToLeBytes_inj (List.append_cancel_left h)
  cases c
  cases c'
  simp only [InnerCommitments.mk.injEq]
  exact ⟨hholder, Vector.toList_inj.mp hsession, LawfulCompress.compress_injective hhiding,
    LawfulCompress.compress_injective hbinding⟩

variable [Sha2]

/-- Two reveals with distinct inputs and one precommitment. -/
def PrecommitCollision (c c' : InnerCommitments P) : Prop :=
  precommitInput c ≠ precommitInput c' ∧
    sha512Trunc (precommitInput c) = sha512Trunc (precommitInput c')

variable {sessionId : Vector UInt8 32} {precommits : List (UInt32 × Vector UInt8 32)}
  {cs cs' : List (InnerCommitments P)} {pair pair' : P × P}

/-- Two reveals of one holder are the same, or a collision. -/
lemma Revealed.eq_or_collision [LawfulCompress P] {c c' : InnerCommitments P}
    (h : Revealed sessionId precommits c) (h' : Revealed sessionId precommits c')
    (hholder : c.holderIndex = c'.holderIndex) : c = c' ∨ PrecommitCollision c c' := by
  have hdigest : innerPrecommit c = innerPrecommit c' := by
    have hlookup := h.precommit_eq.symm.trans (hholder ▸ h'.precommit_eq)
    exact Option.some.inj hlookup
  by_cases heq : precommitInput c = precommitInput c'
  · exact .inl (precommitInput_injective heq)
  · exact .inr ⟨heq, hdigest⟩

omit [CurvePoint P S] [Sha2] in
/-- Lists over the same holders, each of them once, that agree holder by holder. -/
lemma perm_of_holders (hnd : (cs.map InnerCommitments.holderIndex).Nodup)
    (hnd' : (cs'.map InnerCommitments.holderIndex).Nodup)
    (hholders : ∀ k, k ∈ cs.map InnerCommitments.holderIndex ↔
      k ∈ cs'.map InnerCommitments.holderIndex)
    (hsame : ∀ c ∈ cs, ∀ c' ∈ cs', c.holderIndex = c'.holderIndex → c = c') : cs.Perm cs' := by
  refine (List.perm_ext_iff_of_nodup hnd.of_map hnd'.of_map).mpr fun c => ⟨fun hc => ?_,
    fun hc => ?_⟩
  · obtain ⟨c', hc', hkey⟩ := List.mem_map.mp ((hholders _).mp (List.mem_map_of_mem hc))
    rwa [hsame c hc c' hc' hkey.symm]
  · obtain ⟨c', hc', hkey⟩ := List.mem_map.mp ((hholders _).mpr (List.mem_map_of_mem hc))
    rwa [← hsame c' hc' c hc hkey]

/-- **Commit–reveal is binding.** -/
theorem commit_reveal_binding [LawfulCompress P] (sessionId : Vector UInt8 32)
    (precommits : List (UInt32 × Vector UInt8 32)) :
    (∀ cs cs' : List (InnerCommitments P),
      (∀ k, k ∈ cs.map InnerCommitments.holderIndex ↔
        k ∈ cs'.map InnerCommitments.holderIndex) →
      ∀ pair pair' : P × P, aggregateInnerCommitmentPair sessionId precommits cs = .ok pair →
        aggregateInnerCommitmentPair sessionId precommits cs' = .ok pair' →
        ((∀ c ∈ cs, ∀ c' ∈ cs', c.holderIndex = c'.holderIndex → c = c') ∧ pair = pair') ∨
          ∃ c ∈ cs, ∃ c' ∈ cs', PrecommitCollision c c') ∧
    ∀ cs : List (InnerCommitments P),
      (∃ pair, aggregateInnerCommitmentPair sessionId precommits cs = .ok pair) ↔
        cs ≠ [] ∧ (∀ c ∈ cs, c.holderIndex ≠ 0) ∧ (cs.map InnerCommitments.holderIndex).Nodup ∧
        (∀ c ∈ cs, c.sessionId = sessionId) ∧
        ∀ c ∈ cs, ∃ precommit, lookup precommits c.holderIndex = some precommit ∧
          verifyInnerPrecommit precommit c = true := by
  refine ⟨fun cs cs' hholders pair pair' h h' => ?_, fun cs => ⟨?_, ?_⟩⟩
  · obtain ⟨-, hrevealed, hnd, rfl⟩ := aggregateInnerCommitmentPair_eq_ok_iff.mp h
    obtain ⟨-, hrevealed', hnd', rfl⟩ := aggregateInnerCommitmentPair_eq_ok_iff.mp h'
    by_cases hcollision : ∃ c ∈ cs, ∃ c' ∈ cs', PrecommitCollision c c'
    · exact .inr hcollision
    · have hsame : ∀ c ∈ cs, ∀ c' ∈ cs', c.holderIndex = c'.holderIndex → c = c' := by
        intro c hc c' hc' hholder
        rcases (hrevealed c hc).eq_or_collision (hrevealed' c' hc') hholder with heq | hcoll
        · exact heq
        · exact absurd ⟨c, hc, c', hc', hcoll⟩ hcollision
      have hperm := perm_of_holders hnd hnd' hholders hsame
      exact .inl ⟨hsame, Prod.ext (hperm.map _).sum_eq (hperm.map _).sum_eq⟩
  · rintro ⟨pair, h⟩
    obtain ⟨hne, hrevealed, hnd, -⟩ := aggregateInnerCommitmentPair_eq_ok_iff.mp h
    exact ⟨hne, fun c hc => (hrevealed c hc).ne_zero, hnd,
      fun c hc => (hrevealed c hc).sessionId_eq,
      fun c hc => ⟨_, (hrevealed c hc).precommit_eq, verifyInnerPrecommit_iff.mpr rfl⟩⟩
  · rintro ⟨hne, h0, hnd, hsession, hprecommit⟩
    refine ⟨_, aggregateInnerCommitmentPair_eq_ok_iff.mpr ⟨hne, fun c hc => ?_, hnd, rfl⟩⟩
    obtain ⟨precommit, hlookup, hverify⟩ := hprecommit c hc
    exact ⟨h0 c hc, hsession c hc, by rw [hlookup, verifyInnerPrecommit_iff.mp hverify]⟩

end Reveal

section Two

open Reference

/-- What holder `k` reveals in some round. -/
def someReveal (k : UInt32) : InnerCommitments Residue :=
  ⟨k, Vector.replicate 32 0, fromU32 (k + 2), fromU32 (k + 5)⟩

/-- Two holders are accepted in either order. -/
theorem commit_reveal_binding_two : ∃ pair,
    aggregateInnerCommitmentPair (Vector.replicate 32 0)
      [(1, innerPrecommit (someReveal 1)), (2, innerPrecommit (someReveal 2))]
      [someReveal 2, someReveal 1] = .ok pair := by
  refine ((commit_reveal_binding (P := Residue) _ _).2 _).mpr
    ⟨List.cons_ne_nil _ _, by decide, by decide, by decide, fun c hc => ?_⟩
  rcases List.mem_pair.mp hc with rfl | rfl
  · exact ⟨_, rfl, verifyInnerPrecommit_iff.mpr rfl⟩
  · exact ⟨_, rfl, verifyInnerPrecommit_iff.mpr rfl⟩

end Two

end Frostito
