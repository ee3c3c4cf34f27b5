import Frostito.Dkg.Complaint

/-!
# Echo agreement rules out a split key

Two participants whose echoes agree hold the same agreed set, derive the same keys and judge
every complaint alike, or their echo encodings collide under the truncated hash.
-/

namespace Frostito

section Agreement

variable {S P : Type} [CurveScalar S] [CurvePoint P S] [Sha2]

/-- **Echo agreement.**  Of any two reachable states, with whatever parameters and after
whatever calls, whose echoes agree: either the echo encodings are two byte strings with one
digest, or the two agree on the parameters, the dealers, the disqualified and the
commitments, hence on every derived value and on every verdict. -/
theorem agree_of_confirm [LawfulCompress P] {epoch epoch' : UInt64}
    {threshold threshold' n n' : UInt32} {calls calls' : List (DkgCall P S)}
    {agreed agreed' : AgreedRound1 P}
    (ha : (DkgState.reach epoch threshold n calls).agreedRound1 = .ok agreed)
    (ha' : (DkgState.reach epoch' threshold' n' calls').agreedRound1 = .ok agreed')
    (hconfirm : agreed.confirm agreed'.digest = .ok ()) :
    (echoPreimage epoch threshold n agreed.commitments
        ≠ echoPreimage epoch' threshold' n' agreed'.commitments ∧
      sha512Trunc (echoPreimage epoch threshold n agreed.commitments)
        = sha512Trunc (echoPreimage epoch' threshold' n' agreed'.commitments)) ∨
    (agreed = agreed' ∧ (epoch, threshold, n) = (epoch', threshold', n') ∧
      (DkgState.reach epoch threshold n calls).qualifiedDealers
        = (DkgState.reach epoch' threshold' n' calls').qualifiedDealers ∧
      (DkgState.reach epoch threshold n calls).disqualified
        = (DkgState.reach epoch' threshold' n' calls').disqualified ∧
      (DkgState.reach epoch threshold n calls).commitments
        = (DkgState.reach epoch' threshold' n' calls').commitments ∧
      (DkgState.reach epoch threshold n calls).deriveGroupKey
        = (DkgState.reach epoch' threshold' n' calls').deriveGroupKey ∧
      (∀ j, (DkgState.reach epoch threshold n calls).deriveVerificationShare j
        = (DkgState.reach epoch' threshold' n' calls').deriveVerificationShare j) ∧
      ∀ (c : Complaint P S) (sessionId : Vector UInt8 32) (pubkey : P),
        c.verify agreed.epoch sessionId pubkey (some agreed)
          = c.verify agreed'.epoch sessionId pubkey (some agreed')) := by
  have hinv := DkgState.inv_reach (P := P) epoch threshold n calls
  have hinv' := DkgState.inv_reach (P := P) epoch' threshold' n' calls'
  have hparams := DkgState.params_reach (P := P) epoch threshold n calls
  have hparams' := DkgState.params_reach (P := P) epoch' threshold' n' calls'
  rcases hinv.eq_of_confirm hinv' ha ha' hconfirm with hcollision | hstate
  · obtain ⟨hne, heq⟩ := hcollision
    simp only [DkgState.params, Prod.mk.injEq] at hparams hparams'
    obtain ⟨hepoch, hthr, hn⟩ := hparams
    obtain ⟨hepoch', hthr', hn'⟩ := hparams'
    rw [hepoch, hthr, hn, hepoch', hthr', hn'] at hne heq
    exact .inl ⟨hne, heq⟩
  · -- everything else is a function of the state
    rw [hstate] at hparams ha ⊢
    have hagreed : agreed = agreed' := Outcome.ok.inj (ha.symm.trans ha')
    rw [hagreed]
    exact .inr ⟨rfl, hparams.symm.trans hparams', rfl, rfl, rfl, rfl, fun _ => rfl,
      fun _ _ _ => rfl⟩

end Agreement

open Reference in
/-- A participant that was also asked to disqualify somebody outside the ceremony agrees
with one that was not, and derives the same key. -/
theorem agree_packages :
    (DkgState.reach 7 2 2 (packages.map .submit)).deriveGroupKey
      = (DkgState.reach 7 2 2 (.disqualify 9 :: packages.map .submit)).deriveGroupKey := by
  have hnew : (DkgState.call (DkgState.new 7 2 2)
      (.disqualify 9 : DkgCall Residue Residue)).1 = DkgState.new 7 2 2 := rfl
  have hother : (DkgState.reach 7 2 2 (.disqualify 9 :: packages.map .submit)).agreedRound1
      = .ok agreed := by
    rw [DkgState.reach, Calls.run_cons, hnew]
    exact agreedRound1_packages
  rcases agree_of_confirm agreedRound1_packages hother
    (AgreedRound1.confirm_eq_ok_iff.mpr rfl) with ⟨hne, -⟩ | ⟨-, -, -, -, -, hkey, -⟩
  · exact absurd rfl hne
  · exact hkey

end Frostito
