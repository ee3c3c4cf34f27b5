import Frostito.Dkg.State
import Frostito.Lib.Sorted
import Frostito.Reference.Backend

/-!
# The echo round over the round-1 set

After round 1 every participant publishes a digest of the whole commitment set it saw, and
round 2 starts only when the digests agree.  The digest is taken over an encoding that
determines the ceremony's parameters and the set, and in a complete reachable state these
determine the state.  Two participants whose digests agree are in the same state, or their
encodings are a collision of the hash.
-/

namespace Frostito

/-- Domain tag for the round-1 echo digest. -/
def echoDigestDomain : Bytes := "frostito/dkg-round1-echo/v1".toUTF8.toList

/-- A participant's view of the whole round-1 commitment set, as one hash. -/
structure EchoDigest where
  bytes : Vector UInt8 32
deriving DecidableEq

/-- A round-1 commitment set that every participant has agreed on. -/
structure AgreedRound1 (P : Type) where
  epoch : UInt64
  threshold : UInt32
  digest : EchoDigest
  /-- Ascending by dealer index. -/
  commitments : List (DealerCommitment P)

section Echo

variable {S P : Type}

/-- `sort_by_key(|c| c.dealer_index)`. -/
def sortByDealer (commitments : List (DealerCommitment P)) : List (DealerCommitment P) :=
  commitments.insertionSort fun a b => a.dealerIndex ≤ b.dealerIndex

namespace AgreedRound1

/-- The agreed dealer set, ascending. -/
def dealerSet (agreed : AgreedRound1 P) : List UInt32 :=
  agreed.commitments.map DealerCommitment.dealerIndex

/-- Dealer `index`'s commitment, from the agreed set. -/
def commitment (agreed : AgreedRound1 P) (dealerIndex : UInt32) :
    Outcome Error (DealerCommitment P) :=
  .okOr (agreed.commitments.find? fun c => c.dealerIndex = dealerIndex)
    (.unexpectedDealer dealerIndex)

/-- Compare one peer's echoed digest against this one. -/
def confirm (agreed : AgreedRound1 P) (peer : EchoDigest) : Outcome Error Unit :=
  if Framing.diff agreed.digest.bytes.toList peer.bytes.toList = 0 then
    .ok ()
  else
    .err .echoMismatch

/-- Confirm every peer's echo, and that there are enough of them. -/
def confirmAll (agreed : AgreedRound1 P) (peers : List EchoDigest) (expected : ℕ) :
    Outcome Error Unit := do
  .refuse (peers.length < expected) (.insufficientContributions peers.length expected)
  peers.forM agreed.confirm

lemma commitment_eq_ok {agreed : AgreedRound1 P} {i : UInt32} {c : DealerCommitment P}
    (h : agreed.commitment i = .ok c) : c ∈ agreed.commitments ∧ c.dealerIndex = i := by
  have hfind := Outcome.okOr_eq_ok_iff.mp h
  exact ⟨List.mem_of_find?_eq_some hfind, by simpa using List.find?_some hfind⟩

lemma confirm_eq_ok_iff {agreed : AgreedRound1 P} {peer : EchoDigest} :
    agreed.confirm peer = .ok () ↔ agreed.digest = peer := by
  have hlen : agreed.digest.bytes.toList.length = peer.bytes.toList.length := by simp
  have hdigest : agreed.digest = peer ↔ agreed.digest.bytes = peer.bytes := by
    cases agreed.digest
    cases peer
    simp
  rw [hdigest, ← Vector.toList_inj, ← Framing.diff_eq_zero_iff hlen, confirm]
  split <;> simp_all

/-- Confirmation of all echoes: enough of them, and every one the participant's own. -/
theorem confirmAll_eq_ok_iff {agreed : AgreedRound1 P} {peers : List EchoDigest} {n : ℕ} :
    agreed.confirmAll peers n = .ok () ↔ n ≤ peers.length ∧ ∀ d ∈ peers, d = agreed.digest := by
  simp only [confirmAll, Outcome.bind_eq_ok_iff, Outcome.refuse_eq_ok_iff, not_lt,
    Outcome.forM_eq_ok_iff, confirm_eq_ok_iff]
  constructor
  · rintro ⟨_, hlen, hall⟩
    exact ⟨hlen, fun d hd => (hall d hd).symm⟩
  · rintro ⟨hlen, hall⟩
    exact ⟨(), hlen, fun d hd => (hall d hd).symm⟩

end AgreedRound1

variable [CurveScalar S] [CurvePoint P S]

/-- One dealer's entry in the echo encoding. -/
def echoEntry (c : DealerCommitment P) : Bytes :=
  u32ToLeBytes c.dealerIndex ++ (lenToLeBytes c.toBytes.length ++ c.toBytes)

/-- What the echo digest is taken over. -/
def echoPreimage (epoch : UInt64) (threshold numParticipants : UInt32)
    (commitments : List (DealerCommitment P)) : Bytes :=
  let sorted := sortByDealer commitments
  echoDigestDomain ++ (u64ToLeBytes epoch ++ (u32ToLeBytes threshold ++
    (u32ToLeBytes numParticipants ++ (u32ToLeBytes (UInt32.ofNat sorted.length) ++
      sorted.flatMap echoEntry))))

/-- The canonical round-1 echo digest, for callers that hold the commitment set outside a
`DkgState`. -/
def round1EchoDigest [Sha2] (epoch : UInt64) (threshold numParticipants : UInt32)
    (commitments : List (DealerCommitment P)) : EchoDigest :=
  ⟨sha512Trunc (echoPreimage epoch threshold numParticipants commitments)⟩

/-- The agreed round-1 set and this participant's echo digest over it. -/
def DkgState.agreedRound1 [Sha2] (s : DkgState P) : Outcome Error (AgreedRound1 P) := do
  s.requireComplete
  let commitments := sortByDealer s.commitments.reduceOption
  let digest := round1EchoDigest s.epoch s.threshold s.numParticipants commitments
  .ok ⟨s.epoch, s.threshold, digest, commitments⟩

/-! ### The encoding -/

lemma selfDelimiting_echoEntry [LawfulCompress P] :
    Framing.SelfDelimiting (fun _ => True) (echoEntry : DealerCommitment P → Bytes) := by
  intro c _ c' _ x y h
  simp only [echoEntry, List.append_assoc] at h
  obtain ⟨-, hbytes⟩ := selfDelimiting_u32 trivial trivial h
  rw [← List.append_assoc, ← List.append_assoc, lenToLeBytes_append c.length_toBytes_lt,
    lenToLeBytes_append c'.length_toBytes_lt] at hbytes
  obtain ⟨hc, hrest⟩ := Framing.selfDelimiting_lengthPrefixed c.length_toBytes_lt
    c'.length_toBytes_lt hbytes
  exact ⟨DealerCommitment.toBytes_injective hc, hrest⟩

/-- The encoding determines the parameters and, for fewer than `2 ^ 32` commitments, the
sorted commitments. -/
theorem echoPreimage_inj [LawfulCompress P] {epoch epoch' : UInt64} {t t' n n' : UInt32}
    {cs cs' : List (DealerCommitment P)} (hcs : cs.length < 2 ^ 32) (hcs' : cs'.length < 2 ^ 32)
    (h : echoPreimage epoch t n cs = echoPreimage epoch' t' n' cs') :
    (epoch, t, n) = (epoch', t', n') ∧ sortByDealer cs = sortByDealer cs' := by
  have hlen : (sortByDealer cs).length < 2 ^ 32 := by simpa [sortByDealer] using hcs
  have hlen' : (sortByDealer cs').length < 2 ^ 32 := by simpa [sortByDealer] using hcs'
  obtain ⟨hepoch, hafter⟩ := selfDelimiting_u64 trivial trivial (List.append_cancel_left h)
  obtain ⟨ht, hafter⟩ := selfDelimiting_u32 trivial trivial hafter
  obtain ⟨hn, hafter⟩ := selfDelimiting_u32 trivial trivial hafter
  obtain ⟨hcount, hentries⟩ := selfDelimiting_u32 trivial trivial hafter
  have hcount' := congrArg UInt32.toNat hcount
  rw [UInt32.toNat_ofNat_of_lt' hlen, UInt32.toNat_ofNat_of_lt' hlen'] at hcount'
  exact ⟨by rw [hepoch, ht, hn], (selfDelimiting_echoEntry.flatMap (fun _ _ => trivial)
    (fun _ _ => trivial) hcount' (congrArg (· ++ []) hentries)).1⟩

namespace DkgState

variable [Sha2] {s s' : DkgState P}

/-! ### The agreed set of a reachable state -/

/-- The commitments of a reachable state are sorted as they lie. -/
lemma Inv.sortByDealer_commitments (h : s.Inv) :
    sortByDealer s.commitments.reduceOption = s.commitments.reduceOption :=
  List.Pairwise.insertionSort_eq (h.pairwise_commitments.imp fun hlt => UInt32.le_of_lt hlt)

/-- The set a complete reachable state agrees on. -/
theorem Inv.agreedRound1_eq_ok_iff (h : s.Inv) {agreed : AgreedRound1 P} :
    s.agreedRound1 = .ok agreed ↔ s.isComplete = true ∧
      agreed = ⟨s.epoch, s.threshold, round1EchoDigest s.epoch s.threshold s.numParticipants
        s.commitments.reduceOption, s.commitments.reduceOption⟩ := by
  rw [agreedRound1, Outcome.bind_eq_ok_iff, h.sortByDealer_commitments]
  constructor
  · rintro ⟨_, hc, heq⟩
    exact ⟨requireComplete_eq_ok_iff.mp hc, (Outcome.ok.inj heq).symm⟩
  · rintro ⟨hc, rfl⟩
    exact ⟨(), requireComplete_eq_ok_iff.mpr hc, rfl⟩

lemma Inv.length_reduceOption_lt (h : s.Inv) : s.commitments.reduceOption.length < 2 ^ 32 := by
  have hle := List.reduceOption_length_le s.commitments
  rw [h.length_commitments] at hle
  exact hle.trans_lt s.numParticipants.toNat_lt

/-- In complete states, the parameters and the commitments determine the state. -/
theorem Inv.eq_of_reduceOption_eq (h : s.Inv) (h' : s'.Inv) (hc : s.isComplete = true)
    (hc' : s'.isComplete = true) (hparams : s.params = s'.params)
    (hcs : s.commitments.reduceOption = s'.commitments.reduceOption) : s = s' := by
  have hepoch := congrArg Prod.fst hparams
  have hthreshold := congrArg (fun p => p.2.1) hparams
  have hn : s.numParticipants = s'.numParticipants := congrArg (fun p => p.2.2) hparams
  have hslots : s.commitments = s'.commitments := by
    refine h.indexed.eq_of_reduceOption_eq h'.indexed ?_ hcs
    rw [h.length_commitments, h'.length_commitments, hn]
  have hdisq : s.disqualified = s'.disqualified := by
    refine Sorted.eq_of_mem_iff h.sorted h'.sorted h.nodup h'.nodup fun i => ?_
    rw [h.mem_disqualified_iff hc, h'.mem_disqualified_iff hc', hn, qualifiedDealers,
      qualifiedDealers, hcs]
  cases s
  cases s'
  simp_all [params]

/-- When every participant submits a package that verifies, they agree on all of them. -/
theorem agreedRound1_of_submit_all {epoch : UInt64} {threshold n : UInt32}
    {packages : List (Round1Package P S)} (hn : packages.length = n.toNat)
    (hok : InOrder epoch threshold packages) :
    (reach epoch threshold n (packages.map .submit)).agreedRound1 = .ok ⟨epoch, threshold,
      round1EchoDigest epoch threshold n (packages.map Round1Package.commitment),
      packages.map Round1Package.commitment⟩ := by
  have hinv := inv_reach epoch threshold n (packages.map DkgCall.submit)
  have hslots : (packages.map fun package => some package.commitment).reduceOption
      = packages.map Round1Package.commitment := by
    simp [List.reduceOption, List.filterMap_map]
  refine hinv.agreedRound1_eq_ok_iff.mpr ?_
  rw [isComplete_iff, qualifiedDealers, reach_submit_all hn.le hok, hn, Nat.sub_self,
    List.replicate_zero, List.append_nil, hslots]
  exact ⟨by simp [hn], rfl⟩

/-- **Two participants whose echoes agree are in the same state, unless the hash
collides.** -/
theorem Inv.eq_of_confirm [LawfulCompress P] (h : s.Inv) (h' : s'.Inv)
    {agreed agreed' : AgreedRound1 P} (ha : s.agreedRound1 = .ok agreed)
    (ha' : s'.agreedRound1 = .ok agreed') (hconf : agreed.confirm agreed'.digest = .ok ()) :
    (echoPreimage s.epoch s.threshold s.numParticipants agreed.commitments
        ≠ echoPreimage s'.epoch s'.threshold s'.numParticipants agreed'.commitments ∧
      sha512Trunc (echoPreimage s.epoch s.threshold s.numParticipants agreed.commitments)
        = sha512Trunc (echoPreimage s'.epoch s'.threshold s'.numParticipants
          agreed'.commitments)) ∨
    s = s' := by
  obtain ⟨hc, rfl⟩ := h.agreedRound1_eq_ok_iff.mp ha
  obtain ⟨hc', rfl⟩ := h'.agreedRound1_eq_ok_iff.mp ha'
  have hdigest := congrArg EchoDigest.bytes (AgreedRound1.confirm_eq_ok_iff.mp hconf)
  by_cases heq : echoPreimage s.epoch s.threshold s.numParticipants s.commitments.reduceOption
      = echoPreimage s'.epoch s'.threshold s'.numParticipants s'.commitments.reduceOption
  · obtain ⟨hparams, hsorted⟩ :=
      echoPreimage_inj h.length_reduceOption_lt h'.length_reduceOption_lt heq
    rw [h.sortByDealer_commitments, h'.sortByDealer_commitments] at hsorted
    exact .inr (h.eq_of_reduceOption_eq h' hc hc' hparams hsorted)
  · exact .inl ⟨heq, hdigest⟩

end DkgState

end Echo

/-! ### A round on explicit inputs -/

namespace Reference

/-- The package of an honest dealer in epoch 7, with a polynomial of degree one. -/
def linePackage (dealerIndex : UInt32) (secret slope : ℕ) : Round1Package Residue Residue :=
  .ofPolynomial dealerIndex 7 (secret : Residue) [(slope : Residue)] (by simp)
    (Stream'.const ((3 : ℕ) : Residue))

/-- Two honest dealers, with the polynomials `5 + x` and `6 + 2x`. -/
def packages : List (Round1Package Residue Residue) := [linePackage 1 5 1, linePackage 2 6 2]

lemma inOrder_packages : DkgState.InOrder 7 2 packages := by
  simp only [DkgState.InOrder, packages, linePackage, List.zipIdx_cons, List.zipIdx_nil,
    List.forall_mem_cons, Round1Package.verify_ofPolynomial]
  exact ⟨⟨rfl, trivial, rfl⟩, ⟨rfl, trivial, rfl⟩, by simp⟩

/-- What the two dealers agree on. -/
def agreed : AgreedRound1 Residue :=
  ⟨7, 2, round1EchoDigest 7 2 2 (packages.map Round1Package.commitment),
    packages.map Round1Package.commitment⟩

lemma agreedRound1_packages :
    (DkgState.reach 7 2 2 (packages.map .submit)).agreedRound1 = .ok agreed :=
  DkgState.agreedRound1_of_submit_all rfl inOrder_packages

end Reference

end Frostito
