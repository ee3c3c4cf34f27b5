import Frostito.Nested.Flat
import Frostito.Signer.Spent

/-!
# What a bound request authorises

The encoding of a context can be told apart from whatever follows it, so no encoding starts
with another and contexts in one buffer are read back in one way.  No layer changes the bytes
that a holder compares with the package: whatever is stacked on it, a bound request is answered
only on the package that carries the encoding of its context, and a package carries one.
-/

namespace Frostito

/-! ### Contexts in a buffer -/

namespace SigningContext

/-- `encode`, appending into an existing buffer. -/
def encodeInto (ctx : SigningContext) (out : Bytes) : Bytes :=
  out ++ lenToLeBytes signingContextDomain.length ++ signingContextDomain ++
    u64ToLeBytes ctx.epoch ++ ctx.manifestHash.toList ++ lenToLeBytes ctx.message.length ++
    ctx.message

lemma encodeInto_eq (ctx : SigningContext) (out : Bytes) :
    ctx.encodeInto out = out ++ ctx.encode := by
  simp only [encodeInto, encode, List.append_assoc]

lemma encode_ne_nil (ctx : SigningContext) : ctx.encode ≠ [] := by
  intro h
  have hlen := congrArg List.length h
  simp only [encode, List.length_append, lenToLeBytes, length_u64ToLeBytes, List.length_nil]
    at hlen
  omega

/-- Contexts appended to a buffer, one after the other. -/
def encodeAll (ctxs : List SigningContext) (out : Bytes) : Bytes :=
  ctxs.foldl (fun out ctx => ctx.encodeInto out) out

lemma encodeAll_eq (ctxs : List SigningContext) (out : Bytes) :
    encodeAll ctxs out = out ++ ctxs.flatMap encode := by
  induction ctxs generalizing out with
  | nil => simp [encodeAll]
  | cons ctx ctxs ih =>
    have hcons : encodeAll (ctx :: ctxs) out = encodeAll ctxs (ctx.encodeInto out) := rfl
    rw [hcons, ih, encodeInto_eq, List.flatMap_cons, List.append_assoc]

end SigningContext

/-! ### Stacks -/

section Stack

variable {P S : Type} [CurveScalar S] [CurvePoint P S] [Sha2]

/-- A holder, or a stack of `Spend` layers over one, each with a store of its own. -/
inductive HolderStack (suite : Ciphersuite P S) : (σ : Type) → [Signer suite σ] → Prop
  | holder : HolderStack suite (Holder suite)
  | spend {T σ : Type} [SpentSessions T] [Signer suite σ] :
    HolderStack suite σ → HolderStack suite (Spending T σ)

variable {suite : Ciphersuite P S} {σ : Type} [Signer suite σ]

omit [CurvePoint P S] [Sha2] in
/-- A layer answers only what the signer inside answers. -/
lemma Spending.sign_inner_of_sign {T : Type} [SpentSessions T] {signer : Spending T σ}
    {req : SignRequest P S} {sig : InnerSignatureShare S}
    (h : (Signer.sign suite signer req).2 = .ok sig) :
    (Signer.sign suite signer.inner req).2 = .ok sig := by
  simp only [Signer.sign] at h
  split at h
  · exact h
  · cases h
  · cases h

/-- A holder answers only on the package of the approved message, however it is wrapped. -/
theorem message_of_sign (hstack : HolderStack suite σ) (signer : σ) {req : SignRequest P S}
    {sig : InnerSignatureShare S} (h : (Signer.sign suite signer req).2 = .ok sig) :
    req.nested.package.message = req.message := by
  induction hstack with
  | holder =>
    have hsign : innerSign suite req.nonces signer.share signer.verifyingKey req.message req.nested
        = .ok sig := h
    rw [innerSign, Outcome.bind_eq_ok_iff] at hsign
    obtain ⟨_, hmessage, -⟩ := hsign
    exact not_not.mp (Outcome.refuse_eq_ok_iff.mp hmessage)
  | spend _ ih => exact ih signer.inner (Spending.sign_inner_of_sign h)

/-- The one whose encoding the package carries. -/
lemma encode_of_sign_bound (hstack : HolderStack suite σ) (signer : σ) {nonces : InnerNonces S}
    {ctx : SigningContext} {nested : NestedSigningRequest P S} {sig : InnerSignatureShare S}
    (h : (Signer.sign suite signer (.bound nonces ctx nested)).2 = .ok sig) :
    ctx.encode = nested.package.message :=
  (message_of_sign hstack signer h).symm

/-- **A bound request authorises one context.**  No encoding starts with another; a buffer of
contexts is read in one way; a stack answers a bound request only on the package of its
encoding, and no package is answered for two contexts, by whichever stacks they are asked. -/
theorem bound_authorises_one (suite : Ciphersuite P S) :
    (∀ ctx ctx' : SigningContext, ctx.message.length < 2 ^ 64 → ctx'.message.length < 2 ^ 64 →
      ctx ≠ ctx' → ¬ctx.encode <+: ctx'.encode) ∧
    (∀ (out : Bytes) (ctxs ctxs' : List SigningContext),
      (∀ ctx ∈ ctxs, ctx.message.length < 2 ^ 64) →
      (∀ ctx ∈ ctxs', ctx.message.length < 2 ^ 64) →
      SigningContext.encodeAll ctxs out = SigningContext.encodeAll ctxs' out → ctxs = ctxs') ∧
    (∀ (σ : Type) [Signer suite σ], HolderStack suite σ → ∀ (signer : σ) (nonces : InnerNonces S)
      (ctx : SigningContext) (nested : NestedSigningRequest P S) (sig : InnerSignatureShare S),
      (Signer.sign suite signer (.bound nonces ctx nested)).2 = .ok sig →
        ctx.encode = nested.package.message) ∧
    ∀ (σ σ' : Type) [Signer suite σ] [Signer suite σ'], HolderStack suite σ →
      HolderStack suite σ' → ∀ (signer : σ) (signer' : σ') (nonces nonces' : InnerNonces S)
      (ctx ctx' : SigningContext) (nested : NestedSigningRequest P S)
      (sig sig' : InnerSignatureShare S),
      ctx.message.length < 2 ^ 64 → ctx'.message.length < 2 ^ 64 →
      (Signer.sign suite signer (.bound nonces ctx nested)).2 = .ok sig →
      (Signer.sign suite signer' (.bound nonces' ctx' nested)).2 = .ok sig' → ctx = ctx' := by
  have hstarts : ∀ ctx ctx' : SigningContext, ctx.message.length < 2 ^ 64 →
      ctx'.message.length < 2 ^ 64 → ctx.encode <+: ctx'.encode → ctx = ctx' :=
    fun ctx ctx' hctx hctx' h => SigningContext.selfDelimiting_encode.eq_of_prefix hctx hctx' h
  refine ⟨fun ctx ctx' hctx hctx' hne h => hne (hstarts ctx ctx' hctx hctx' h),
    fun out ctxs ctxs' hctxs hctxs' h => ?_,
    fun σ _ hstack signer nonces ctx nested sig h => encode_of_sign_bound hstack signer h,
    fun σ σ' _ _ hstack hstack' signer signer' nonces nonces' ctx ctx' nested sig sig' hctx hctx'
      h h' => ?_⟩
  · rw [SigningContext.encodeAll_eq, SigningContext.encodeAll_eq] at h
    exact SigningContext.selfDelimiting_encode.flatMap_inj SigningContext.encode_ne_nil hctxs
      hctxs' (List.append_cancel_left h)
  · refine hstarts ctx ctx' hctx hctx' ?_
    rw [encode_of_sign_bound hstack signer h, encode_of_sign_bound hstack' signer' h']

end Stack

section Quorum

open Reference

/-- A message approved in an epoch. -/
def someContext (epoch : UInt64) : SigningContext :=
  ⟨epoch, Vector.replicate 32 0, [1, 2, 3]⟩

/-- The outer package, over the context of the epoch 7. -/
def boundPackage : SigningPackage Residue Residue :=
  { outerPackage with message := (someContext 7).encode }

/-- A request of the holders 1 and 2 on it. -/
def boundRequest : NestedSigningRequest Residue Residue :=
  { quorumRequest [1, 2] 2 with package := boundPackage }

lemma honestRound_boundRequest : HonestRound [1, 2] innerHiding innerBinding boundRequest where
  precommitted := ⟨[1, 2], .refl _, rfl⟩
  revealed := ⟨[1, 2], .refl _, rfl⟩
  active := .refl _
  entry := honestRound_quorumRequest.entry

lemma exists_outerContext_boundPackage :
    ∃ context, outerContext suite boundPackage 5 1 = some context := by
  have hsome : (outerContext suite boundPackage 5 1).isSome := by decide +kernel
  exact Option.isSome_iff_exists.mp hsome

/-- The holder 1 behind two stores. -/
def someStack : Spending MemorySpentSessions (Spending MemorySpentSessions (Holder suite)) :=
  ⟨.new, .new, ⟨1, innerShareOf 1⟩, 5⟩

lemma holderStack_someStack : HolderStack suite
    (Spending MemorySpentSessions (Spending MemorySpentSessions (Holder suite))) :=
  .spend (.spend .holder)

/-- The bound request of the epoch 7 is answered. -/
lemma exists_sign_bound : ∃ sig, (Signer.sign suite someStack
    (.bound (quorumNonces 1) (someContext 7) boundRequest)).2 = .ok sig := by
  have hinj := fromU32_injective Residue
  obtain ⟨⟨rho, c⟩, hcontext⟩ := exists_outerContext_boundPackage
  have hnested : ∃ id ∈ boundPackage.identifiers, id.IsIndex 1 :=
    ⟨firstIdentifier, List.mem_cons_self, rfl⟩
  have hindex : ∀ id ∈ boundPackage.identifiers, ∃ v : UInt32, id.IsIndex v := fun id hid =>
    (exists_isIndex_outerPackage hid).imp fun v hv => hv.2
  have hparams := innerParamsFromZf_eq_ok_of_isIndex suite_encodesScalars hindex hnested hcontext
  have hrequest : Answerable boundRequest :=
    honestRound_boundRequest.answerable ⟨by decide, by decide, by decide⟩ (by decide)
  have hhonest : HonestHolder boundRequest (quorumNonces 1) 1 :=
    honestRound_boundRequest.honestHolder (by decide) (by decide)
  have hsign := @innerSign_of_honest _ _ _ _ _ suite boundRequest 5 _ quorumNonces innerShareOf
    hinj hrequest hparams 1 List.mem_cons_self hhonest
  rw [Spending.sign_of_notMem (Finset.notMem_empty _),
    Spending.sign_of_notMem (Finset.notMem_empty _)]
  exact ⟨_, hsign⟩

/-- It is, and that of the epoch 8 is not, on the same package and by any stack. -/
theorem bound_authorises_one_epoch :
    (∃ sig, (Signer.sign suite someStack
      (.bound (quorumNonces 1) (someContext 7) boundRequest)).2 = .ok sig) ∧
    ¬(someContext 7).encode <+: (someContext 8).encode ∧
    ∀ sig, (Signer.sign suite someStack
      (.bound (quorumNonces 1) (someContext 8) boundRequest)).2 ≠ .ok sig := by
  have hne : someContext 7 ≠ someContext 8 := fun h =>
    absurd (congrArg SigningContext.epoch h) (by decide)
  obtain ⟨sig, hsig⟩ := exists_sign_bound
  refine ⟨⟨sig, hsig⟩, (bound_authorises_one suite).1 _ _ (by decide) (by decide) hne,
    fun sig' hsig' => hne ?_⟩
  exact (bound_authorises_one suite).2.2.2 _ _ holderStack_someStack holderStack_someStack _ _ _ _
    _ _ _ _ _ (by decide) (by decide) hsig hsig'

end Quorum

end Frostito
