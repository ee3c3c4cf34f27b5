import Frostito.Lib.Calls
import Frostito.Signer.Stack

/-!
# A spent session never answers twice

Holders come and go around one store: a stack is built over it, signs, and gives it back.
Whatever is asked of them, no two shares are ever attributed to the same session and holder.
-/

namespace Frostito

/-! ### One call -/

section Call

variable {P S : Type} [CurveScalar S] {suite : Ciphersuite P S} {T σ : Type} [SpentSessions T]
  [Signer suite σ] {signer : Spending T σ} {req : SignRequest P S}

/-- The pair that a request spends. -/
def SignRequest.pair (req : SignRequest P S) : Vector UInt8 32 × UInt32 :=
  (req.nonces.sessionId, req.nonces.holderIndex)

/-- Without a record there is no share, and the signer inside is not asked. -/
theorem Spending.sign_of_spend_eq_err {store : T} {e : Error}
    (h : SpentSessions.spend signer.store req.nonces.sessionId req.nonces.holderIndex
      = (store, .err e)) :
    Signer.sign suite signer req = (⟨store, signer.inner⟩, .err e) := by
  simp only [Signer.sign, h]

lemma Spending.sign_of_spend_eq_ok {store : T}
    (h : SpentSessions.spend signer.store req.nonces.sessionId req.nonces.holderIndex
      = (store, .ok ())) :
    Signer.sign suite signer req = (⟨store, (Signer.sign suite signer.inner req).1⟩,
      (Signer.sign suite signer.inner req).2) := by
  simp only [Signer.sign, h]

end Call

section Memory

variable {P S : Type} [CurveScalar S] {suite : Ciphersuite P S} {σ : Type} [Signer suite σ]
  {signer : Spending MemorySpentSessions σ} {req : SignRequest P S}

/-- Over the store in memory, a pair that is spent is refused and nothing changes. -/
lemma Spending.sign_of_mem (h : req.pair ∈ signer.store.spent) :
    Signer.sign suite signer req = (signer, .err .sessionSpent) := by
  have hspend : SpentSessions.spend signer.store req.nonces.sessionId req.nonces.holderIndex
      = (signer.store, .err .sessionSpent) := if_pos h
  exact Spending.sign_of_spend_eq_err hspend

/-- A pair that is not spent is, and then the signer inside answers. -/
lemma Spending.sign_of_notMem (h : req.pair ∉ signer.store.spent) :
    Signer.sign suite signer req = (⟨⟨insert req.pair signer.store.spent⟩,
      (Signer.sign suite signer.inner req).1⟩, (Signer.sign suite signer.inner req).2) := by
  have hspend : SpentSessions.spend signer.store req.nonces.sessionId req.nonces.holderIndex
      = (⟨insert req.pair signer.store.spent⟩, .ok ()) := if_neg h
  exact Spending.sign_of_spend_eq_ok hspend

end Memory

/-! ### Runs -/

section Run

variable {P S : Type} [CurveScalar S] {suite : Ciphersuite P S}

/-- Who has the store: nobody, or a stack built around it. -/
inductive StoreUse (suite : Ciphersuite P S) where
  | free (store : MemorySpentSessions)
  | held (signer : Spending MemorySpentSessions (Holder suite))

/-- What can be done with it. -/
inductive StoreOp (suite : Ciphersuite P S) where
  /-- Build a stack of a holder wrapped in `Spend`. -/
  | wrap (share : SecretShare S) (verifyingKey : P)
  | sign (req : SignRequest P S)
  /-- Take the store back. -/
  | intoStore

namespace StoreUse

/-- The store, wherever it is. -/
def store : StoreUse suite → MemorySpentSessions
  | .free store => store
  | .held signer => signer.store

/-- The spent pairs. -/
def spent (use : StoreUse suite) : Set (Vector UInt8 32 × UInt32) := {pair | pair ∈ use.store.spent}

variable [CurvePoint P S] [Sha2]

/-- One operation.  A store that is free cannot sign, and one that is held cannot be wrapped
again. -/
def step : StoreUse suite → StoreOp suite →
    StoreUse suite × Option (Outcome Error (InnerSignatureShare S))
  | .free store, .wrap share verifyingKey =>
    (.held ((Stack.new (⟨share, verifyingKey⟩ : Holder suite)).layer
      (⟨store⟩ : Spend MemorySpentSessions)).intoInner, none)
  | .held signer, .sign req =>
    let (signer, result) := Signer.sign suite signer req
    (.held signer, some result)
  | .held signer, .intoStore => (.free signer.intoStore, none)
  | use, _ => (use, none)

omit [CurvePoint P S] [Sha2] in
/-- The pair that a share is attributed to, if the operation produced one. -/
def answered : StoreOp suite × Option (Outcome Error (InnerSignatureShare S)) →
    Option (Vector UInt8 32 × UInt32)
  | (.sign req, some (.ok sig)) => some (req.nested.sessionId, sig.holderIndex)
  | _ => none

/-- A request is refused because its pair is spent, or it spends it and the holder answers. -/
lemma step_sign (signer : Spending MemorySpentSessions (Holder suite)) (req : SignRequest P S) :
    (req.pair ∈ signer.store.spent ∧
      step (.held signer) (.sign req) = (.held signer, some (.err .sessionSpent))) ∨
    (req.pair ∉ signer.store.spent ∧
      step (.held signer) (.sign req) = (.held ⟨⟨insert req.pair signer.store.spent⟩, signer.inner⟩,
        some (innerSign suite req.nonces signer.inner.share signer.inner.verifyingKey req.message
          req.nested))) := by
  by_cases hmem : req.pair ∈ signer.store.spent
  · exact .inl ⟨hmem, by rw [step, Spending.sign_of_mem hmem]⟩
  · exact .inr ⟨hmem, by rw [step, Spending.sign_of_notMem hmem]; rfl⟩

lemma spent_subset_step (use : StoreUse suite) (op : StoreOp suite) :
    use.spent ⊆ (use.step op).1.spent := by
  cases use with
  | free store => cases op <;> exact subset_rfl
  | held signer =>
    cases op with
    | wrap share verifyingKey => exact subset_rfl
    | intoStore => exact subset_rfl
    | sign req =>
      rcases step_sign signer req with ⟨-, hstep⟩ | ⟨-, hstep⟩
      · rw [hstep]
      · rw [hstep]
        exact fun pair hpair => Finset.mem_insert_of_mem hpair

/-- What is answered was unspent, and is spent. -/
lemma spent_of_answered (use : StoreUse suite) (op : StoreOp suite)
    (pair : Vector UInt8 32 × UInt32) (h : answered (op, (use.step op).2) = some pair) :
    pair ∉ use.spent ∧ pair ∈ (use.step op).1.spent := by
  cases use with
  | free store => cases op <;> exact absurd h (by simp [step, answered])
  | held signer =>
    cases op with
    | wrap share verifyingKey => exact absurd h (by simp [answered])
    | intoStore => exact absurd h (by simp [answered])
    | sign req =>
      rcases step_sign signer req with ⟨-, hstep⟩ | ⟨hunspent, hstep⟩
      · exact absurd h (by simp [hstep, answered])
      · rw [hstep] at h ⊢
        cases hsign : innerSign suite req.nonces signer.inner.share signer.inner.verifyingKey
            req.message req.nested with
        | ok sig =>
          rw [hsign, answered, Option.some.injEq, attribution_of_innerSign hsign] at h
          subst h
          exact ⟨hunspent, Finset.mem_insert_self _ _⟩
        | err e => exact absurd h (by simp [hsign, answered])
        | panic => exact absurd h (by simp [hsign, answered])

end StoreUse

variable [CurvePoint P S] [Sha2]

/-- **A spent session never answers twice.**  Over any run, the pairs that shares are attributed
to are distinct, and recorded; the record only grows; a call that spends and then fails leaves
its pair spent; a call refused as spent changes nothing, and would have been refused with any
signer inside; and over any store, a call whose record failed produces no share. -/
theorem spent_session_answers_once (suite : Ciphersuite P S) :
    (∀ (use : StoreUse suite) (ops : List (StoreOp suite)),
      ((Calls.log StoreUse.step use ops).filterMap StoreUse.answered).Nodup ∧
      ∀ pair ∈ (Calls.log StoreUse.step use ops).filterMap StoreUse.answered,
        pair ∉ use.store.spent ∧ pair ∈ (Calls.run StoreUse.step use ops).store.spent) ∧
    (∀ (use : StoreUse suite) (ops : List (StoreOp suite)),
      use.store.spent ⊆ (Calls.run StoreUse.step use ops).store.spent) ∧
    (∀ (signer : Spending MemorySpentSessions (Holder suite)) (req : SignRequest P S),
      req.pair ∉ signer.store.spent → (∀ sig, (Signer.sign suite signer req).2 ≠ .ok sig) →
        (Signer.sign suite signer req).2 = (Signer.sign suite signer.inner req).2 ∧
        req.pair ∈ (Signer.sign suite signer req).1.store.spent) ∧
    (∀ (signer : Spending MemorySpentSessions (Holder suite)) (req : SignRequest P S),
      (Signer.sign suite signer req).2 = .err .sessionSpent →
        (Signer.sign suite signer req).1 = signer ∧
        ∀ (σ : Type) [Signer suite σ] (inner : σ),
          Signer.sign suite (⟨signer.store, inner⟩ : Spending MemorySpentSessions σ) req
            = (⟨signer.store, inner⟩, .err .sessionSpent)) ∧
    ∀ (T σ : Type) [SpentSessions T] [Signer suite σ] (signer : Spending T σ)
      (req : SignRequest P S) (e : Error),
      (SpentSessions.spend signer.store req.nonces.sessionId req.nonces.holderIndex).2 = .err e →
        (Signer.sign suite signer req).2 = .err e ∧
        (Signer.sign suite signer req).1.inner = signer.inner := by
  refine ⟨fun use ops => ?_, fun use ops => ?_, fun signer req hunspent _ => ?_,
    fun signer req hspent => ?_, fun T σ _ _ signer req e herr => ?_⟩
  · exact Calls.nodup_emit StoreUse.spent_subset_step StoreUse.spent_of_answered use ops
  · exact Calls.subset_run StoreUse.spent_subset_step use ops
  · rw [Spending.sign_of_notMem hunspent]
    exact ⟨rfl, Finset.mem_insert_self _ _⟩
  · have hmem : req.pair ∈ signer.store.spent := by
      by_contra hunspent
      rw [Spending.sign_of_notMem hunspent] at hspent
      exact innerSign_ne_sessionSpent suite _ _ _ _ _ hspent
    exact ⟨by rw [Spending.sign_of_mem hmem], fun σ _ inner => Spending.sign_of_mem hmem⟩
  · have hspend : SpentSessions.spend signer.store req.nonces.sessionId req.nonces.holderIndex
        = ((SpentSessions.spend signer.store req.nonces.sessionId req.nonces.holderIndex).1,
          .err e) := Prod.ext rfl herr
    rw [Spending.sign_of_spend_eq_err hspend]
    exact ⟨rfl, rfl⟩

end Run

end Frostito
