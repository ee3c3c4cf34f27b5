import Mathlib.Logic.Basic
import Mathlib.Data.List.Forall2

/-!
# Results of calls that may also panic

A call into a library that reports failures as values ends in one of three ways: it
returns a value, it returns an error, or it panics.  `Outcome ε α` keeps the three apart,
so that "never panics" is a statement about the result and not a remark beside it.
Errors and panics both end the computation they occur in; only an error is a value the
caller sees.
-/

/-- The result of a call: a value, an error value, or a panic. -/
inductive Outcome (ε α : Type) where
  /-- The call returned a value. -/
  | ok (a : α)
  /-- The call returned an error. -/
  | err (e : ε)
  /-- The call panicked. -/
  | panic
deriving DecidableEq, Repr

namespace Outcome

variable {ε ε' α β : Type}

/-- Sequencing: an error or a panic ends the computation. -/
protected def bind : Outcome ε α → (α → Outcome ε β) → Outcome ε β
  | ok a, f => f a
  | err e, _ => err e
  | panic, _ => panic

instance : Monad (Outcome ε) where
  pure := ok
  bind := Outcome.bind

@[simp] lemma pure_eq (a : α) : (pure a : Outcome ε α) = ok a := rfl

@[simp] lemma ok_bind (a : α) (f : α → Outcome ε β) : (ok a >>= f) = f a := rfl

@[simp] lemma err_bind (e : ε) (f : α → Outcome ε β) : (err e >>= f) = err e := rfl

@[simp] lemma panic_bind (f : α → Outcome ε β) : ((panic : Outcome ε α) >>= f) = panic := rfl

instance : LawfulMonad (Outcome ε) := by
  refine LawfulMonad.mk' _ ?_ ?_ ?_
  · intro α x
    cases x <;> rfl
  · intros
    rfl
  · intro α β γ x f g
    cases x <;> rfl

/-- A sequence of two computations succeeds exactly when the first one does and the second
one does on its value. -/
@[simp] lemma bind_eq_ok_iff {x : Outcome ε α} {f : α → Outcome ε β} {b : β} :
    (x >>= f) = ok b ↔ ∃ a, x = ok a ∧ f a = ok b := by
  cases x <;> simp

/-- It fails where the first one fails, or where the second one does on its value. -/
lemma bind_eq_err_iff {x : Outcome ε α} {f : α → Outcome ε β} {e : ε} :
    (x >>= f) = err e ↔ x = err e ∨ ∃ a, x = ok a ∧ f a = err e := by
  cases x <;> simp

/-- It panics where the first one panics, or where the second one does on its value. -/
lemma bind_eq_panic_iff {x : Outcome ε α} {f : α → Outcome ε β} :
    (x >>= f) = panic ↔ x = panic ∨ ∃ a, x = ok a ∧ f a = panic := by
  cases x <;> simp

/-- A sequence panics only where one of its parts does. -/
lemma bind_ne_panic {x : Outcome ε α} {f : α → Outcome ε β} (hx : x ≠ panic)
    (hf : ∀ a, x = ok a → f a ≠ panic) : (x >>= f) ≠ panic := by
  cases x with
  | ok a => exact hf a rfl
  | err e => simp
  | panic => exact absurd rfl hx

/-- What neither succeeds nor panics returns an error. -/
lemma exists_eq_err {x : Outcome ε α} (hok : ∀ a, x ≠ ok a) (hpanic : x ≠ panic) :
    ∃ e, x = err e := by
  cases x with
  | ok a => exact absurd rfl (hok a)
  | err e => exact ⟨e, rfl⟩
  | panic => exact absurd rfl hpanic

/-- What neither succeeds nor returns an error panics. -/
lemma eq_panic {x : Outcome ε α} (hok : ∀ a, x ≠ ok a) (herr : ∀ e, x ≠ err e) : x = panic := by
  cases x with
  | ok a => exact absurd rfl (hok a)
  | err e => exact absurd rfl (herr e)
  | panic => rfl

/-! ### Guards and conversions -/

/-- `if c { return Err(e) }`. -/
def refuse (c : Prop) [Decidable c] (e : ε) : Outcome ε Unit :=
  if c then err e else ok ()

lemma refuse_of_pos {c : Prop} [Decidable c] (h : c) (e : ε) : refuse c e = err e := if_pos h

lemma refuse_of_neg {c : Prop} [Decidable c] (h : ¬c) (e : ε) : refuse c e = ok () := if_neg h

@[simp] lemma refuse_eq_ok_iff {c : Prop} [Decidable c] {e : ε} {u : Unit} :
    refuse c e = ok u ↔ ¬c := by
  unfold refuse
  split <;> simp_all

lemma refuse_eq_err_iff {c : Prop} [Decidable c] {e e' : ε} :
    refuse c e = err e' ↔ c ∧ e = e' := by
  unfold refuse
  split <;> simp_all

lemma refuse_ne_panic (c : Prop) [Decidable c] (e : ε) : refuse c e ≠ panic := by
  unfold refuse
  split <;> simp

/-- Two guards with one error can be swapped. -/
lemma refuse_comm (c c' : Prop) [Decidable c] [Decidable c'] (e : ε) (x : Outcome ε α) :
    (refuse c e >>= fun _ => refuse c' e >>= fun _ => x)
      = (refuse c' e >>= fun _ => refuse c e >>= fun _ => x) := by
  by_cases h : c
  · rw [refuse_of_pos h, err_bind]
    by_cases h' : c'
    · rw [refuse_of_pos h', err_bind]
    · rw [refuse_of_neg h', ok_bind, err_bind]
  · rw [refuse_of_neg h]
    rfl

/-- `Option::ok_or`. -/
def okOr (x : Option α) (e : ε) : Outcome ε α :=
  match x with
  | some a => ok a
  | none => err e

@[simp] lemma okOr_some (a : α) (e : ε) : okOr (some a) e = ok a := rfl

@[simp] lemma okOr_none (e : ε) : okOr (none : Option α) e = err e := rfl

@[simp] lemma okOr_eq_ok_iff {x : Option α} {e : ε} {a : α} : okOr x e = ok a ↔ x = some a := by
  cases x <;> simp

lemma okOr_eq_err_iff {x : Option α} {e e' : ε} : okOr x e = err e' ↔ x = none ∧ e = e' := by
  cases x <;> simp

lemma okOr_ne_panic (x : Option α) (e : ε) : okOr x e ≠ panic := by
  cases x <;> simp

/-- Behind a guard only the case that passes it can panic. -/
lemma refuse_bind_ne_panic {c : Prop} [Decidable c] {e : ε} {f : Unit → Outcome ε α}
    (h : ¬c → f () ≠ panic) : (refuse c e >>= f) ≠ panic :=
  bind_ne_panic (refuse_ne_panic c e) fun _ hc => h (refuse_eq_ok_iff.mp hc)

/-- Behind a lookup only a value that is there can lead to a panic. -/
lemma okOr_bind_ne_panic {β : Type} {x : Option β} {e : ε} {f : β → Outcome ε α}
    (h : ∀ b, x = some b → f b ≠ panic) : (okOr x e >>= f) ≠ panic :=
  bind_ne_panic (okOr_ne_panic x e) fun b hb => h b (okOr_eq_ok_iff.mp hb)

/-- `Result::expect`: an error becomes a panic. -/
def expect : Outcome ε' α → Outcome ε α
  | ok a => ok a
  | err _ => panic
  | panic => panic

/-- `Option::expect`, and the indexing `xs[i]`: a missing value is a panic. -/
def expectSome : Option α → Outcome ε α
  | some a => ok a
  | none => panic

@[simp] lemma expectSome_some (a : α) : (expectSome (some a) : Outcome ε α) = ok a := rfl

@[simp] lemma expectSome_eq_ok_iff {x : Option α} {a : α} :
    (expectSome x : Outcome ε α) = ok a ↔ x = some a := by
  cases x <;> simp [expectSome]

/-- An entry that is there may be expected. -/
lemma expectSome_getElem?_bind_ne_panic {β : Type} {xs : List β} {i : ℕ}
    {f : β → Outcome ε α} (hi : i < xs.length) (h : ∀ x, f x ≠ panic) :
    (expectSome xs[i]? >>= f) ≠ panic := by
  rw [List.getElem?_eq_getElem hi, expectSome_some, ok_bind]
  exact h _

lemma expectSome_ne_err (x : Option α) (e : ε) : expectSome x ≠ err e := by
  cases x <;> simp [expectSome]

/-- `&xs[start..stop]`: a range that is not one of the vector is a panic. -/
def slice (xs : List α) (start stop : ℕ) : Outcome ε (List α) :=
  if start ≤ stop ∧ stop ≤ xs.length then ok ((xs.drop start).take (stop - start)) else panic

lemma slice_zero {xs : List α} {stop : ℕ} (h : stop ≤ xs.length) :
    (slice xs 0 stop : Outcome ε (List α)) = ok (xs.take stop) := by
  rw [slice, if_pos ⟨Nat.zero_le _, h⟩, List.drop_zero, Nat.sub_zero]

/-- Unsigned subtraction of lengths and counters: an underflow is a panic. -/
def checkedSub (a b : ℕ) : Outcome ε ℕ := if b ≤ a then ok (a - b) else panic

/-- `Result::map_err`. -/
def mapErr (f : ε → ε') : Outcome ε α → Outcome ε' α
  | ok a => ok a
  | err e => err (f e)
  | panic => panic

@[simp] lemma mapErr_eq_ok_iff {f : ε → ε'} {x : Outcome ε α} {a : α} :
    mapErr f x = ok a ↔ x = ok a := by
  cases x <;> simp [mapErr]

lemma mapErr_eq_err_iff {f : ε → ε'} {x : Outcome ε α} {e' : ε'} :
    mapErr f x = err e' ↔ ∃ e, x = err e ∧ f e = e' := by
  cases x <;> simp [mapErr]

/-- Converting the errors of a sequence converts those of its parts. -/
lemma mapErr_bind (f : ε → ε') (x : Outcome ε α) (g : α → Outcome ε β) :
    mapErr f (x >>= g) = mapErr f x >>= fun a => mapErr f (g a) := by
  cases x <;> rfl

lemma mapErr_mapErr {ε'' : Type} (f : ε → ε') (g : ε' → ε'') (x : Outcome ε α) :
    mapErr g (mapErr f x) = mapErr (g ∘ f) x := by
  cases x <;> rfl

@[simp] lemma mapErr_id (x : Outcome ε α) : mapErr id x = x := by
  cases x <;> rfl

lemma mapErr_refuse (f : ε → ε') (c : Prop) [Decidable c] (e : ε) :
    mapErr f (refuse c e) = refuse c (f e) := by
  unfold refuse
  split <;> rfl

lemma mapErr_okOr (f : ε → ε') (x : Option α) (e : ε) :
    mapErr f (okOr x e) = okOr x (f e) := by
  cases x <;> rfl

/-- A method that writes its object only once nothing can fail any more: what the
computation returns along with its value is the new state, and without a value the state
is the old one. -/
def runIn {σ : Type} (s : σ) : Outcome ε (α × σ) → σ × Outcome ε α
  | ok (a, s') => (s', ok a)
  | err e => (s, err e)
  | panic => (s, panic)

lemma runIn_eq_panic_iff {σ : Type} {s : σ} {x : Outcome ε (α × σ)} :
    (runIn s x).2 = panic ↔ x = panic := by
  rcases x with ⟨a, s'⟩ | e | _ <;> simp [runIn]

/-- Either the computation succeeded and gave the new state, or the state is unchanged. -/
lemma runIn_cases {σ : Type} (s : σ) (x : Outcome ε (α × σ)) :
    (∃ a s', x = ok (a, s') ∧ runIn s x = (s', ok a)) ∨
      ((∀ p, x ≠ ok p) ∧ (runIn s x).1 = s ∧ ∀ a, (runIn s x).2 ≠ ok a) := by
  cases x with
  | ok p => exact .inl ⟨p.1, p.2, rfl, rfl⟩
  | err e => exact .inr ⟨by simp, rfl, by simp [runIn]⟩
  | panic => exact .inr ⟨by simp, rfl, by simp [runIn]⟩

/-! ### Loops -/

/-- A loop whose body only checks finishes exactly when every element passes. -/
lemma forM_eq_ok_iff {xs : List α} {f : α → Outcome ε Unit} :
    xs.forM f = ok () ↔ ∀ x ∈ xs, f x = ok () := by
  induction xs with
  | nil => simp
  | cons x xs ih =>
    change (f x >>= fun _ => xs.forM f) = ok () ↔ _
    constructor
    · intro h
      obtain ⟨_, hx, hxs⟩ := bind_eq_ok_iff.mp h
      intro y hy
      rcases List.mem_cons.mp hy with rfl | hy
      · exact hx
      · exact ih.mp hxs y hy
    · intro h
      rw [h x List.mem_cons_self, ok_bind]
      exact ih.mpr fun y hy => h y (List.mem_cons_of_mem _ hy)

lemma forM_ne_err {xs : List α} {f : α → Outcome ε Unit} {e : ε} (h : ∀ x ∈ xs, f x ≠ err e) :
    xs.forM f ≠ err e := by
  induction xs with
  | nil => simp
  | cons x xs ih =>
    have hrest := ih fun y hy => h y (List.mem_cons_of_mem _ hy)
    change (f x >>= fun _ => xs.forM f) ≠ err e
    rw [Ne, bind_eq_err_iff]
    rintro (hx | ⟨-, -, hxs⟩)
    · exact h x List.mem_cons_self hx
    · exact hrest hxs

lemma forM_ne_panic {xs : List α} {f : α → Outcome ε Unit} (h : ∀ x ∈ xs, f x ≠ panic) :
    xs.forM f ≠ panic := by
  induction xs with
  | nil => simp
  | cons x xs ih =>
    have hrest := ih fun y hy => h y (List.mem_cons_of_mem _ hy)
    exact bind_ne_panic (h x List.mem_cons_self) fun _ _ => hrest

/-- `collect::<Result<Vec<_>, _>>()` succeeds exactly when every element does. -/
lemma mapM_eq_ok_iff {xs : List α} {f : α → Outcome ε β} {ys : List β} :
    xs.mapM f = ok ys ↔ List.Forall₂ (fun x y => f x = ok y) xs ys := by
  induction xs generalizing ys with
  | nil =>
    rw [List.mapM_nil, List.forall₂_nil_left_iff, pure_eq]
    simp [eq_comm]
  | cons x xs ih =>
    rw [List.mapM_cons, List.forall₂_cons_left_iff]
    simp only [bind_eq_ok_iff, pure_eq, ok.injEq]
    constructor
    · rintro ⟨y, hy, zs, hzs, rfl⟩
      exact ⟨y, zs, hy, ih.mp hzs, rfl⟩
    · rintro ⟨y, zs, hy, hzs, rfl⟩
      exact ⟨y, hy, zs, ih.mpr hzs, rfl⟩

/-- Loops whose bodies agree on the elements agree. -/
lemma mapM_congr {xs : List α} {f g : α → Outcome ε β} (h : ∀ x ∈ xs, f x = g x) :
    xs.mapM f = xs.mapM g := by
  induction xs with
  | nil => rfl
  | cons x xs ih =>
    rw [List.mapM_cons, List.mapM_cons, h x List.mem_cons_self,
      ih fun y hy => h y (List.mem_cons_of_mem _ hy)]

lemma mapM_ne_err {xs : List α} {f : α → Outcome ε β} {e : ε} (h : ∀ x ∈ xs, f x ≠ err e) :
    xs.mapM f ≠ err e := by
  induction xs with
  | nil => simp
  | cons x xs ih =>
    have hrest := ih fun y hy => h y (List.mem_cons_of_mem _ hy)
    rw [List.mapM_cons, Ne, bind_eq_err_iff]
    rintro (hx | ⟨y, -, hys⟩)
    · exact h x List.mem_cons_self hx
    · simp [bind_eq_err_iff, hrest] at hys

lemma mapM_ne_panic {xs : List α} {f : α → Outcome ε β} (h : ∀ x ∈ xs, f x ≠ panic) :
    xs.mapM f ≠ panic := by
  induction xs with
  | nil => simp
  | cons x xs ih =>
    have hrest := ih fun y hy => h y (List.mem_cons_of_mem _ hy)
    rw [List.mapM_cons]
    exact bind_ne_panic (h x List.mem_cons_self) fun _ _ =>
      bind_ne_panic hrest fun _ _ => by simp

lemma exists_of_forall₂ {R : α → β → Prop} {xs : List α} {ys : List β}
    (h : List.Forall₂ R xs ys) {x : α} (hx : x ∈ xs) : ∃ y ∈ ys, R x y := by
  induction h with
  | nil => exact absurd hx List.not_mem_nil
  | cons hy _ ih =>
    rcases List.mem_cons.mp hx with rfl | hx
    · exact ⟨_, List.mem_cons_self, hy⟩
    · obtain ⟨y, hmem, hxy⟩ := ih hx
      exact ⟨y, List.mem_cons_of_mem _ hmem, hxy⟩

lemma exists_of_mapM_eq_ok {xs : List α} {f : α → Outcome ε β} {ys : List β}
    (h : xs.mapM f = ok ys) {x : α} (hx : x ∈ xs) : ∃ y ∈ ys, f x = ok y :=
  exists_of_forall₂ (mapM_eq_ok_iff.mp h) hx

lemma exists_of_mem_of_mapM_eq_ok {xs : List α} {f : α → Outcome ε β} {ys : List β}
    (h : xs.mapM f = ok ys) {y : β} (hy : y ∈ ys) : ∃ x ∈ xs, f x = ok y :=
  exists_of_forall₂ (mapM_eq_ok_iff.mp h).flip hy

/-- A loop that succeeds on every element collects the values of a function. -/
lemma mapM_eq_ok_map {xs : List α} {f : α → Outcome ε β} {g : α → β}
    (h : ∀ x ∈ xs, f x = ok (g x)) : xs.mapM f = ok (xs.map g) := by
  rw [mapM_eq_ok_iff, List.forall₂_map_right_iff, List.forall₂_same]
  exact h

/-- An accumulating loop returns no error that its body does not return. -/
lemma foldlM_ne_err {xs : List α} {f : β → α → Outcome ε β} {e : ε}
    (h : ∀ x ∈ xs, ∀ b, f b x ≠ err e) (b : β) : xs.foldlM f b ≠ err e := by
  induction xs generalizing b with
  | nil => simp
  | cons x xs ih =>
    rw [List.foldlM_cons, Ne, bind_eq_err_iff]
    rintro (hx | ⟨b', -, hxs⟩)
    · exact h x List.mem_cons_self b hx
    · exact ih (fun y hy => h y (List.mem_cons_of_mem _ hy)) b' hxs

/-- An accumulating loop whose body never fails is a fold. -/
lemma foldlM_eq_ok_foldl {xs : List α} {f : β → α → Outcome ε β} {g : β → α → β}
    (h : ∀ x ∈ xs, ∀ b, f b x = ok (g b x)) (b : β) : xs.foldlM f b = ok (xs.foldl g b) := by
  induction xs generalizing b with
  | nil => rfl
  | cons x xs ih =>
    rw [List.foldlM_cons, h x List.mem_cons_self, ok_bind, List.foldl_cons]
    exact ih (fun y hy => h y (List.mem_cons_of_mem _ hy)) _

/-- A loop that collects, and passes a state from one element to the next. -/
def mapState {σ : Type} (f : α → σ → Outcome ε (β × σ)) : List α → σ → Outcome ε (List β × σ)
  | [], s => ok ([], s)
  | x :: xs, s => do
    let (y, s) ← f x s
    let (ys, s) ← mapState f xs s
    ok (y :: ys, s)

/-- It succeeds when its body does on every element in every state. -/
lemma exists_mapState_eq_ok {σ : Type} {f : α → σ → Outcome ε (β × σ)} {R : α → β → Prop}
    {xs : List α} (h : ∀ x ∈ xs, ∀ s, ∃ y s', f x s = ok (y, s') ∧ R x y) (s : σ) :
    ∃ ys s', mapState f xs s = ok (ys, s') ∧ List.Forall₂ R xs ys := by
  induction xs generalizing s with
  | nil => exact ⟨[], s, rfl, .nil⟩
  | cons x xs ih =>
    obtain ⟨y, s₁, hy, hxy⟩ := h x List.mem_cons_self s
    obtain ⟨ys, s₂, hys, hxys⟩ := ih (fun x' hx' => h x' (List.mem_cons_of_mem _ hx')) s₁
    refine ⟨y :: ys, s₂, ?_, .cons hxy hxys⟩
    rw [mapState, hy, ok_bind]
    dsimp only
    rw [hys, ok_bind]

end Outcome
