import Mathlib.Data.List.Basic
import Mathlib.Data.List.Forall2
import Mathlib.Data.Nat.Bitwise
import Mathlib.Tactic.Ring

/-!
# Injective byte framing

Byte strings that are hashed or signed are concatenations of fields.  Such a string
determines its fields when every field is self-delimiting: read from the front, an encoded
value and whatever follows it can be told apart.  Fields of a fixed width and fields that
carry their length in front are self-delimiting, and lists of them are once their number
is known.
-/

/-- A byte string. -/
abbrev Bytes := List UInt8

namespace Framing

/-! ### Little-endian numbers -/

/-- The `k` low bytes of `n`, least significant first. -/
def leBytes : ℕ → ℕ → Bytes
  | 0, _ => []
  | k + 1, n => UInt8.ofNat n :: leBytes k (n / 256)

/-- The number a byte string spells, least significant byte first. -/
def ofLeBytes : Bytes → ℕ
  | [] => 0
  | b :: bs => b.toNat + 256 * ofLeBytes bs

@[simp] lemma length_leBytes (k n : ℕ) : (leBytes k n).length = k := by
  induction k generalizing n with
  | zero => rfl
  | succ k ih => simp [leBytes, ih]

lemma ofLeBytes_leBytes {k n : ℕ} (h : n < 256 ^ k) : ofLeBytes (leBytes k n) = n := by
  induction k generalizing n with
  | zero => simp at h; simp [leBytes, ofLeBytes, h]
  | succ k ih =>
    have hdiv : n / 256 < 256 ^ k := by
      rw [Nat.div_lt_iff_lt_mul (by norm_num)]
      rwa [pow_succ] at h
    rw [leBytes, ofLeBytes, ih hdiv, UInt8.toNat_ofNat']
    omega

lemma ofLeBytes_lt (bs : Bytes) : ofLeBytes bs < 256 ^ bs.length := by
  induction bs with
  | nil => simp [ofLeBytes]
  | cons b bs ih =>
    have hb : b.toNat < 256 := b.toNat_lt
    rw [ofLeBytes, List.length_cons, pow_succ]
    omega

lemma leBytes_ofLeBytes (bs : Bytes) : leBytes bs.length (ofLeBytes bs) = bs := by
  induction bs with
  | nil => rfl
  | cons b bs ih =>
    have hb : b.toNat < 256 := b.toNat_lt
    rw [List.length_cons, leBytes, ofLeBytes]
    have hdiv : (b.toNat + 256 * ofLeBytes bs) / 256 = ofLeBytes bs := by omega
    rw [hdiv, ih]
    congr 1
    apply UInt8.toNat_inj.mp
    rw [UInt8.toNat_ofNat']
    omega

lemma leBytes_inj {k m n : ℕ} (hm : m < 256 ^ k) (hn : n < 256 ^ k)
    (h : leBytes k m = leBytes k n) : m = n := by
  rw [← ofLeBytes_leBytes hm, h, ofLeBytes_leBytes hn]

/-- The low bytes read back the number modulo their range. -/
lemma ofLeBytes_leBytes_mod (k n : ℕ) : ofLeBytes (leBytes k n) = n % 256 ^ k := by
  induction k generalizing n with
  | zero => simp [leBytes, ofLeBytes, Nat.mod_one]
  | succ k ih =>
    rw [leBytes, ofLeBytes, ih, UInt8.toNat_ofNat', pow_succ' 256 k]
    exact (Nat.mod_mul (x := n) (a := 256) (b := 256 ^ k)).symm

/-- The first bytes, and the bytes of what is left above them. -/
lemma leBytes_add (j k n : ℕ) : leBytes (j + k) n = leBytes j n ++ leBytes k (n / 256 ^ j) := by
  induction j generalizing n with
  | zero => simp [leBytes]
  | succ j ih =>
    have hsucc : j + 1 + k = j + k + 1 := by omega
    rw [hsucc, leBytes, ih, leBytes, List.cons_append, Nat.div_div_eq_div_mul, pow_succ']

lemma take_leBytes (j k n : ℕ) : (leBytes (j + k) n).take j = leBytes j n := by
  rw [leBytes_add, List.take_left' (length_leBytes j n)]

lemma drop_leBytes (j k n : ℕ) : (leBytes (j + k) n).drop j = leBytes k (n / 256 ^ j) := by
  rw [leBytes_add, List.drop_left' (length_leBytes j n)]

lemma ofLeBytes_eq_zero_iff {bs : Bytes} : ofLeBytes bs = 0 ↔ ∀ b ∈ bs, b = 0 := by
  induction bs with
  | nil => simp [ofLeBytes]
  | cons b bs ih =>
    have hb : b.toNat = 0 ↔ b = 0 := by rw [← UInt8.toNat_inj, UInt8.toNat_zero]
    rw [ofLeBytes, List.forall_mem_cons, ← ih, ← hb]
    omega

/-! ### Big-endian numbers -/

/-- The `k` low bytes of `n`, most significant first. -/
def beBytes (k n : ℕ) : Bytes := (leBytes k n).reverse

/-- The number a byte string spells, most significant byte first. -/
def ofBeBytes (bs : Bytes) : ℕ := ofLeBytes bs.reverse

@[simp] lemma length_beBytes (k n : ℕ) : (beBytes k n).length = k := by simp [beBytes]

lemma ofBeBytes_beBytes_mod (k n : ℕ) : ofBeBytes (beBytes k n) = n % 256 ^ k := by
  rw [ofBeBytes, beBytes, List.reverse_reverse, ofLeBytes_leBytes_mod]

lemma beBytes_add (j k n : ℕ) : beBytes (j + k) n = beBytes k (n / 256 ^ j) ++ beBytes j n := by
  rw [beBytes, leBytes_add, List.reverse_append, beBytes, beBytes]

lemma take_beBytes (j k n : ℕ) : (beBytes (j + k) n).take k = beBytes k (n / 256 ^ j) := by
  rw [beBytes_add, List.take_left' (length_beBytes k _)]

lemma drop_beBytes (j k n : ℕ) : (beBytes (j + k) n).drop k = beBytes j n := by
  rw [beBytes_add, List.drop_left' (length_beBytes k _)]

/-- The `k` low bytes of a number read in the other order. -/
def swapBytes (k n : ℕ) : ℕ := ofBeBytes (leBytes k n)

lemma ofLeBytes_beBytes (k n : ℕ) : ofLeBytes (beBytes k n) = swapBytes k n := by
  rw [swapBytes, ofBeBytes, beBytes]

/-- Reading in the other order twice reads the number. -/
lemma swapBytes_swapBytes {k n : ℕ} (h : n < 256 ^ k) : swapBytes k (swapBytes k n) = n := by
  have hbytes : leBytes k (swapBytes k n) = beBytes k n := by
    have hlen : (beBytes k n).length = k := length_beBytes k n
    calc leBytes k (swapBytes k n)
        = leBytes (beBytes k n).length (ofLeBytes (beBytes k n)) := by
          rw [hlen, ofLeBytes_beBytes]
      _ = beBytes k n := leBytes_ofLeBytes _
  rw [swapBytes, hbytes, ofBeBytes_beBytes_mod, Nat.mod_eq_of_lt h]

lemma swapBytes_eq_zero_iff {k n : ℕ} (h : n < 256 ^ k) : swapBytes k n = 0 ↔ n = 0 := by
  have hzero : swapBytes k 0 = 0 := by
    rw [swapBytes, ofBeBytes, ofLeBytes_eq_zero_iff]
    intro b hb
    refine ofLeBytes_eq_zero_iff.mp ?_ b (List.mem_reverse.mp hb)
    rw [ofLeBytes_leBytes_mod, Nat.zero_mod]
  constructor
  · intro h0
    rw [← swapBytes_swapBytes h, h0, hzero]
  · rintro rfl
    exact hzero

/-! ### Self-delimiting encodings -/

variable {α β : Type}

/-- On the domain `D`, an encoded value can be split off the front of a byte string in only
one way. -/
def SelfDelimiting (D : α → Prop) (enc : α → Bytes) : Prop :=
  ∀ ⦃a⦄, D a → ∀ ⦃b⦄, D b → ∀ ⦃x y : Bytes⦄, enc a ++ x = enc b ++ y → a = b ∧ x = y

variable {D : α → Prop} {E : β → Prop} {enc : α → Bytes} {enc' : β → Bytes}

/-- An injective encoding of a fixed width is self-delimiting. -/
theorem SelfDelimiting.of_width {n : ℕ} (hlen : ∀ a, D a → (enc a).length = n)
    (hinj : ∀ a b, D a → D b → enc a = enc b → a = b) : SelfDelimiting D enc := by
  intro a ha b hb x y h
  obtain ⟨henc, hrest⟩ := List.append_inj h (by rw [hlen a ha, hlen b hb])
  exact ⟨hinj a b ha hb henc, hrest⟩

theorem SelfDelimiting.inj (h : SelfDelimiting D enc) {a b : α} (ha : D a) (hb : D b)
    (hab : enc a = enc b) : a = b := by
  have happ : enc a ++ [] = enc b ++ [] := by rw [hab]
  exact (h ha hb happ).1

/-- A known number of self-delimiting fields in a row determines them. -/
theorem SelfDelimiting.flatMap (h : SelfDelimiting D enc) {as bs : List α}
    (has : ∀ a ∈ as, D a) (hbs : ∀ b ∈ bs, D b) (hlen : as.length = bs.length) {x y : Bytes}
    (hxy : as.flatMap enc ++ x = bs.flatMap enc ++ y) : as = bs ∧ x = y := by
  induction as generalizing bs with
  | nil =>
    obtain rfl : bs = [] := List.length_eq_zero_iff.mp hlen.symm
    exact ⟨rfl, by simpa using hxy⟩
  | cons a as ih =>
    obtain ⟨b, bs, rfl⟩ : ∃ b bs', bs = b :: bs' :=
      List.exists_cons_of_length_eq_add_one hlen.symm
    rw [List.flatMap_cons, List.flatMap_cons, List.append_assoc, List.append_assoc] at hxy
    obtain ⟨rfl, hrest⟩ := h (has a List.mem_cons_self) (hbs b List.mem_cons_self) hxy
    obtain ⟨rfl, rfl⟩ := ih (fun c hc => has c (List.mem_cons_of_mem _ hc))
      (fun c hc => hbs c (List.mem_cons_of_mem _ hc)) (by simpa using hlen) hrest
    exact ⟨rfl, rfl⟩

/-- No encoding starts with another one. -/
lemma SelfDelimiting.eq_of_prefix (h : SelfDelimiting D enc) {a b : α} (ha : D a) (hb : D b)
    (hstarts : enc a <+: enc b) : a = b := by
  obtain ⟨rest, hrest⟩ := hstarts
  have happend : enc a ++ rest = enc b ++ [] := by rw [hrest, List.append_nil]
  exact (h ha hb happend).1

/-- Fields that are not empty determine how many they are. -/
theorem SelfDelimiting.flatMap_inj (h : SelfDelimiting D enc) (hne : ∀ a, enc a ≠ [])
    {as bs : List α} (has : ∀ a ∈ as, D a) (hbs : ∀ b ∈ bs, D b)
    (heq : as.flatMap enc = bs.flatMap enc) : as = bs := by
  induction as generalizing bs with
  | nil =>
    cases bs with
    | nil => rfl
    | cons b bs =>
      rw [List.flatMap_cons, List.flatMap_nil] at heq
      exact absurd (List.append_eq_nil_iff.mp heq.symm).1 (hne b)
  | cons a as ih =>
    cases bs with
    | nil =>
      rw [List.flatMap_cons, List.flatMap_nil] at heq
      exact absurd (List.append_eq_nil_iff.mp heq).1 (hne a)
    | cons b bs =>
      obtain ⟨ha, has'⟩ := List.forall_mem_cons.mp has
      obtain ⟨hb, hbs'⟩ := List.forall_mem_cons.mp hbs
      rw [List.flatMap_cons, List.flatMap_cons] at heq
      obtain ⟨rfl, hrest⟩ := h ha hb heq
      rw [ih has' hbs' hrest]

/-- A number below `256 ^ k` as a `k`-byte field. -/
lemma selfDelimiting_leBytes (k : ℕ) : SelfDelimiting (· < 256 ^ k) (leBytes k) :=
  .of_width (fun n _ => length_leBytes k n) fun _ _ hm hn => leBytes_inj hm hn

/-- A byte string behind its length in eight bytes. -/
def lengthPrefixed (bs : Bytes) : Bytes := leBytes 8 bs.length ++ bs

lemma selfDelimiting_lengthPrefixed :
    SelfDelimiting (fun bs : Bytes => bs.length < 2 ^ 64) lengthPrefixed := by
  intro a ha b hb x y h
  have hpow : (256 ^ 8 : ℕ) = 2 ^ 64 := by norm_num
  rw [lengthPrefixed, lengthPrefixed, List.append_assoc, List.append_assoc] at h
  obtain ⟨hlen, hrest⟩ := selfDelimiting_leBytes 8 (hpow ▸ ha) (hpow ▸ hb) h
  exact List.append_inj hrest hlen

/-- The length of fields of one width in a row. -/
lemma length_flatMap_of_width {n : ℕ} (henc : ∀ a, (enc a).length = n) (as : List α) :
    (as.flatMap enc).length = n * as.length := by
  induction as with
  | nil => rfl
  | cons a as ih =>
    rw [List.flatMap_cons, List.length_append, henc, ih, List.length_cons]
    ring

/-- Fields of one positive width determine how many they are. -/
lemma length_eq_of_flatMap_eq {n : ℕ} (hn : 0 < n) (henc : ∀ a, (enc a).length = n)
    {as bs : List α} (h : as.flatMap enc = bs.flatMap enc) : as.length = bs.length := by
  have hlen := congrArg List.length h
  rw [length_flatMap_of_width henc, length_flatMap_of_width henc] at hlen
  exact Nat.eq_of_mul_eq_mul_left hn hlen

/-! ### Comparison without early exit -/

/-- The accumulated difference of two byte strings. -/
def diff (as bs : Bytes) : UInt8 := (as.zip bs).foldl (fun d p => d ||| (p.1 ^^^ p.2)) 0

lemma foldl_diff_eq_zero_iff (ps : List (UInt8 × UInt8)) (d : UInt8) :
    ps.foldl (fun d p => d ||| (p.1 ^^^ p.2)) d = 0 ↔ d = 0 ∧ ∀ p ∈ ps, p.1 = p.2 := by
  induction ps generalizing d with
  | nil => simp
  | cons p ps ih =>
    rw [List.foldl_cons, ih, UInt8.or_eq_zero_iff, UInt8.xor_eq_zero_iff, and_assoc]
    simp

/-- Two byte strings of one length are equal exactly when nothing accumulates. -/
theorem diff_eq_zero_iff {as bs : Bytes} (h : as.length = bs.length) :
    diff as bs = 0 ↔ as = bs := by
  rw [diff, foldl_diff_eq_zero_iff, ← List.forall₂_eq_eq_eq, List.forall₂_iff_zip]
  simp [h]

end Framing
