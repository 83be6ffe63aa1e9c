import Mathlib.Data.Nat.Bitwise
import Mathlib.Logic.Function.Basic
import Mathlib.Tactic.NormNum

/-!
Byte-addressed memory read and written through little-endian 32-bit words.
Addresses are natural numbers. A word occupies four bytes and need not be
aligned, so two words may overlap; `bitAt` numbers the single bits of the
memory and gives every word access one meaning independent of its base.
The arithmetic of 32-bit unsigned integers is stated beside it.
-/
namespace SystemSoftware.ByteMemory

abbrev Memory := ℕ → UInt8

def add32 (a b : ℕ) : ℕ := (a + b) % 2 ^ 32

def sub32 (a b : ℕ) : ℕ := (a + (2 ^ 32 - b % 2 ^ 32)) % 2 ^ 32

theorem add32_eq {a b : ℕ} (h : a + b < 2 ^ 32) : add32 a b = a + b :=
  Nat.mod_eq_of_lt h

theorem sub32_eq {a b : ℕ} (hba : b ≤ a) (ha : a < 2 ^ 32) : sub32 a b = a - b := by
  unfold sub32
  omega

def word (m : Memory) (a : ℕ) : ℕ :=
  (m a).toNat + 2 ^ 8 * (m (a + 1)).toNat + 2 ^ 16 * (m (a + 2)).toNat +
    2 ^ 24 * (m (a + 3)).toNat

def putByte (m : Memory) (a : ℕ) (b : UInt8) : Memory :=
  fun x => if x = a then b else m x

def putWord (m : Memory) (a v : ℕ) : Memory := fun x =>
  if x = a then UInt8.ofNat v
  else if x = a + 1 then UInt8.ofNat (v / 2 ^ 8)
  else if x = a + 2 then UInt8.ofNat (v / 2 ^ 16)
  else if x = a + 3 then UInt8.ofNat (v / 2 ^ 24)
  else m x

/-- `memcpy` of `n` bytes between ranges that do not overlap. -/
def copyBytes (m : Memory) (dst src n : ℕ) : Memory := fun x =>
  if dst ≤ x ∧ x < dst + n then m (src + (x - dst)) else m x

def SameOn (m m' : Memory) (lo hi : ℕ) : Prop :=
  ∀ x, lo ≤ x → x < hi → m' x = m x

theorem SameOn.refl (m : Memory) (lo hi : ℕ) : SameOn m m lo hi :=
  fun _ _ _ => rfl

theorem SameOn.trans {m₁ m₂ m₃ : Memory} {lo hi : ℕ}
    (h₁ : SameOn m₁ m₂ lo hi) (h₂ : SameOn m₂ m₃ lo hi) : SameOn m₁ m₃ lo hi :=
  fun x hlo hhi => (h₂ x hlo hhi).trans (h₁ x hlo hhi)

theorem SameOn.mono {m m' : Memory} {lo hi lo' hi' : ℕ} (h : SameOn m m' lo hi)
    (hlo : lo ≤ lo') (hhi : hi' ≤ hi) : SameOn m m' lo' hi' :=
  fun x h₁ h₂ => h x (hlo.trans h₁) (h₂.trans_le hhi)

def SameOutside (m m' : Memory) (lo hi : ℕ) : Prop :=
  ∀ x, x < lo ∨ hi ≤ x → m' x = m x

theorem SameOutside.sameOn {m m' : Memory} {lo hi a b : ℕ} (h : SameOutside m m' lo hi)
    (hab : b ≤ lo ∨ hi ≤ a) : SameOn m m' a b :=
  fun x ha hb => h x (by omega)

theorem SameOutside.mono {m m' : Memory} {lo hi lo' hi' : ℕ} (h : SameOutside m m' lo hi)
    (hlo : lo' ≤ lo) (hhi : hi ≤ hi') : SameOutside m m' lo' hi' :=
  fun x hx => h x (by omega)

theorem SameOutside.trans {m₁ m₂ m₃ : Memory} {lo hi : ℕ} (h₁ : SameOutside m₁ m₂ lo hi)
    (h₂ : SameOutside m₂ m₃ lo hi) : SameOutside m₁ m₃ lo hi :=
  fun x hx => (h₂ x hx).trans (h₁ x hx)

theorem word_congr {m m' : Memory} {a lo hi : ℕ} (h : SameOn m m' lo hi)
    (hlo : lo ≤ a) (hhi : a + 4 ≤ hi) : word m' a = word m a := by
  unfold word
  rw [h a hlo (by omega), h (a + 1) (by omega) (by omega), h (a + 2) (by omega) (by omega),
    h (a + 3) (by omega) (by omega)]

theorem putWord_apply {m : Memory} {a v x : ℕ} (h : x < a ∨ a + 4 ≤ x) :
    putWord m a v x = m x := by
  unfold putWord
  rw [if_neg (by omega), if_neg (by omega), if_neg (by omega), if_neg (by omega)]

theorem putWord_sameOutside (m : Memory) (a v : ℕ) :
    SameOutside m (putWord m a v) a (a + 4) :=
  fun _ hx => putWord_apply hx

theorem putWord_sameOn {m : Memory} {a v lo hi : ℕ} (h : hi ≤ a ∨ a + 4 ≤ lo) :
    SameOn m (putWord m a v) lo hi :=
  fun _ _ _ => putWord_apply (by omega)

theorem word_putWord_same (m : Memory) (a v : ℕ) : word (putWord m a v) a = v % 2 ^ 32 := by
  simp [word, putWord]
  omega

theorem word_putWord_self {m : Memory} {a v : ℕ} (hv : v < 2 ^ 32) :
    word (putWord m a v) a = v :=
  (word_putWord_same m a v).trans (Nat.mod_eq_of_lt hv)

theorem word_putWord_of_disjoint {m : Memory} {a b v : ℕ} (h : b + 4 ≤ a ∨ a + 4 ≤ b) :
    word (putWord m a v) b = word m b :=
  have hs : SameOn m (putWord m a v) b (b + 4) := putWord_sameOn h
  word_congr hs le_rfl le_rfl

theorem putWord_comm {m : Memory} {a b v w : ℕ} (h : b + 4 ≤ a ∨ a + 4 ≤ b) :
    putWord (putWord m a v) b w = putWord (putWord m b w) a v := by
  funext x
  by_cases ha : x < a ∨ a + 4 ≤ x
  · by_cases hb : x < b ∨ b + 4 ≤ x
    · simp only [putWord_apply ha, putWord_apply hb]
    · rw [putWord_apply ha]
      simp only [putWord, if_neg (show ¬ x = a by omega), if_neg (show ¬ x = a + 1 by omega),
        if_neg (show ¬ x = a + 2 by omega), if_neg (show ¬ x = a + 3 by omega)]
  · have hb : x < b ∨ b + 4 ≤ x := by omega
    rw [putWord_apply hb]
    simp only [putWord, if_neg (show ¬ x = b by omega), if_neg (show ¬ x = b + 1 by omega),
      if_neg (show ¬ x = b + 2 by omega), if_neg (show ¬ x = b + 3 by omega)]

/-- Storing the word that is already there changes nothing. -/
theorem putWord_word (m : Memory) (a : ℕ) : putWord m a (word m a) = m := by
  funext x
  have h₀ := (m a).toNat_lt
  have h₁ := (m (a + 1)).toNat_lt
  have h₂ := (m (a + 2)).toNat_lt
  have hbyte : ∀ (b : UInt8) (v : ℕ), v % 2 ^ 8 = b.toNat → UInt8.ofNat v = b := by
    intro b v hv
    apply UInt8.toNat_inj.mp
    rw [UInt8.toNat_ofNat', hv]
  unfold putWord
  split
  · subst x
    exact hbyte _ _ (by unfold word; omega)
  split
  · subst x
    exact hbyte _ _ (by unfold word; omega)
  split
  · subst x
    exact hbyte _ _ (by unfold word; omega)
  split
  · subst x
    have h₃ := (m (a + 3)).toNat_lt
    exact hbyte _ _ (by unfold word; omega)
  · rfl

theorem copyBytes_sameOn {m : Memory} {dst src n lo hi : ℕ} (h : hi ≤ dst ∨ dst + n ≤ lo) :
    SameOn m (copyBytes m dst src n) lo hi := by
  intro x hlo hhi
  unfold copyBytes
  rw [if_neg (by omega)]

theorem copyBytes_apply {m : Memory} {dst src n i : ℕ} (h : i < n) :
    copyBytes m dst src n (dst + i) = m (src + i) := by
  unfold copyBytes
  rw [if_pos (by omega), Nat.add_sub_cancel_left]

theorem word_copyBytes {m : Memory} {dst src n a : ℕ} (hlo : dst ≤ a) (hhi : a + 4 ≤ dst + n) :
    word (copyBytes m dst src n) a = word m (src + (a - dst)) := by
  have hbyte : ∀ i, i < 4 → copyBytes m dst src n (a + i) = m (src + (a - dst) + i) := by
    intro i hi
    unfold copyBytes
    rw [if_pos (by omega), show a + i - dst = a - dst + i by omega, Nat.add_assoc]
  have h₀ := hbyte 0 (by norm_num)
  rw [Nat.add_zero, Nat.add_zero] at h₀
  simp only [word, h₀, hbyte 1 (by norm_num), hbyte 2 (by norm_num), hbyte 3 (by norm_num)]

def bitAt (m : Memory) (i : ℕ) : Bool := (m (i / 8)).toNat.testBit (i % 8)

theorem word_nested (m : Memory) (a : ℕ) : word m a =
    2 ^ 8 * (2 ^ 8 * (2 ^ 8 * (m (a + 3)).toNat + (m (a + 2)).toNat) + (m (a + 1)).toNat) +
      (m a).toNat := by
  unfold word
  omega

/-- A word is the run of 32 bits from its first byte on. -/
theorem testBit_word (m : Memory) (a : ℕ) {j : ℕ} (hj : j < 32) :
    (word m a).testBit j = bitAt m (8 * a + j) := by
  have h₀ := (m a).toNat_lt
  have h₁ := (m (a + 1)).toNat_lt
  have h₂ := (m (a + 2)).toNat_lt
  have hat : ∀ i, i * 8 ≤ j → j < i * 8 + 8 → bitAt m (8 * a + j) =
      (m (a + i)).toNat.testBit (j - i * 8) := by
    intro i hlo hhi
    unfold bitAt
    rw [show (8 * a + j) / 8 = a + i by omega, show (8 * a + j) % 8 = j - i * 8 by omega]
  rw [word_nested, Nat.testBit_two_pow_mul_add _ h₀]
  split
  · rw [hat 0 (by omega) (by omega)]
    simp
  rw [Nat.testBit_two_pow_mul_add _ h₁]
  split
  · rw [hat 1 (by omega) (by omega)]
  rw [Nat.testBit_two_pow_mul_add _ h₂]
  split
  · rw [hat 2 (by omega) (by omega), Nat.sub_sub]
  · rw [hat 3 (by omega) (by omega), Nat.sub_sub, Nat.sub_sub]

theorem bitAt_putWord (m : Memory) (a v i : ℕ) : bitAt (putWord m a v) i =
    if 8 * a ≤ i ∧ i < 8 * a + 32 then v.testBit (i - 8 * a) else bitAt m i := by
  have hbyte : ∀ k, i / 8 = a + k → (UInt8.ofNat (v / 2 ^ (8 * k))).toNat.testBit (i % 8) =
      v.testBit (i - 8 * a) := by
    intro k hk
    rw [UInt8.toNat_ofNat', Nat.testBit_mod_two_pow, Nat.testBit_div_two_pow,
      show i % 8 + 8 * k = i - 8 * a by omega, decide_eq_true (by omega), Bool.true_and]
  unfold bitAt
  split
  · next hin =>
    unfold putWord
    split
    · next h => simpa using hbyte 0 (by omega)
    split
    · next h => simpa using hbyte 1 (by omega)
    split
    · next h => simpa using hbyte 2 (by omega)
    split
    · next h => simpa using hbyte 3 (by omega)
    · omega
  · next hout => rw [putWord_apply (by omega)]
/-- Clearing the low `k` bits of a word. -/
theorem and_high_bits {w k : ℕ} (hw : w < 2 ^ 32) (hk : k ≤ 32) :
    w &&& (2 ^ 32 - 2 ^ k) = w - w % 2 ^ k := by
  have hpow : 2 ^ 32 - 2 ^ k = 2 ^ k * (2 ^ (32 - k) - 1) := by
    rw [Nat.mul_sub_one, ← Nat.pow_add, Nat.add_sub_cancel' hk]
  have hlow : w - w % 2 ^ k = 2 ^ k * (w / 2 ^ k) := by
    have h := Nat.div_add_mod w (2 ^ k)
    omega
  apply Nat.eq_of_testBit_eq
  intro i
  rw [hpow, hlow, Nat.testBit_and, Nat.testBit_two_pow_mul, Nat.testBit_two_pow_mul,
    Nat.testBit_two_pow_sub_one, Nat.testBit_div_two_pow]
  by_cases hki : k ≤ i
  · rw [Nat.sub_add_cancel hki]
    by_cases hi : i < 32
    · simp [hki, show i - k < 32 - k by omega]
    · have hwi : w < 2 ^ i := hw.trans_le (Nat.pow_le_pow_right (by norm_num) (by omega))
      simp [Nat.testBit_lt_two_pow hwi]
  · simp [hki]

end SystemSoftware.ByteMemory
