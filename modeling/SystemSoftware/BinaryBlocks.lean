import Mathlib.Data.List.Perm.Basic
import Mathlib.Data.Nat.Bitwise
import Mathlib.Tactic.Ring

/-!
Naturally aligned blocks of 2^k numbers. A block is halved into two buddies,
which differ in one bit of their first number, and two buddies are joined
again. A list of blocks is exact up to a bound when it covers every number
below the bound once and no number from it on.
-/
namespace SystemSoftware.BinaryBlocks

abbrev Block := ℕ × ℕ

def covers (x : ℕ) (b : Block) : Bool := decide (b.1 ≤ x ∧ x < b.1 + 2 ^ b.2)

theorem covers_iff {x : ℕ} {b : Block} : covers x b = true ↔ b.1 ≤ x ∧ x < b.1 + 2 ^ b.2 := by
  simp [covers]

theorem covers_self (b : Block) : covers b.1 b = true :=
  covers_iff.mpr ⟨le_rfl, Nat.lt_add_of_pos_right (Nat.two_pow_pos b.2)⟩

def Aligned (b : Block) : Prop := 2 ^ b.2 ∣ b.1

section Buddies

variable {p k : ℕ}

/-- An aligned block is the lower or the upper half of a pair. -/
theorem aligned_cases (h : Aligned (p, k)) : ∃ i, p / 2 ^ (k + 1) = i ∧
    p - p % 2 ^ (k + 1) = 2 * (i * 2 ^ k) ∧
    (p = 2 * (i * 2 ^ k) ∨ p = 2 * (i * 2 ^ k) + 2 ^ k) := by
  obtain ⟨a, ha⟩ := h
  simp only at ha
  have hpos := Nat.two_pow_pos k
  have hdiv : p / 2 ^ (k + 1) = a / 2 := by
    rw [ha, pow_succ, Nat.mul_div_mul_left _ _ hpos]
  have hdm := Nat.div_add_mod p (2 ^ (k + 1))
  have hpair : 2 ^ (k + 1) * (a / 2) = 2 * (a / 2 * 2 ^ k) := by ring
  rw [hdiv, hpair] at hdm
  refine ⟨a / 2, hdiv, by omega, ?_⟩
  rcases Nat.mod_two_eq_zero_or_one a with hm | hm
  · left
    have h2 : a = 2 * (a / 2) := by omega
    calc p = 2 ^ k * (2 * (a / 2)) := by rw [← h2, ha]
      _ = 2 * (a / 2 * 2 ^ k) := by ring
  · right
    have h2 : a = 2 * (a / 2) + 1 := by omega
    calc p = 2 ^ k * (2 * (a / 2) + 1) := by rw [← h2, ha]
      _ = 2 * (a / 2 * 2 ^ k) + 2 ^ k := by ring

theorem xor_two_pow_eq (p k : ℕ) :
    p ^^^ 2 ^ k = 2 ^ k * ((p / 2 ^ k) ^^^ 1) + p % 2 ^ k := by
  have hdm := Nat.div_add_mod (p ^^^ 2 ^ k) (2 ^ k)
  rwa [Nat.xor_div_two_pow, Nat.div_self (Nat.two_pow_pos k), Nat.xor_mod_two_pow,
    Nat.mod_self, Nat.xor_zero, eq_comm] at hdm

theorem buddy_lower (i k : ℕ) : (2 * (i * 2 ^ k)) ^^^ 2 ^ k = 2 * (i * 2 ^ k) + 2 ^ k := by
  have hpos := Nat.two_pow_pos k
  have hform : 2 * (i * 2 ^ k) = 2 ^ k * (2 * i) := by ring
  rw [xor_two_pow_eq, hform, Nat.mul_div_cancel_left _ hpos, Nat.mul_mod_right,
    Nat.xor_one_of_even (even_two_mul i)]
  ring

theorem buddy_upper (i k : ℕ) : (2 * (i * 2 ^ k) + 2 ^ k) ^^^ 2 ^ k = 2 * (i * 2 ^ k) := by
  rw [← buddy_lower, Nat.xor_xor_cancel_right]

theorem buddy_ne (p k : ℕ) : p ^^^ 2 ^ k ≠ p := by
  intro h
  have hz : p ^^^ (p ^^^ 2 ^ k) = 0 := by rw [h, Nat.xor_self]
  rw [Nat.xor_xor_cancel_left] at hz
  exact (Nat.two_pow_pos k).ne' hz

theorem buddy_buddy (p k : ℕ) : (p ^^^ 2 ^ k) ^^^ 2 ^ k = p := Nat.xor_xor_cancel_right ..

theorem aligned_buddy (h : Aligned (p, k)) : Aligned (p ^^^ 2 ^ k, k) := by
  have hmod : p % 2 ^ k = 0 := Nat.mod_eq_zero_of_dvd h
  unfold Aligned
  rw [xor_two_pow_eq, hmod, Nat.add_zero]
  exact Nat.dvd_mul_right ..

theorem aligned_parent (p k : ℕ) : Aligned (p - p % 2 ^ (k + 1), k + 1) := Nat.dvd_sub_mod p

theorem aligned_upper (h : Aligned (p, k + 1)) : Aligned (p, k) ∧ Aligned (p + 2 ^ k, k) := by
  have hlow : 2 ^ k ∣ p := (pow_dvd_pow 2 (Nat.le_succ k)).trans h
  exact ⟨hlow, Nat.dvd_add hlow (Nat.dvd_refl _)⟩

/-- Two aligned blocks with a common number are nested. -/
theorem aligned_nested {b c : Block} (hb : Aligned b) (hc : Aligned c) (hle : b.2 ≤ c.2) {x : ℕ}
    (hxb : covers x b = true) (hxc : covers x c = true) :
    c.1 ≤ b.1 ∧ b.1 + 2 ^ b.2 ≤ c.1 + 2 ^ c.2 := by
  have hstep : ∀ {d a e : ℕ}, d ∣ a → d ∣ e → a < e + d → a ≤ e := by
    rintro d _ _ ⟨a, rfl⟩ ⟨e, rfl⟩ hlt
    rw [← Nat.mul_add_one] at hlt
    exact Nat.mul_le_mul_left d (Nat.lt_succ_iff.mp (Nat.lt_of_mul_lt_mul_left hlt))
  have hpow : 2 ^ b.2 ∣ 2 ^ c.2 := pow_dvd_pow 2 hle
  have hc' : 2 ^ b.2 ∣ c.1 := hpow.trans hc
  rw [covers_iff] at hxb hxc
  refine ⟨hstep hc' hb (by omega), ?_⟩
  exact hstep (Nat.dvd_add hb (Nat.dvd_refl _)) (Nat.dvd_add hc' hpow) (by omega)

/-- An aligned block that starts below 2^m ends there at the latest. -/
theorem aligned_end_le {b : Block} {m : ℕ} (hb : Aligned b) (hle : b.2 ≤ m) (hlt : b.1 < 2 ^ m) :
    b.1 + 2 ^ b.2 ≤ 2 ^ m := by
  have hall : Aligned (0, m) := Nat.dvd_zero _
  have hin : covers b.1 (0, m) = true := covers_iff.mpr ⟨Nat.zero_le _, by simpa using hlt⟩
  have hend := (aligned_nested hb hall hle (covers_self b) hin).2
  rwa [Nat.zero_add] at hend

end Buddies

def Exact (n : ℕ) (bs : List Block) : Prop :=
  ∀ x, bs.countP (covers x) = if x < n then 1 else 0

namespace Exact

variable {n p k x : ℕ} {b c : Block} {bs cs : List Block}

theorem perm (h : Exact n bs) (hp : bs.Perm cs) : Exact n cs := fun x => by
  rw [← hp.countP_eq, h x]

/-- No number lies in two blocks. -/
theorem not_covers (h : Exact n (b :: bs)) (hb : covers x b = true) (hc : c ∈ bs) :
    covers x c = false := by
  have hx := h x
  rw [List.countP_cons_of_pos hb] at hx
  have hz : bs.countP (covers x) = 0 := by
    split at hx <;> omega
  have hno := List.countP_eq_zero.mp hz c hc
  simpa using hno

theorem eq_of_covers (h : Exact n bs) (hb : b ∈ bs) (hc : c ∈ bs) (hxb : covers x b = true)
    (hxc : covers x c = true) : b = c := by
  by_contra hne
  have hmem : c ∈ bs.erase b := (List.mem_erase_of_ne (Ne.symm hne)).mpr hc
  have hno := (h.perm (List.perm_cons_erase hb)).not_covers hxb hmem
  rw [hxc] at hno
  simp at hno

/-- Of two blocks one ends before the other begins. -/
theorem apart (h : Exact n (b :: bs)) (hc : c ∈ bs) :
    b.1 + 2 ^ b.2 ≤ c.1 ∨ c.1 + 2 ^ c.2 ≤ b.1 := by
  by_contra hcon
  have hpos := Nat.two_pow_pos b.2
  have hpos' := Nat.two_pow_pos c.2
  have hmax : covers (max b.1 c.1) c = true := covers_iff.mpr (by omega)
  have hno := h.not_covers (x := max b.1 c.1) (covers_iff.mpr (by omega)) hc
  rw [hmax] at hno
  cases hno

theorem lt_of_mem (h : Exact n bs) (hb : b ∈ bs) (hx : covers x b = true) : x < n := by
  by_contra hge
  have hz := h x
  rw [if_neg hge] at hz
  exact List.countP_eq_zero.mp hz b hb hx

theorem exists_covers (h : Exact n bs) (hx : x < n) : ∃ b ∈ bs, covers x b = true := by
  have hone := h x
  rw [if_pos hx] at hone
  exact List.countP_pos_iff.mp (by omega)

/-- Halving a block. -/
theorem split_iff : Exact n ((p, k + 1) :: bs) ↔ Exact n ((p, k) :: (p + 2 ^ k, k) :: bs) := by
  have hcount : ∀ x, ((p, k + 1) :: bs).countP (covers x) =
      ((p, k) :: (p + 2 ^ k, k) :: bs).countP (covers x) := by
    intro x
    have hpow : 2 ^ (k + 1) = 2 ^ k + 2 ^ k := by ring
    have hpos := Nat.two_pow_pos k
    simp only [List.countP_cons, covers_iff, hpow]
    split_ifs <;> omega
  constructor
  · exact fun h x => (hcount x).symm.trans (h x)
  · exact fun h x => (hcount x).trans (h x)

/-- Joining a block and its buddy. -/
theorem join (hp : Aligned (p, k)) (h : Exact n ((p, k) :: (p ^^^ 2 ^ k, k) :: bs)) :
    Exact n ((p - p % 2 ^ (k + 1), k + 1) :: bs) := by
  obtain ⟨i, -, hpar, hcase⟩ := aligned_cases hp
  rw [hpar, split_iff]
  rcases hcase with rfl | rfl
  · rwa [buddy_lower] at h
  · rw [buddy_upper] at h
    exact h.perm (List.Perm.swap ..)

/-- Blocks of which no two are buddies below some order are of that order or above. -/
theorem le_of_lone {m d : ℕ} (h : Exact (2 ^ m) bs) (hal : ∀ b ∈ bs, Aligned b) (hd : d ≤ m)
    (hlone : ∀ b ∈ bs, b.2 < d → (b.1 ^^^ 2 ^ b.2, b.2) ∉ bs) : ∀ b ∈ bs, d ≤ b.2 := by
  -- By induction on the order: a smallest block has its buddy in the list.
  have hmin : ∀ k, ∀ b ∈ bs, b.2 = k → d ≤ k := by
    intro k
    induction k using Nat.strong_induction_on with
    | _ k ih =>
      rintro ⟨p, k'⟩ hb hbk
      obtain rfl : k' = k := hbk
      by_contra hne
      have hk : k' < d := Nat.lt_of_not_le hne
      have hbal : Aligned (p, k') := hal _ hb
      have hbuddy : p ^^^ 2 ^ k' < 2 ^ m :=
        Nat.xor_lt_two_pow (h.lt_of_mem hb (covers_self _))
          (Nat.pow_lt_pow_right (by norm_num) (by omega))
      obtain ⟨c, hc, hcov⟩ := h.exists_covers hbuddy
      have hkc : k' ≤ c.2 := by
        by_contra hlt
        have htop := ih c.2 (by omega) c hc rfl
        omega
      have hself : covers (p ^^^ 2 ^ k') (p ^^^ 2 ^ k', k') = true := covers_self _
      rcases hkc.eq_or_lt with heq | hlt
      · obtain ⟨hlo, hhi⟩ := aligned_nested (aligned_buddy hbal) (hal c hc) hkc hself hcov
        have hceq : c = (p ^^^ 2 ^ k', k') := by
          rw [← heq] at hhi
          exact Prod.ext (by simp only at hlo hhi ⊢; omega) heq.symm
        exact hlone _ hb hk (hceq ▸ hc)
      -- A larger block around the buddy also holds the block itself.
      · have hpos := Nat.two_pow_pos k'
        have hpow : 2 ^ (k' + 1) = 2 ^ k' + 2 ^ k' := by ring
        obtain ⟨i, -, hpar, hcase⟩ := aligned_cases hbal
        have hpair : covers (p ^^^ 2 ^ k') (p - p % 2 ^ (k' + 1), k' + 1) = true ∧
            covers p (p - p % 2 ^ (k' + 1), k' + 1) = true := by
          rw [hpar]
          simp only [covers_iff, hpow]
          rcases hcase with rfl | rfl
          · rw [buddy_lower]
            omega
          · rw [buddy_upper]
            omega
        obtain ⟨hlo, hhi⟩ := aligned_nested (aligned_parent p k') (hal c hc) hlt hpair.1 hcov
        have hin := covers_iff.mp hpair.2
        simp only at hlo hhi hin
        have hpc : covers p c = true := covers_iff.mpr ⟨by omega, by omega⟩
        have hceq := h.eq_of_covers hb hc (covers_self _) hpc
        rw [← hceq] at hlt
        exact absurd hlt (by simp)
  exact fun b hb => hmin b.2 b hb rfl

end Exact

section Gaps

variable {n : ℕ} {bs : List Block}

/-- The numbers below `n` that no block covers, as blocks of order 0. -/
def gaps (n : ℕ) (bs : List Block) : List Block :=
  ((List.range n).filter (fun x => bs.countP (covers x) = 0)).map (fun x => (x, 0))

theorem countP_gaps (n : ℕ) (bs : List Block) (x : ℕ) :
    (gaps n bs).countP (covers x) = if x < n ∧ bs.countP (covers x) = 0 then 1 else 0 := by
  have hself : (covers x ∘ fun y => (y, 0)) = fun y => y == x := by
    funext y
    rw [Function.comp_apply, Bool.eq_iff_iff, covers_iff, beq_iff_eq]
    simp only [Nat.pow_zero]
    omega
  rw [gaps, List.countP_map, hself, ← List.count, List.Nodup.count (List.nodup_range.filter _)]
  simp only [List.mem_filter, List.mem_range, decide_eq_true_eq]

theorem aligned_gaps : ∀ b ∈ gaps n bs, Aligned b := by
  intro b hb
  obtain ⟨x, -, rfl⟩ := List.mem_map.mp hb
  exact Nat.one_dvd x

/-- Blocks without a common number below `n`, together with the gaps between them. -/
theorem exact_gaps (hin : ∀ b ∈ bs, ∀ x, covers x b = true → x < n)
    (hle : ∀ x, bs.countP (covers x) ≤ 1) : Exact n (bs ++ gaps n bs) := by
  intro x
  have hx := hle x
  rw [List.countP_append, countP_gaps]
  rcases Nat.lt_or_ge x n with hlt | hge
  · split_ifs <;> omega
  · have hz : bs.countP (covers x) = 0 := by
      rw [List.countP_eq_zero]
      intro b hb hcov
      exact absurd (hin b hb x hcov) (Nat.not_lt.mpr hge)
    rw [hz, if_neg (by omega), if_neg (by omega)]

end Gaps

end SystemSoftware.BinaryBlocks
