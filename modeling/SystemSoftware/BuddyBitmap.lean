import SystemSoftware.BuddyPages
import SystemSoftware.BinaryBlocks

/-!
The order bitmaps as single bits of memory. Every access to a bitmap reads or
writes one bit; bits of different orders never meet, but within an order
`BITMAP_INDEX` drops one bit of the position, so that a pair of buddies shares
its bit with the pair whose number differs in bit 5. `Bits` says what the bits
hold for given free lists.
-/
namespace SystemSoftware.BuddyBitmap

open ByteMemory BinaryBlocks BuddyPages

def bitOf (bitmap pos : ℕ) : ℕ := 8 * (bitmap + 4 * (pos / 64)) + pos % 32

section Access

variable (m : Memory) (bitmap pos x : ℕ)

theorem bitmapIndex_eq : bitmapIndex pos = pos / 64 := Nat.shiftRight_eq_div_pow pos 6

theorem pos_and : pos &&& 31 = pos % 32 := Nat.and_two_pow_sub_one_eq_mod pos 5

theorem bitmapGet_eq : bitmapGet m bitmap pos = bitAt m (bitOf bitmap pos) := by
  have hlt : pos % 32 < 32 := Nat.mod_lt _ (by norm_num)
  rw [bitmapGet, bitmapIndex_eq, pos_and, Nat.one_shiftLeft, Nat.and_two_pow, bitOf,
    ← testBit_word m _ hlt]
  cases (word m (bitmap + 4 * (pos / 64))).testBit (pos % 32) <;> simp

theorem bitmapSet_bit (set : Bool) : bitAt (bitmapSet m bitmap pos set).1 x =
    if x = bitOf bitmap pos then set else bitAt m x := by
  have hlt : pos % 32 < 32 := Nat.mod_lt _ (by norm_num)
  have hword : ∀ v, (∀ j, j < 32 → v.testBit j =
      if j = pos % 32 then set else (word m (bitmap + 4 * (pos / 64))).testBit j) →
      bitAt (putWord m (bitmap + 4 * (pos / 64)) v) x =
        if x = bitOf bitmap pos then set else bitAt m x := by
    intro v hv
    rw [bitAt_putWord]
    split
    · next hin =>
      rw [hv _ (by omega)]
      by_cases hx : x = bitOf bitmap pos
      · rw [if_pos hx, if_pos (by rw [hx, bitOf]; omega)]
      · rw [if_neg hx, if_neg (by unfold bitOf at hx; omega), testBit_word m _ (by omega)]
        congr 1
        omega
    · next hout => rw [if_neg (by unfold bitOf; omega)]
  unfold bitmapSet
  simp only [bitmapIndex_eq, pos_and, Nat.one_shiftLeft]
  cases set with
  | true =>
    refine hword _ fun j hj => ?_
    rw [Nat.testBit_or, Nat.testBit_two_pow]
    by_cases hjp : j = pos % 32
    · simp [hjp]
    · simp [hjp, Ne.symm hjp]
  | false =>
    refine hword _ fun j hj => ?_
    rw [Nat.testBit_and, Nat.testBit_xor, Nat.testBit_two_pow, Nat.testBit_two_pow_sub_one]
    by_cases hjp : j = pos % 32
    · simp [hjp, hlt]
    · simp [hjp, Ne.symm hjp, hj]

theorem bitmapSwitch_bit : bitAt (bitmapSwitch m bitmap pos).1 x =
    if x = bitOf bitmap pos then !bitAt m x else bitAt m x := by
  simp only [bitmapSwitch, bitmapSet_bit, bitmapGet_eq]
  split
  · next hx => rw [hx]
  · rfl

theorem bitmapSwitch_prev : (bitmapSwitch m bitmap pos).2 = bitAt m (bitOf bitmap pos) :=
  bitmapGet_eq m bitmap pos

end Access

section Layout

/-- Every bitmap has room for one bit a pair of its order. -/
theorem bitmapSize_ge : ∀ k < maxOrder, 2 ^ (15 - k) ≤ 8 * bitmapSize k := by decide

theorem bitmapOffset_le {j k : ℕ} (h : j < k) :
    bitmapOffset j + bitmapSize j ≤ bitmapOffset k := by
  induction k with
  | zero => omega
  | succ k ih =>
    rcases Nat.lt_succ_iff_lt_or_eq.mp h with hlt | rfl
    · exact (ih hlt).trans (Nat.le_add_right ..)
    · exact le_rfl

/-- The bits of one order lie between its bitmap's first bit and the next bitmap. -/
theorem bitOf_bounds {k pos : ℕ} (hk : k < maxOrder) (hpos : pos < 2 ^ (15 - k)) :
    8 * bitmapOffset k ≤ bitOf (bitmapOffset k) pos ∧
      bitOf (bitmapOffset k) pos < 8 * (bitmapOffset k + bitmapSize k) := by
  have hsize := bitmapSize_ge k hk
  unfold bitOf
  omega

theorem xor_32 (p : ℕ) : p ^^^ 32 = if p / 32 % 2 = 0 then p + 32 else p - 32 := by
  have h := xor_two_pow_eq p 5
  rw [show (2 : ℕ) ^ 5 = 32 by norm_num] at h
  have hdm := Nat.div_add_mod p 32
  rw [h]
  split
  · next heven =>
    rw [Nat.xor_one_of_even (Nat.even_iff.mpr heven)]
    omega
  · next hodd =>
    rw [Nat.xor_one_of_odd (Nat.odd_iff.mpr (by omega))]
    omega

/-- Two positions share a bit only within an order and only as a pair that
`BITMAP_INDEX` cannot tell apart. -/
theorem bitOf_eq_iff {j k p q : ℕ} (hj : j < maxOrder) (hk : k < maxOrder)
    (hp : p < 2 ^ (15 - j)) (hq : q < 2 ^ (15 - k)) :
    bitOf (bitmapOffset j) p = bitOf (bitmapOffset k) q ↔ j = k ∧ (q = p ∨ q = p ^^^ 32) := by
  have hbj := bitOf_bounds hj hp
  have hbk := bitOf_bounds hk hq
  have hxor := xor_32 p
  constructor
  · intro heq
    have hjk : j = k := by
      by_contra hne
      rcases Nat.lt_or_gt_of_ne hne with hlt | hlt
      · have hle := bitmapOffset_le hlt
        omega
      · have hle := bitmapOffset_le hlt
        omega
    subst hjk
    refine ⟨rfl, ?_⟩
    unfold bitOf at heq
    rw [hxor]
    split <;> omega
  · rintro ⟨rfl, rfl | rfl⟩
    · rfl
    · unfold bitOf
      rw [hxor]
      split <;> omega

end Layout

section Independence

/-- What the bit of one position and the bit of another have to do with each other when
they are two bits: both writers return what the first bit was and leave it as written,
and the second bit reads as before. -/
structure Independent (m : Memory) (bitmap pos bitmap' pos' : ℕ) : Prop where
  set_prev : ∀ set, (bitmapSet m bitmap pos set).2 = bitmapGet m bitmap pos
  set_get : ∀ set, bitmapGet (bitmapSet m bitmap pos set).1 bitmap pos = set
  set_other : ∀ set, bitmapGet (bitmapSet m bitmap pos set).1 bitmap' pos' =
    bitmapGet m bitmap' pos'
  switch_prev : (bitmapSwitch m bitmap pos).2 = bitmapGet m bitmap pos
  switch_get : bitmapGet (bitmapSwitch m bitmap pos).1 bitmap pos = !bitmapGet m bitmap pos
  switch_other : bitmapGet (bitmapSwitch m bitmap pos).1 bitmap' pos' =
    bitmapGet m bitmap' pos'

variable (m : Memory) {bitmap pos bitmap' pos' : ℕ}

theorem bitmapSet_prev (set : Bool) :
    (bitmapSet m bitmap pos set).2 = bitmapGet m bitmap pos := by
  unfold bitmapSet
  cases set <;> rfl

/-- The writers disturb another position exactly when it has the same bit of memory. -/
theorem independent_iff_bitOf :
    Independent m bitmap pos bitmap' pos' ↔ bitOf bitmap pos ≠ bitOf bitmap' pos' := by
  constructor
  · intro h heq
    have hswitch := h.switch_other
    rw [bitmapGet_eq, bitmapGet_eq, bitmapSwitch_bit, if_pos heq.symm] at hswitch
    exact Bool.not_ne_self _ hswitch
  · intro hne
    refine ⟨bitmapSet_prev m, ?_, ?_, rfl, ?_, ?_⟩
    · intro set
      rw [bitmapGet_eq, bitmapSet_bit, if_pos rfl]
    · intro set
      rw [bitmapGet_eq, bitmapGet_eq, bitmapSet_bit, if_neg hne.symm]
    · rw [bitmapGet_eq, bitmapGet_eq, bitmapSwitch_bit, if_pos rfl]
    · rw [bitmapGet_eq, bitmapGet_eq, bitmapSwitch_bit, if_neg hne.symm]

/-- The bits of all orders are independent but for the pairs of positions that
`BITMAP_INDEX` cannot tell apart. -/
theorem independent_iff {j k p q : ℕ} (hj : j < maxOrder) (hk : k < maxOrder)
    (hp : p < max 1 (2 ^ (15 - j))) (hq : q < max 1 (2 ^ (15 - k))) (hne : (j, p) ≠ (k, q)) :
    Independent m (bitmapOffset j) p (bitmapOffset k) q ↔ ¬(j = k ∧ q = p ^^^ 32) := by
  rw [max_eq_right Nat.one_le_two_pow] at hp hq
  rw [independent_iff_bitOf, ne_eq, bitOf_eq_iff hj hk hp hq]
  have hsame : ¬(j = k ∧ q = p) := fun h => hne (by rw [h.1, h.2])
  tauto

/-- The one bit of order 15 and a bit of order 14, which one word access reaches together. -/
theorem independent_iff_top :
    Independent (fun _ => 0) (bitmapOffset 14) 1 (bitmapOffset 15) 0 :=
  (independent_iff (fun _ => 0) (by decide) (by decide) (by decide) (by decide)
    (by decide)).mpr (by decide)

/-- Setting position 0 of order 0 sets position 32 as well. -/
theorem independent_shared : ((0, 0) : ℕ × ℕ) ≠ (0, 32) ∧
    ¬Independent (fun _ => 0) (bitmapOffset 0) 0 (bitmapOffset 0) 32 :=
  ⟨by decide, fun h => absurd (h.set_other true) (by decide)⟩

end Independence

def half (l : List ℕ) (k i : ℕ) : Bool :=
  xor (decide (2 * (i * 2 ^ k) ∈ l)) (decide (2 * (i * 2 ^ k) + 2 ^ k ∈ l))

/-- The bit of a pair counts its half-free pairs: itself and the one it shares the bit with. -/
def Bits (m : Memory) (F : ℕ → List ℕ) : Prop :=
  ∀ k < 15, ∀ i < 2 ^ (15 - k),
    bitAt m (bitOf (bitmapOffset k) i) = xor (half (F k) k i) (half (F k) k (i ^^^ 32))

section Half

variable {l l' : List ℕ} {k p : ℕ}

theorem half_congr (h : ∀ q, q ∈ l ↔ q ∈ l') (i : ℕ) : half l k i = half l' k i := by
  simp only [half, h]

/-- A block put on the list turns its pair over. -/
theorem half_cons (hp : p ∉ l) (hal : Aligned (p, k)) (i : ℕ) :
    half (p :: l) k i = xor (half l k i) (decide (i = p / 2 ^ (k + 1))) := by
  have hpos := Nat.two_pow_pos k
  obtain ⟨j, hj, -, hcase⟩ := aligned_cases hal
  rw [hj]
  have hinj : ∀ {a b : ℕ}, a * 2 ^ k = b * 2 ^ k → a = b := fun h =>
    Nat.eq_of_mul_eq_mul_right hpos h
  by_cases hij : i = j
  · subst hij
    rcases hcase with rfl | rfl <;> simp [half, hp]
  · have hparity : ∀ {a b : ℕ}, 2 * (a * 2 ^ k) ≠ 2 * (b * 2 ^ k) + 2 ^ k := by
      intro a b hab
      have hab' : 2 ^ k * (2 * a) = 2 ^ k * (2 * b + 1) := by
        calc 2 ^ k * (2 * a) = 2 * (a * 2 ^ k) := by ring
          _ = 2 * (b * 2 ^ k) + 2 ^ k := hab
          _ = 2 ^ k * (2 * b + 1) := by ring
      have := Nat.eq_of_mul_eq_mul_left hpos hab'
      omega
    have hne : i * 2 ^ k ≠ j * 2 ^ k := fun h => hij (hinj h)
    rcases hcase with rfl | rfl
    · have h₂ := Ne.symm (hparity (a := j) (b := i))
      simp [half, hij, h₂]
    · have h₂ := hparity (a := i) (b := j)
      simp [half, hij, h₂]

end Half

/-- Turning over one pair of one order and switching its bit. -/
theorem Bits.switch {m : Memory} {F F' : ℕ → List ℕ} (hb : Bits m F) {k i : ℕ} (hk : k < 15)
    (hi : i < 2 ^ (15 - k))
    (hhalf : ∀ j, half (F' k) k j = xor (half (F k) k j) (decide (j = i)))
    (hother : ∀ j, j ≠ k → F' j = F j) :
    Bits (bitmapSwitch m (bitmapOffset k) i).1 F' := by
  intro k' hk' i' hi'
  have hmax : ∀ {j}, j < 15 → j < maxOrder := fun h => Nat.lt_of_lt_of_le h (by decide)
  rw [bitmapSwitch_bit, hb k' hk' i' hi']
  by_cases hkk : k' = k
  · subst hkk
    have hback : i' ^^^ 32 = i ↔ i' = i ^^^ 32 := by
      constructor
      · rintro rfl
        rw [Nat.xor_xor_cancel_right]
      · rintro rfl
        rw [Nat.xor_xor_cancel_right]
    have hne : i ^^^ 32 ≠ i := buddy_ne i 5
    have hcell : bitOf (bitmapOffset k') i' = bitOf (bitmapOffset k') i ↔
        i' = i ∨ i' = i ^^^ 32 := by
      rw [eq_comm]
      simpa using bitOf_eq_iff (hmax hk) (hmax hk') hi hi'
    simp only [hhalf, hcell, hback]
    by_cases h₁ : i' = i
    · subst h₁
      simp [Ne.symm hne]
    · by_cases h₂ : i' = i ^^^ 32
      · simp [h₂, hne]
      · simp [h₁, h₂]
  · have hcell : bitOf (bitmapOffset k') i' ≠ bitOf (bitmapOffset k) i := fun heq =>
      hkk ((bitOf_eq_iff (hmax hk') (hmax hk) hi' hi).mp heq).1
    rw [if_neg hcell, hother k' hkk]

end SystemSoftware.BuddyBitmap
