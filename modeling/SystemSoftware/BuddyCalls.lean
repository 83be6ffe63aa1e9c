import SystemSoftware.BuddyShape

/-!
What `mm_malloc` and `mm_free` of the buddy allocator do to its shape. A free
merges with the buddy as long as its bit is set; the bit is right about the
buddy while the pair that shares it is not half free, and stays clear of the
one bit of order 15 that `init_buddy` sets. `mergesSafely` follows the merging
on the lists and asks for both at every order it comes to.
-/
namespace SystemSoftware.BuddyCalls

open BinaryBlocks BuddyPages BuddyBitmap BuddyLists BuddyPieces BuddyMerge BuddyShape

/-- The merging of a freed block of order `order` from page `pageN` on, followed
on the lists `F`: it must stop with some order left below 15, and at each order
on its way the pair that shares the bit must not be half free. -/
def mergesSafely (F : ℕ → List ℕ) : ℕ → ℕ → ℕ → Bool
  | 0, _, _ => false
  | orders + 1, order, pageN =>
    !half (F order) order ((pageN >>> (1 + order)) ^^^ 32) &&
      (!decide (pageN ^^^ 2 ^ order ∈ F order) ||
        mergesSafely F orders (order + 1) (pageN - pageN % 2 ^ (order + 1)))

/-- Only the lists of the orders still to come matter. -/
theorem mergesSafely_congr {F G : ℕ → List ℕ} (n : ℕ) : ∀ k p,
    (∀ j, k ≤ j → j < k + n → F j = G j) → mergesSafely F n k p = mergesSafely G n k p := by
  induction n with
  | zero => exact fun _ _ _ => rfl
  | succ n ih =>
    intro k p h
    simp only [mergesSafely, h k le_rfl (by omega)]
    rw [ih (k + 1) _ fun j hj hjn => h j (by omega) (by omega)]

section Free

variable {O : List Block}

/-- What a bit says when the pair that shares it is not half free. -/
theorem half_buddy {l : List ℕ} {k p : ℕ} (hal : Aligned (p, k)) (hp : p ∉ l) :
    half l k (p / 2 ^ (k + 1)) = decide (p ^^^ 2 ^ k ∈ l) := by
  obtain ⟨i, hi, -, hcase⟩ := aligned_cases hal
  rw [hi, half]
  rcases hcase with rfl | rfl
  · rw [buddy_lower, decide_eq_false hp, Bool.false_xor]
  · rw [buddy_upper, decide_eq_false hp, Bool.xor_false]

/-- A safe merging stops below order 15 with a block whose buddy is not free. -/
theorem mergeEnd_of_safe (n : ℕ) : ∀ (F : ℕ → List ℕ) (k p : ℕ), k + n = 15 →
    Cover F ((p, k) :: O) → mergesSafely F n k p = true →
    ∃ b, mergeEnd F n k p = some b ∧ b.1 ^^^ 2 ^ b.2 ∉ F b.2 := by
  induction n with
  | zero => exact fun _ _ _ _ _ hsafe => absurd hsafe (by simp [mergesSafely])
  | succ n ih =>
    intro F k p hkn hcover hsafe
    have hk : k < maxOrder := Nat.lt_trans (show k < 15 by omega) (by decide)
    simp only [mergesSafely, Bool.and_eq_true, Bool.or_eq_true, Bool.not_eq_true',
      decide_eq_false_iff_not] at hsafe
    obtain ⟨hclear, hnext⟩ := hsafe
    have hbit : pairBit F k (p >>> (1 + k)) = decide (p ^^^ 2 ^ k ∈ F k) := by
      rw [pairBit, hclear, Bool.xor_false, pair_eq]
      exact half_buddy hcover.hand_aligned (hcover.not_listed (covers_self (p, k)) k hk)
    simp only [mergeEnd, hbit, decide_eq_true_eq]
    by_cases hbuddy : p ^^^ 2 ^ k ∈ F k
    · obtain ⟨l, r, hF⟩ := List.append_of_mem hbuddy
      have habove : ∀ j, k + 1 ≤ j → Function.update F k (l ++ r) j = F j :=
        fun j hj => Function.update_of_ne (by omega) ..
      have hsafe' := hnext.resolve_left (not_not.mpr hbuddy)
      rw [← mergesSafely_congr (F := Function.update F k (l ++ r)) n (k + 1) _
        fun j hj _ => habove j hj] at hsafe'
      obtain ⟨b, hend, hb⟩ := ih _ _ _ (by omega) (hcover.join hk hF) hsafe'
      rw [habove _ (mergeEnd_order n _ _ hend)] at hb
      rw [mergeEnd_update] at hend
      exact ⟨b, by rw [if_pos hbuddy, if_pos hbuddy, hend], hb⟩
    · exact ⟨(p, k), by rw [if_neg hbuddy], hbuddy⟩

end Free

end SystemSoftware.BuddyCalls
