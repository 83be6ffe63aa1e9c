import Mathlib.Data.Int.Order.Basic
import Mathlib.Data.Nat.Init

/-!
Binary search for the one index of a table that answers `.eq`. The table is
known by its answers only: `.gt` sends the search above the index that is
probed, `.lt` below it. When all answers below an index are `.gt`, its own is
`.eq` and all above it are `.lt`, the search finds that index. Whatever the
answers are, the search ends, and an index that it finds has answered `.eq`.
-/
namespace SystemSoftware.BinarySearch

/-- At most `rounds` rounds of `while(low<=high)`. The result is the index found
or, inside, that there is none. -/
def search (probe : ℕ → Ordering) : ℕ → ℤ → ℤ → Option (Option ℕ)
  | 0, _, _ => none
  | rounds + 1, low, high =>
    if low ≤ high then
      let mid := (low + high) / 2
      match probe mid.toNat with
      | .eq => some (some mid.toNat)
      | .gt => search probe rounds (mid + 1) high
      | .lt => search probe rounds low (mid - 1)
    else some none

/-- The index that all answers lead to stays between `low` and `high`. -/
theorem search_found {probe : ℕ → Ordering} {m n : ℕ} (hlow : ∀ i < m, probe i = .gt)
    (heq : probe m = .eq) (hhigh : ∀ i, m < i → i ≤ n → probe i = .lt) (rounds : ℕ) :
    ∀ low high : ℤ, 0 ≤ low → low ≤ m → m ≤ high → high ≤ n → high - low < rounds →
      search probe rounds low high = some (some m) := by
  induction rounds with
  | zero =>
    intro low high _ hlm hmh _ hrounds
    omega
  | succ rounds ih =>
    intro low high hpos hlm hmh hhn hrounds
    have hle : low ≤ high := Int.le_trans hlm hmh
    rw [search, if_pos hle]
    simp only
    generalize hmid : (low + high) / 2 = mid
    have hlo : low ≤ mid := by omega
    have hhi : mid ≤ high := by omega
    rcases Nat.lt_trichotomy mid.toNat m with hlt | rfl | hgt
    · rw [hlow _ hlt]
      apply ih
      all_goals omega
    · rw [heq]
    · rw [hhigh _ hgt (by omega)]
      apply ih
      all_goals omega

/-- With a round for every index and one more the search ends, and what it finds is an
index between the bounds that answers `.eq`. -/
theorem search_ends (probe : ℕ → Ordering) (rounds : ℕ) : ∀ low high : ℤ, 0 ≤ low →
    low ≤ high + 1 → high - low + 1 < rounds → search probe rounds low high = some none ∨
      ∃ m : ℕ, search probe rounds low high = some (some m) ∧ (m : ℤ) ≤ high ∧ probe m = .eq := by
  induction rounds with
  | zero =>
    intro low high _ hle hrounds
    omega
  | succ rounds ih =>
    intro low high hpos _ hrounds
    rw [search]
    by_cases hle : low ≤ high
    · rw [if_pos hle]
      simp only
      generalize hmid : (low + high) / 2 = mid
      have hlo : low ≤ mid := by omega
      have hhi : mid ≤ high := by omega
      cases hprobe : probe mid.toNat with
      | eq => exact Or.inr ⟨mid.toNat, rfl, by omega, hprobe⟩
      | gt => exact ih _ _ (by omega) (by omega) (by omega)
      | lt =>
        rcases ih low (mid - 1) hpos (by omega) (by omega) with hnone | ⟨m, hm, hle', heq⟩
        · exact Or.inl hnone
        · exact Or.inr ⟨m, hm, by omega, heq⟩
    · rw [if_neg hle]
      exact Or.inl rfl

end SystemSoftware.BinarySearch
