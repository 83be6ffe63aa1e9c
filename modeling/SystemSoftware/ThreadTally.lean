import Mathlib.Algebra.BigOperators.Group.Finset.Piecewise
import Mathlib.Algebra.BigOperators.Group.Finset.Basic
import Mathlib.Algebra.Order.BigOperators.Group.Finset
import Mathlib.Algebra.Ring.Int.Defs
import Mathlib.Data.Fintype.Basic

/-!
The number of threads, among finitely many, whose local state has a property.
When one thread moves, the number changes by that thread alone, so that a
shared counter agrees with it as soon as every step moves both alike.
-/
namespace SystemSoftware.ThreadTally

variable {ι α : Type*} [Fintype ι] (p : α → Prop) [DecidablePred p]

def part (x : α) : ℤ := if p x then 1 else 0

def tally (f : ι → α) : ℤ := ∑ i, part p (f i)

variable {p}

theorem part_of {x : α} (h : p x) : part p x = 1 := if_pos h

theorem part_of_not {x : α} (h : ¬ p x) : part p x = 0 := if_neg h

theorem part_nonneg (x : α) : 0 ≤ part p x := by
  by_cases h : p x
  · rw [part_of h]
    decide
  · rw [part_of_not h]

theorem part_le_part {q : α → Prop} [DecidablePred q] {x : α} (h : p x → q x) : part p x ≤ part q x := by
  by_cases hp : p x
  · rw [part_of hp, part_of (h hp)]
  · rw [part_of_not hp]
    exact part_nonneg x

theorem tally_nonneg (f : ι → α) : 0 ≤ tally p f := Finset.sum_nonneg fun i _ => part_nonneg (f i)

theorem part_le_tally (f : ι → α) (i : ι) : part p (f i) ≤ tally p f :=
  Finset.single_le_sum (f := fun i => part p (f i)) (fun j _ => part_nonneg (f j)) (Finset.mem_univ i)

/-- No thread has the property when the tally is zero. -/
theorem not_of_tally_eq_zero {f : ι → α} (h : tally p f = 0) (i : ι) : ¬ p (f i) := by
  intro hi
  have hzero := (Finset.sum_eq_zero_iff_of_nonneg fun j _ => part_nonneg (f j)).mp h i
    (Finset.mem_univ i)
  rw [part_of hi] at hzero
  exact absurd hzero one_ne_zero

theorem tally_eq_zero {f : ι → α} (h : ∀ i, ¬ p (f i)) : tally p f = 0 :=
  Finset.sum_eq_zero fun i _ => part_of_not (h i)

/-- A mutex that no thread has is free. -/
theorem pos_of_tally {f : ι → α} {mutex : ℕ} (hone : (mutex : ℤ) + tally p f = 1)
    (h : ∀ i, ¬ p (f i)) : 0 < mutex := by
  rw [tally_eq_zero h] at hone
  omega

/-- The property that at most one thread has. -/
theorem eq_of_tally_le_one [DecidableEq ι] {f : ι → α} {i j : ι} (h : tally p f ≤ 1) (hi : p (f i))
    (hj : p (f j)) : i = j := by
  by_contra hne
  have hpair : ∑ k ∈ {i, j}, part p (f k) ≤ tally p f :=
    Finset.sum_le_sum_of_subset_of_nonneg (Finset.subset_univ _) fun k _ _ => part_nonneg (f k)
  rw [Finset.sum_pair hne, part_of hi, part_of hj] at hpair
  omega

/-- The tally of a property that only one thread may have. -/
theorem tally_of_alone [DecidableEq ι] {f : ι → α} {i : ι} (h : ∀ j, j ≠ i → ¬ p (f j)) :
    tally p f = part p (f i) :=
  Finset.sum_eq_single i (fun j _ hj => part_of_not (h j hj)) fun hi => absurd (Finset.mem_univ i) hi

def total (g : α → ℤ) (f : ι → α) : ℤ := ∑ i, g (f i)

/-- When one thread moves, a total changes by that thread's part. -/
theorem total_update [DecidableEq ι] (g : α → ℤ) (f : ι → α) (i : ι) (x : α) :
    total g (Function.update f i x) = total g f + g x - g (f i) := by
  have hnew : total g (Function.update f i x) = ∑ j, Function.update (fun j => g (f j)) i (g x) j := by
    apply Finset.sum_congr rfl
    intro j _
    by_cases hj : j = i
    · rw [hj, Function.update_self, Function.update_self]
    · rw [Function.update_of_ne hj, Function.update_of_ne hj]
  have hold : total g f = g (f i) + ∑ j ∈ Finset.univ \ {i}, g (f j) := by
    rw [total, ← Finset.sum_sdiff (Finset.subset_univ {i}), Finset.sum_singleton, add_comm]
  rw [hnew, hold, Finset.sum_update_of_mem (Finset.mem_univ i)]
  omega

theorem total_eq_zero {g : α → ℤ} {f : ι → α} (h : ∀ i, g (f i) = 0) : total g f = 0 :=
  Finset.sum_eq_zero fun i _ => h i

theorem tally_update [DecidableEq ι] (f : ι → α) (i : ι) (x : α) :
    tally p (Function.update f i x) = tally p f + part p x - part p (f i) :=
  total_update (part p) f i x

end SystemSoftware.ThreadTally
