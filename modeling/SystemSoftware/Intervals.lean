import Mathlib.Algebra.BigOperators.Group.List.Basic
import Mathlib.Algebra.Ring.Nat
import Mathlib.Order.Interval.Finset.Nat

/-!
Stretches of addresses, each given by its start and its length. Two of them are
apart when one ends before the other begins. Looking only at the first and the last
address of one of them finds every overlap with another one but an enclosing one.
Stretches that are apart do not fill more than the room they lie in.
-/
namespace SystemSoftware.Intervals

def Apart (x y : ℕ × ℕ) : Prop := x.1 + x.2 ≤ y.1 ∨ y.1 + y.2 ≤ x.1

def Encloses (x y : ℕ × ℕ) : Prop := x.1 < y.1 ∧ y.1 + y.2 < x.1 + x.2

def Within (lo hi : ℕ) (x : ℕ × ℕ) : Prop := lo ≤ x.1 ∧ x.1 + x.2 ≤ hi

variable {x y : ℕ × ℕ} {lo hi : ℕ} {l : List (ℕ × ℕ)}

/-- Neither end of `x` is an address of `y`. -/
theorem ends_outside_iff (hx : 0 < x.2) (hy : 0 < y.2) :
    ¬ ((y.1 ≤ x.1 ∧ x.1 < y.1 + y.2) ∨
        (y.1 ≤ x.1 + x.2 - 1 ∧ x.1 + x.2 - 1 < y.1 + y.2)) ↔
      Apart x y ∨ Encloses x y := by
  unfold Apart Encloses
  omega

def addresses (l : List (ℕ × ℕ)) : Finset ℕ :=
  l.foldr (fun x s => Finset.Ico x.1 (x.1 + x.2) ∪ s) ∅

theorem mem_addresses {n : ℕ} : n ∈ addresses l ↔ ∃ x ∈ l, x.1 ≤ n ∧ n < x.1 + x.2 := by
  induction l with
  | nil => simp [addresses]
  | cons x l ih =>
    have hcons : addresses (x :: l) = Finset.Ico x.1 (x.1 + x.2) ∪ addresses l := rfl
    rw [hcons, Finset.mem_union, Finset.mem_Ico, ih]
    simp

theorem card_addresses (hapart : l.Pairwise Apart) :
    (addresses l).card = (l.map Prod.snd).sum := by
  induction l with
  | nil => rfl
  | cons x l ih =>
    rw [List.pairwise_cons] at hapart
    have hdisjoint : Disjoint (Finset.Ico x.1 (x.1 + x.2)) (addresses l) := by
      rw [Finset.disjoint_left]
      intro n hn hmem
      obtain ⟨y, hy, hlo, hhi⟩ := mem_addresses.mp hmem
      rw [Finset.mem_Ico] at hn
      rcases hapart.1 y hy with h | h
      · omega
      · omega
    have hcons : addresses (x :: l) = Finset.Ico x.1 (x.1 + x.2) ∪ addresses l := rfl
    rw [hcons, Finset.card_union_of_disjoint hdisjoint, ih hapart.2, Nat.card_Ico,
      List.map_cons, List.sum_cons, Nat.add_sub_cancel_left]

/-- Stretches that are apart have together at most the length of the room they lie in. -/
theorem sum_le_of_apart (hapart : l.Pairwise Apart) (hin : ∀ x ∈ l, Within lo hi x) :
    (l.map Prod.snd).sum ≤ hi - lo := by
  rw [← card_addresses hapart, ← Nat.card_Ico]
  refine Finset.card_le_card fun n hn => ?_
  obtain ⟨x, hx, hlo, hhi⟩ := mem_addresses.mp hn
  obtain ⟨h₁, h₂⟩ := hin x hx
  rw [Finset.mem_Ico]
  omega

end SystemSoftware.Intervals
