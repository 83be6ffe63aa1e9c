import Mathlib.Data.List.Basic
import Mathlib.Logic.Function.Basic
import Mathlib.Order.Nat
import Mathlib.Data.Nat.Find

/-!
Descriptor tables as a process sees them. A new descriptor is the lowest one that
is free, closing a free one does nothing, and `dup2` makes one descriptor refer to
what another one refers to. All that counts of a table is which entry stands
at each descriptor, and the operations are described by what they do to that.
-/
namespace SystemSoftware.DescriptorTable

variable {α : Type}

abbrev Table (α : Type) := List (Option α)

def entry (t : Table α) (d : ℕ) : Option α := t[d]?.join

def setEntry (t : Table α) (d : ℕ) (e : Option α) : Table α :=
  (t ++ List.replicate (d + 1 - t.length) none).set d e

def lowest (t : Table α) : ℕ := t.findIdx Option.isNone

def close (t : Table α) (d : ℕ) : Table α := setEntry t d none

def dup2 (t : Table α) (old new : ℕ) : Table α :=
  match entry t old with
  | none => t
  | some e => setEntry t new (some e)

variable {t : Table α} {d : ℕ} {e : Option α}

theorem entry_setEntry (t : Table α) (d : ℕ) (e : Option α) :
    entry (setEntry t d e) = Function.update (entry t) d e := by
  funext x
  have hlt : d < (t ++ List.replicate (d + 1 - t.length) none).length := by
    rw [List.length_append, List.length_replicate]
    omega
  rcases eq_or_ne x d with rfl | hne
  · rw [Function.update_self, entry, setEntry, List.getElem?_set_self hlt]
    rfl
  · rw [Function.update_of_ne hne, entry, entry, setEntry, List.getElem?_set_ne hne.symm]
    by_cases hx : x < t.length
    · rw [List.getElem?_append_left hx]
    · rw [List.getElem?_append_right (not_lt.mp hx), List.getElem?_replicate,
        List.getElem?_eq_none (not_lt.mp hx)]
      split <;> rfl

theorem entry_close (t : Table α) (d : ℕ) : entry (close t d) = Function.update (entry t) d none :=
  entry_setEntry t d none

theorem entry_dup2 {old new : ℕ} (h : entry t old ≠ none) :
    entry (dup2 t old new) = Function.update (entry t) new (entry t old) := by
  rw [dup2]
  split
  · contradiction
  · rename_i e he
    rw [entry_setEntry, he]

theorem entry_of_length_le (h : t.length ≤ d) : entry t d = none := by
  rw [entry, List.getElem?_eq_none h]
  rfl

/-- The lowest free descriptor is the one with none below it. -/
theorem lowest_eq (hfree : entry t d = none) (hbelow : ∀ x < d, entry t x ≠ none) : lowest t = d := by
  have hlen : d ≤ t.length := by
    by_contra hlt
    exact hbelow t.length (not_le.mp hlt) (entry_of_length_le le_rfl)
  rcases hlen.lt_or_eq with hlt | rfl
  · apply (List.findIdx_eq hlt).mpr
    refine ⟨?_, fun x hx => ?_⟩
    · rw [entry, List.getElem?_eq_getElem hlt] at hfree
      exact Option.isNone_iff_eq_none.mpr hfree
    · have hsome := hbelow x hx
      rw [entry, List.getElem?_eq_getElem (hx.trans hlt)] at hsome
      exact Option.isNone_eq_false_iff.mpr (Option.isSome_iff_ne_none.mpr hsome)
  · apply List.findIdx_eq_length.mpr
    intro x hx
    obtain ⟨k, hk, rfl⟩ := List.getElem_of_mem hx
    have hsome := hbelow k hk
    rw [entry, List.getElem?_eq_getElem hk] at hsome
    exact Option.isNone_eq_false_iff.mpr (Option.isSome_iff_ne_none.mpr hsome)

/-- There is a free descriptor from any one on, and a lowest such one. -/
theorem exists_free (t : Table α) (m : ℕ) :
    ∃ d, m ≤ d ∧ entry t d = none ∧ ∀ x, m ≤ x → x < d → entry t x ≠ none := by
  have hex : ∃ d, m ≤ d ∧ entry t d = none :=
    ⟨max m t.length, le_max_left .., entry_of_length_le (le_max_right ..)⟩
  refine ⟨Nat.find hex, (Nat.find_spec hex).1, (Nat.find_spec hex).2, fun x hx hlt hnone => ?_⟩
  exact Nat.find_min hex hlt ⟨hx, hnone⟩

end SystemSoftware.DescriptorTable
