import Mathlib.Data.List.Nodup
import Mathlib.Data.List.Perm.Basic
import Mathlib.Logic.Function.Basic

/-!
Blocks with identifiers that are given out in order and never again. Releasing a
block that is not live fails. Where each stretch of a run releases what it has
allocated, no identifier is released twice and none that was never allocated.
-/
namespace SystemSoftware.BlockLedger

structure Heap (α : Type*) where
  fresh : ℕ
  cells : ℕ → Option α

namespace Heap

variable {α : Type*} {h h' : Heap α} {a : α} {id i : ℕ}

def alloc (h : Heap α) (a : α) : Heap α := ⟨h.fresh + 1, Function.update h.cells h.fresh (some a)⟩

def write (h : Heap α) (id : ℕ) (a : α) : Heap α :=
  ⟨h.fresh, Function.update h.cells id (some a)⟩

def release (h : Heap α) (id : ℕ) : Option (Heap α) :=
  if (h.cells id).isSome then some ⟨h.fresh, Function.update h.cells id none⟩ else none

def allocatedTo (h h' : Heap α) : List ℕ := List.range' h.fresh (h'.fresh - h.fresh)

@[simp] theorem alloc_self (h : Heap α) (a : α) : (h.alloc a).cells h.fresh = some a :=
  Function.update_self ..

theorem alloc_of_ne (hi : i ≠ h.fresh) (a : α) : (h.alloc a).cells i = h.cells i :=
  Function.update_of_ne hi ..

@[simp] theorem write_self (h : Heap α) (id : ℕ) (a : α) : (h.write id a).cells id = some a :=
  Function.update_self ..

theorem write_of_ne (hi : i ≠ id) (a : α) : (h.write id a).cells i = h.cells i :=
  Function.update_of_ne hi ..

/-- A live block can be released, and the others stay. -/
theorem release_live (hlive : h.cells id = some a) :
    ∃ h', h.release id = some h' ∧ ∀ i, i ≠ id → h'.cells i = h.cells i := by
  refine ⟨⟨h.fresh, Function.update h.cells id none⟩, ?_, fun i hi => Function.update_of_ne hi ..⟩
  rw [release, hlive]
  rfl

theorem release_fresh (h₁ : h.release id = some h') : h'.fresh = h.fresh := by
  rw [release] at h₁
  split at h₁
  · rw [← Option.some.inj h₁]
  · cases h₁

theorem release_dead (hdead : h.cells id = none) : h.release id = none := by
  rw [release, hdead]
  rfl

theorem mem_allocatedTo (hle : h.fresh ≤ h'.fresh) :
    id ∈ h.allocatedTo h' ↔ h.fresh ≤ id ∧ id < h'.fresh := by
  rw [allocatedTo, List.mem_range'_1]
  omega

theorem nodup_allocatedTo : (h.allocatedTo h').Nodup := List.nodup_range'

/-- The way from one heap to a later one has released these blocks and no others. -/
structure Released (h h' : Heap α) (ids : List ℕ) : Prop where
  fresh : h'.fresh = h.fresh
  cells : ∀ i, h'.cells i = if i ∈ ids then none else h.cells i

namespace Released

variable {h₁ : Heap α} {ids ids' : List ℕ}

theorem refl (h : Heap α) : Released h h [] := ⟨rfl, fun _ => (if_neg List.not_mem_nil).symm⟩

theorem other (hrel : Released h h' ids) (hi : i ∉ ids) : h'.cells i = h.cells i :=
  (hrel.cells i).trans (if_neg hi)

theorem append (hrel : Released h h₁ ids) (hrel' : Released h₁ h' ids') :
    Released h h' (ids ++ ids') := by
  refine ⟨hrel'.fresh.trans hrel.fresh, fun i => ?_⟩
  rw [hrel'.cells, hrel.cells]
  by_cases hi : i ∈ ids'
  · rw [if_pos hi, if_pos (List.mem_append_right _ hi)]
  · rw [if_neg hi]
    simp only [List.mem_append, hi, or_false]

theorem perm (hrel : Released h h' ids) (hperm : ids.Perm ids') : Released h h' ids' :=
  ⟨hrel.fresh, fun i => by simp only [hrel.cells, hperm.mem_iff]⟩

end Released

theorem release_some (hlive : (h.cells id).isSome) :
    ∃ h', h.release id = some h' ∧ Released h h' [id] := by
  refine ⟨_, if_pos hlive, rfl, fun i => ?_⟩
  simp only [List.mem_singleton]
  exact Function.update_apply h.cells id none i

/-- Live blocks can be released one after the other. -/
theorem release_all (ids : List ℕ) : ∀ {h : Heap α}, ids.Nodup →
    (∀ id ∈ ids, (h.cells id).isSome) →
    ∃ h', ids.foldlM release h = some h' ∧ Released h h' ids := by
  induction ids with
  | nil => exact fun {h} _ _ => ⟨h, rfl, .refl h⟩
  | cons id ids ih =>
    intro h hnodup hlive
    obtain ⟨hid, hrest⟩ := List.nodup_cons.mp hnodup
    obtain ⟨h₁, hrelease, hrel⟩ := release_some (hlive id List.mem_cons_self)
    obtain ⟨h', hfold, hrel'⟩ := ih (h := h₁) hrest fun i hi => by
      rw [hrel.other (by simpa using ne_of_mem_of_not_mem hi hid)]
      exact hlive i (List.mem_cons_of_mem id hi)
    refine ⟨h', ?_, hrel.append hrel'⟩
    rw [List.foldlM_cons, hrelease]
    exact hfold

end Heap

section Ledger

variable {ι : Type*} {stretches : List ι} {allocated released : ι → List ℕ}

/-- Stretches that release what they allocate release nothing twice and nothing else. -/
theorem released_once (hnodup : (stretches.flatMap allocated).Nodup)
    (hexact : ∀ c ∈ stretches, (released c).Perm (allocated c)) :
    (stretches.flatMap released).Nodup ∧
      ∀ id ∈ stretches.flatMap released, id ∈ stretches.flatMap allocated := by
  have hperm : (stretches.flatMap released).Perm (stretches.flatMap allocated) :=
    List.Perm.flatMap_left stretches hexact
  exact ⟨hperm.nodup_iff.mpr hnodup, fun id hid => hperm.mem_iff.mp hid⟩

/-- A new stretch keeps the identifiers apart. -/
theorem nodup_flatMap_concat {bound : ℕ} {c : ι} (hnodup : (stretches.flatMap allocated).Nodup)
    (hbound : ∀ id ∈ stretches.flatMap allocated, id < bound) (hc : (allocated c).Nodup)
    (hnew : ∀ id ∈ allocated c, bound ≤ id) :
    ((stretches ++ [c]).flatMap allocated).Nodup := by
  rw [List.flatMap_append, List.flatMap_singleton]
  refine hnodup.append hc fun id hid hmem => ?_
  exact absurd (hbound id hid) (Nat.not_lt.mpr (hnew id hmem))

end Ledger

end SystemSoftware.BlockLedger
