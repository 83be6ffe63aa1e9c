import SystemSoftware.BuddyMerge

/-!
The shape that the buddy allocator keeps while it merges by bits that are right:
the pieces of memory partition the pages, the bits agree with the lists, and no
two blocks on a list are buddies, so that nothing is left that could be merged.
-/
namespace SystemSoftware.BuddyShape

open ByteMemory LinkedRing BinaryBlocks BuddyPages BuddyBitmap BuddyLists BuddyPieces BuddyMerge

structure Partition (F : ℕ → List ℕ) (O : List Block) : Prop where
  exact : Exact phyPageN (freeBlocks F maxOrder ++ O)
  aligned : ∀ b ∈ freeBlocks F maxOrder ++ O, Aligned b
  lone : ∀ k < 15, ∀ p ∈ F k, p ^^^ 2 ^ k ∉ F k

def Lone (F : ℕ → List ℕ) : Prop := ∀ k < 15, ∀ p ∈ F k, p ^^^ 2 ^ k ∉ F k

section Lists

variable {F F' : ℕ → List ℕ} {O : List Block} {k p : ℕ}

theorem partition_iff : Partition F O ↔ Cover F O ∧ Lone F :=
  ⟨fun h => ⟨⟨h.exact, h.aligned⟩, h.lone⟩, fun h => ⟨h.1.exact, h.1.aligned, h.2⟩⟩

theorem Partition.cover (h : Partition F O) : Cover F O := (partition_iff.mp h).1

/-- Every list has lost blocks only. -/
theorem lone_subset (h : Lone F) (hsub : ∀ j, ∀ q ∈ F' j, q ∈ F j) : Lone F' :=
  fun j hj q hq hbuddy => h j hj q (hsub j q hq) (hsub j _ hbuddy)

/-- One list has gained a block whose buddy is not on it, the others have lost blocks only. -/
theorem lone_gain (h : Lone F) (hp : p ^^^ 2 ^ k ∉ F k) (hk : F' k = p :: F k)
    (hother : ∀ j, j ≠ k → ∀ q ∈ F' j, q ∈ F j) : Lone F' := by
  intro j hj q hq hbuddy
  by_cases hjk : j = k
  · subst hjk
    rw [hk, List.mem_cons] at hq hbuddy
    rcases hq with rfl | hq <;> rcases hbuddy with heq | hbuddy
    · exact buddy_ne _ _ heq
    · exact hp hbuddy
    · rw [← heq, buddy_buddy] at hp
      exact hp hq
    · exact h j hj q hq hbuddy
  · exact h j hj q (hother j hjk q hq) (hother j hjk _ hbuddy)

theorem rider_lone : Rider (fun _ F => Lone F) where
  put := by
    intro m F k p h _ _ _ _ hbuddy
    refine lone_gain h hbuddy (by rw [Function.update_self]) fun j hj q hq => ?_
    rwa [Function.update_of_ne hj] at hq
  take := fun h _ _ _ hF _ => lone_subset h (update_subset (l := []) hF)
  take_top := fun h hF => lone_subset h (update_subset (l := []) hF)

end Lists

structure Shape (s : Pages) (F : ℕ → List ℕ) (O : List Block) : Prop where
  rings : Rings s.links F
  partition : Partition F O
  bits : Bits s.bitmaps F
  area_pos : 0 < s.physicalMemoryArea
  area_le : s.physicalMemoryArea + physicalMemorySize ≤ 2 ^ 32

section Shapes

variable {s : Pages} {F : ℕ → List ℕ} {O O' : List Block}

theorem shape_iff : Shape s F O ↔ Pieces (fun m F => Bits m F ∧ Lone F) s F O :=
  ⟨fun h => ⟨h.rings, h.partition.cover, ⟨h.bits, h.partition.lone⟩, h.area_pos, h.area_le⟩,
    fun h => ⟨h.rings, partition_iff.mpr ⟨h.cover, h.rider.2⟩, h.rider.1, h.area_pos, h.area_le⟩⟩

/-- A shape is made of pieces with the bits they should have. -/
theorem Shape.pieces (h : Shape s F O) : Pieces Bits s F O :=
  ⟨h.rings, h.partition.cover, h.bits, h.area_pos, h.area_le⟩

theorem shape_of_pieces (h : Pieces Bits s F O) (hlone : Lone F) : Shape s F O :=
  ⟨h.rings, partition_iff.mpr ⟨h.cover, hlone⟩, h.rider, h.area_pos, h.area_le⟩

end Shapes

end SystemSoftware.BuddyShape
