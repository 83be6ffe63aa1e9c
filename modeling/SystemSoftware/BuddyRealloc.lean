import SystemSoftware.BuddyAsserts
import SystemSoftware.BuddyBounds

/-!
`mm_realloc` of the buddy allocator over the bytes of the physical memory. It
copies as many bytes as the new block is asked for, to whatever `mm_malloc`
returned, and then frees the old block, asserts included. So it does what a
reallocation should only where there is a block to copy to, the old block has
that many bytes, and the free passes its asserts.
-/
namespace SystemSoftware.BuddyRealloc

open ByteMemory BinaryBlocks BuddyPages BuddyBounds BuddyBitmap BuddyLists BuddyPieces BuddyShape
open BuddyRuns BuddyCoalescing BuddyAsserts Transitions

/-- A `memcpy` to the null pointer does not return. -/
def memcpy (m : Memory) (dst src n : ℕ) : Checked Memory :=
  if dst = null ∧ n ≠ 0 then .error .pointer else .ok (copyBytes m dst src n)

def memcpyReads (src n : ℕ) : List ℕ := List.range' src n

def mmRealloc (s : Pages) (m : Memory) (ptr size : ℕ) : Checked (Pages × Memory × ℕ) := do
  let (s, new) ← mmMallocChecked s size
  let m ← memcpy m new ptr size
  let s ← mmFreeChecked s ptr
  return (s, m, new)

def bytesOf (s : Pages) (p : ℕ) : ℕ := pageSize * 2 ^ (blockAt s p).2

structure Moved (c : Client) (m : Memory) (p size : ℕ) (m' : Memory) (new : ℕ) : Prop where
  reads : ∀ x ∈ memcpyReads p size, p ≤ x ∧ x < p + bytesOf c.pages p
  copied : ∀ i < min (bytesOf c.pages p) size, m' (new + i) = m (p + i)
  others : ∀ q ∈ c.live, q ≠ p → SameOn m m' q (q + bytesOf c.pages q)

section Calls

variable {s s' : Pages} {m : Memory} {p size new : ℕ}

end Calls

section Blocks

variable {s : Pages} {F : ℕ → List ℕ} {live : List ℕ} {p q size : ℕ}

end Blocks

section Runs

end Runs

end SystemSoftware.BuddyRealloc
