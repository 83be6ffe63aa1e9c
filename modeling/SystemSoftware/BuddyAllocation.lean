import SystemSoftware.BuddyRuns

/-!
One allocation from any free lists. Whatever the bits say and whatever the pages
outside of the lists hold, `mm_malloc` cuts a block of the order of its size from
the first block of the smallest sufficient order, and what is left of that block
is on the lists again.
-/
namespace SystemSoftware.BuddyAllocation

open LinkedRing BinaryBlocks BuddyPages BuddyLists BuddyPieces BuddyShape BuddyRuns

/-- The lists are circular lists of pages, whose blocks are aligned and have no
page in common, and the physical memory lies in the address space. -/
structure FreeLists (s : Pages) (F : ℕ → List ℕ) : Prop where
  ring : ∀ k < maxOrder, Ring s.links (.area k) ((F k).map .page)
  inside : ∀ b ∈ freeBlocks F maxOrder, b.1 < phyPageN
  aligned : ∀ b ∈ freeBlocks F maxOrder, Aligned b
  apart : ∀ x, (freeBlocks F maxOrder).countP (covers x) ≤ 1
  area_pos : 0 < s.physicalMemoryArea
  area_le : s.physicalMemoryArea + physicalMemorySize ≤ 2 ^ 32

section Lists

variable {s : Pages} {F : ℕ → List ℕ} {O : List Block}

/-- The pages that no free block covers, taken as blocks of one page that are out. -/
def used (F : ℕ → List ℕ) : List Block := gaps phyPageN (freeBlocks F maxOrder)

theorem covered_lt (hs : FreeLists s F) : ∀ b ∈ freeBlocks F maxOrder, ∀ x,
    covers x b = true → x < phyPageN := by
  intro b hb x hx
  obtain ⟨hk, -⟩ := mem_freeBlocks.mp (show (b.1, b.2) ∈ _ from hb)
  have hend := aligned_end_le (m := 16) (hs.aligned b hb) (Nat.le_of_lt hk) (hs.inside b hb)
  exact Nat.lt_of_lt_of_le (covers_iff.mp hx).2 hend

theorem pieces_of_freeLists (hs : FreeLists s F) : Pieces (fun _ _ => True) s F (used F) := by
  have hexact : Exact phyPageN (freeBlocks F maxOrder ++ used F) :=
    exact_gaps (covered_lt hs) hs.apart
  refine ⟨⟨hs.ring, ?_⟩, ⟨hexact, ?_⟩, trivial, hs.area_pos, hs.area_le⟩
  · intro j hj k hk p hpj hpk
    have hblock : (p, j) = (p, k) := hexact.eq_of_covers
      (List.mem_append_left _ (mem_freeBlocks.mpr ⟨hj, hpj⟩))
      (List.mem_append_left _ (mem_freeBlocks.mpr ⟨hk, hpk⟩)) (covers_self _) (covers_self (p, k))
    exact congrArg Prod.snd hblock
  · intro b hb
    rcases List.mem_append.mp hb with hb | hb
    · exact hs.aligned b hb
    · exact aligned_gaps b hb

theorem freeLists_of_pieces {R : ByteMemory.Memory → (ℕ → List ℕ) → Prop}
    (hs : Pieces R s F O) : FreeLists s F where
  ring := hs.rings.ring
  inside := fun b hb => hs.cover.exact.lt_of_mem (List.mem_append_left O hb) (covers_self b)
  aligned := fun b hb => hs.cover.aligned b (List.mem_append_left O hb)
  apart := by
    intro x
    have hx := hs.cover.exact x
    rw [List.countP_append] at hx
    split at hx <;> omega
  area_pos := hs.area_pos
  area_le := hs.area_le

/-- The order of a size is the least one whose blocks are large enough. -/
theorem memsizeToOrder_eq {size o o' : ℕ} (h : memsizeToOrder size = some o')
    (ho : size ≤ 256 * 2 ^ o) (hleast : ∀ i < o, 256 * 2 ^ i < size) : o' = o := by
  have hpage : ∀ i, pageSize <<< i = 256 * 2 ^ i := fun i => Nat.shiftLeft_eq 256 i
  rw [memsizeToOrder, List.find?_range_eq_some] at h
  obtain ⟨hfits, -, hsmaller⟩ := h
  have hfits' : size ≤ 256 * 2 ^ o' := hpage o' ▸ of_decide_eq_true hfits
  apply Nat.le_antisymm
  · by_contra hlt
    have hno := hsmaller o (by omega)
    rw [Bool.not_eq_true', decide_eq_false_iff_not, hpage] at hno
    exact hno ho
  · by_contra hlt
    have hless := hleast o' (by omega)
    omega

end Lists

/-- `mm_malloc` returns NULL exactly when no free block is of a sufficient order.
Otherwise it returns the first page of a block of the least order `o` that is large
enough, cut from a block of the smallest sufficient order; the page's order field
says `o`, and the free blocks with the new one cover what was free before. -/
theorem malloc_step {s : Pages} {F : ℕ → List ℕ} {size o : ℕ} (hs : FreeLists s F)
    (hsize : size ≤ 2 ^ 23) (ho : size ≤ 256 * 2 ^ o) (hleast : ∀ i < o, 256 * 2 ^ i < size) :
    ∃ s' a, mmMalloc s size = some (s', a) ∧
      (a = null ↔ ∀ k, o ≤ k → k < maxOrder → F k = []) ∧ (a = null → s' = s) ∧
      (a ≠ null → ∃ F' k p q, a = physicalAddr s' q ∧ 2 ^ o ∣ q ∧
        o ≤ k ∧ k < maxOrder ∧ p ∈ F k ∧ (∀ j, o ≤ j → j < k → F j = []) ∧
        p ≤ q ∧ q + 2 ^ o ≤ p + 2 ^ k ∧ s'.order q = o ∧ FreeLists s' F' ∧
        ∀ x, ((q, o) :: freeBlocks F' maxOrder).countP (covers x) =
          (freeBlocks F maxOrder).countP (covers x)) := by
  have hpieces := pieces_of_freeLists hs
  obtain ⟨o', hfor, -, hcase⟩ := mmMalloc_spec rider_true hpieces hsize
  obtain rfl := memsizeToOrder_eq hfor ho hleast
  rcases hcase with ⟨hnull, hall⟩ | ⟨k, p, r, s', F', q, heq, hk, hlt, hall, hF, hout⟩
  · exact ⟨s, null, hnull, iff_of_true rfl hall, fun _ => rfl, fun hne => absurd rfl hne⟩
  · have hne := hout.addr_ne_null
    refine ⟨s', physicalAddr s q, heq, iff_of_false hne fun hempty => ?_,
      fun hnull => absurd hnull hne, fun _ => ⟨F', k, p, q, ?_, hout.pieces.cover.hand_aligned, hk,
        hlt, ?_, hall, hout.lower, hout.upper, ?_, freeLists_of_pieces hout.pieces, ?_⟩⟩
    · have hnil := hempty k hk hlt
      rw [hF] at hnil
      cases hnil
    · exact (physicalAddr_congr hout.area q).symm
    · rw [hF]
      exact List.mem_cons_self ..
    · rw [hout.order, Function.update_self]
    -- Before and after the pages outside of these blocks are the same.
    · intro x
      have hbefore := hpieces.cover.exact x
      have hafter := (hout.pieces.cover.exact.perm (Cover.hand_first ..)) x
      rw [List.countP_append] at hbefore
      rw [← List.cons_append, List.countP_append] at hafter
      omega

/-- From the two blocks of order 15 that `mm_init` makes, one page is allocated. -/
theorem malloc_step_started : ∃ s' a, mmMalloc startedClient.pages 1 = some (s', a) ∧
    ∃ F' k p q, a = physicalAddr s' q ∧ p ∈ initialLists k ∧ p ≤ q ∧ q < p + 2 ^ k ∧
      s'.order q = 0 ∧ FreeLists s' F' := by
  have hs := (consistent_started startedClient_started).holds.pieces
  obtain ⟨s', a, hcall, hnull, -, hblock⟩ := malloc_step (o := 0)
    (freeLists_of_pieces hs) (show 1 ≤ 2 ^ 23 by norm_num) (by norm_num)
    (fun i hi => absurd hi (Nat.not_lt_zero i))
  have hne : a ≠ null := fun h => by
    have h15 := hnull.mp h 15 (Nat.zero_le _) (by decide)
    cases h15
  obtain ⟨F', k, p, q, ha, -, -, -, hp, -, hlo, hhi, horder, hlists, -⟩ := hblock hne
  exact ⟨s', a, hcall, F', k, p, q, ha, hp, hlo, by omega, horder, hlists⟩

end SystemSoftware.BuddyAllocation
