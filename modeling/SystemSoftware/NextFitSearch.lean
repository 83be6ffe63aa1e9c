import SystemSoftware.NextFitBlocks

/-!
The next-fit search on the block list. The first loop of `next_fit` walks from
the block behind `last_bp` to the epilogue and wants a block longer than the
request; the second walks from the first block up to `last_bp` and also takes
an exact fit. Both end, and together they compute `chosen`.
-/
namespace SystemSoftware.NextFitSearch

open ByteMemory BoundaryTags NextFitHeap NextFitBlocks

def fits (n : ℕ) (x : ℕ × Block) : Bool := !x.2.alloc && decide (n ≤ x.2.size)

/-- The block that `next_fit` takes: the first free one behind `last_bp` that
is longer than the request, else the first fitting one up to `last_bp`. -/
def chosen (h : Heap) (l : List Block) (adjSize : ℕ) : Option (ℕ × Block) :=
  (((placed (h.startBp + 8) l).filter (fun x => h.lastBp < x.1)).find? (fits (adjSize + 1))).or
    (((placed (h.startBp + 8) l).filter (fun x => x.1 ≤ h.lastBp)).find? (fits adjSize))

theorem fits_iff {n : ℕ} {x : ℕ × Block} : fits n x = true ↔ x.2.alloc = false ∧ n ≤ x.2.size := by
  simp [fits]

theorem chosen_spec {h : Heap} {l : List Block} {adjSize q : ℕ} {b : Block}
    (hx : chosen h l adjSize = some (q, b)) :
    (q, b) ∈ placed (h.startBp + 8) l ∧ b.alloc = false ∧ adjSize ≤ b.size := by
  rcases Option.or_eq_some_iff.mp hx with hx | ⟨-, hx⟩
  · have hm := List.mem_filter.mp (List.mem_of_find?_eq_some hx)
    have hf := fits_iff.mp (List.find?_some hx)
    exact ⟨hm.1, hf.1, by have := hf.2; simp only at this; omega⟩
  · have hm := List.mem_filter.mp (List.mem_of_find?_eq_some hx)
    exact ⟨hm.1, fits_iff.mp (List.find?_some hx)⟩

section Loops

variable {h : Heap} {l : List Block} (adjSize : ℕ)

theorem nextFitToEpilogue_eq (hl : Laid h l) (l₂ : List Block) :
    ∀ (l₁ : List Block) (a fuel : ℕ) (b : Block), Cut h l a l₁ (b :: l₂) → l₂.length < fuel →
      nextFitToEpilogue h adjSize fuel a =
        some (((placed (a + b.size) l₂).find? (fits (adjSize + 1))).map Prod.fst) := by
  induction l₂ with
  | nil =>
    intro l₁ a fuel b hc hfuel
    obtain ⟨fuel, rfl⟩ := Nat.exists_eq_succ_of_ne_zero (Nat.ne_of_gt hfuel)
    simp [nextFitToEpilogue, hl.nextBlockBp_eq hc, hl.isItAlloc_epilogue hc.next,
      hl.getSize_epilogue hc.next]
  | cons n r ih =>
    intro l₁ a fuel b hc hfuel
    obtain ⟨fuel, rfl⟩ := Nat.exists_eq_succ_of_ne_zero (show fuel ≠ 0 by omega)
    have hrec := ih _ _ fuel n hc.next (by simp only [List.length_cons] at hfuel; omega)
    have hpos := n.size_pos
    simp only [nextFitToEpilogue, hl.nextBlockBp_eq hc, hl.isItAlloc_header hc.next,
      hl.getSize_header hc.next, Option.bind_eq_bind, Option.bind_some, placed_cons,
      List.find?_cons]
    by_cases hfit : fits (adjSize + 1) (a + b.size, n) = true
    · have hn := fits_iff.mp hfit
      simp only at hn
      rw [hfit, if_pos ⟨by simp [hn.1], hn.2⟩]
      rfl
    · have hn : ¬ (n.alloc.toNat = 0 ∧ adjSize < n.size) := by
        rintro ⟨h₁, h₂⟩
        exact hfit (fits_iff.mpr ⟨by simpa using h₁, h₂⟩)
      rw [if_neg hn, if_pos (by omega), hrec]
      simp only [hfit]

theorem nextFitToLast_eq (hl : Laid h l) {c : Block} {r : List Block} (k : List Block) :
    ∀ (l₁ : List Block) (a fuel : ℕ), Cut h l a l₁ (k ++ c :: r) → h.lastBp = a + span k →
      k.length < fuel →
      nextFitToLast h adjSize fuel a =
        some (((placed a (k ++ [c])).tail.find? (fits adjSize)).map Prod.fst) := by
  induction k with
  | nil =>
    intro l₁ a fuel hc hlast hfuel
    obtain ⟨fuel, rfl⟩ := Nat.exists_eq_succ_of_ne_zero (Nat.ne_of_gt hfuel)
    simp [nextFitToLast, hlast]
  | cons b k ih =>
    intro l₁ a fuel hc hlast hfuel
    obtain ⟨fuel, rfl⟩ := Nat.exists_eq_succ_of_ne_zero (show fuel ≠ 0 by omega)
    have hpos := b.size_pos
    rw [span_cons] at hlast
    -- The block after `b` is the next of `k`, or the one at `last_bp`.
    obtain ⟨n, r', hn⟩ : ∃ n r', k ++ c :: r = n :: r' := by cases k <;> simp
    have hc' : Cut h l a l₁ (b :: n :: r') := hn ▸ hc
    have hrec := ih _ _ fuel (hn ▸ hc'.next) (by omega)
      (by simp only [List.length_cons] at hfuel; omega)
    have hplaced : (placed a (b :: k ++ [c])).tail =
        (a + b.size, n) :: (placed (a + b.size) (k ++ [c])).tail := by
      cases k with
      | nil => obtain ⟨rfl, -⟩ := List.cons.inj hn; rfl
      | cons d k => obtain ⟨rfl, -⟩ := List.cons.inj hn; rfl
    simp only [nextFitToLast, if_pos (show a < h.lastBp by omega), hl.nextBlockBp_eq hc',
      hl.isItAlloc_header hc'.next, hl.getSize_header hc'.next, Option.bind_eq_bind,
      Option.bind_some, hplaced, List.find?_cons]
    by_cases hfit : fits adjSize (a + b.size, n) = true
    · have hn := fits_iff.mp hfit
      simp only at hn
      rw [hfit, if_pos ⟨by simp [hn.1], hn.2⟩]
      rfl
    · have hn : ¬ (n.alloc.toNat = 0 ∧ adjSize ≤ n.size) := by
        rintro ⟨h₁, h₂⟩
        exact hfit (fits_iff.mpr ⟨by simpa using h₁, h₂⟩)
      rw [if_neg hn, hrec]
      simp only [hfit]

/-- Addresses grow along the list, so the rover splits it by address. -/
theorem placed_filter_last {k r : List Block} {c : Block} (hc : Cut h l h.lastBp k (c :: r)) :
    (placed (h.startBp + 8) l).filter (fun x => h.lastBp < x.1) = placed (h.lastBp + c.size) r ∧
      (placed (h.startBp + 8) l).filter (fun x => x.1 ≤ h.lastBp) =
        (placed h.startBp (k ++ [c])).tail := by
  have hfull : (placed h.startBp (k ++ [c])).tail ++ placed (h.lastBp + c.size) r =
      placed (h.startBp + 8) l := by
    have hsplit := congrArg (fun x => (placed h.startBp x).tail) hc.next.split
    simp only [placed_cons, List.tail_cons, prologue_size] at hsplit
    rw [hsplit, placed_append h.startBp (k ++ [c]) r, ← hc.next.addr, List.tail_append_of_ne_nil]
    cases k <;> simp
  have hlow : ∀ x ∈ (placed h.startBp (k ++ [c])).tail, x.1 ≤ h.lastBp := by
    intro x hx
    have hx' := List.mem_of_mem_tail hx
    rw [placed_append, List.mem_append, ← hc.addr] at hx'
    rcases hx' with hx' | hx'
    · have := placed_address_lt hx'
      have := hc.addr
      omega
    · simp only [placed_cons, placed_nil, List.mem_singleton] at hx'
      rw [hx']
  have hhigh : ∀ x ∈ placed (h.lastBp + c.size) r, h.lastBp < x.1 := by
    intro x hx
    have := (placed_bounds (show (x.1, x.2) ∈ _ from hx)).1
    have := c.size_pos
    omega
  rw [← hfull, List.filter_append, List.filter_append]
  constructor
  · rw [List.filter_eq_nil_iff.mpr (by simpa using hlow),
      List.filter_eq_self.mpr (by simpa using hhigh), List.nil_append]
  · rw [List.filter_eq_self.mpr (by simpa using hlow),
      List.filter_eq_nil_iff.mpr (by simpa using hhigh), List.append_nil]

theorem length_lt_walkFuel (hl : Laid h l) {l₁ l₂ : List Block} (hs : prologue :: l = l₁ ++ l₂) :
    l₁.length < walkFuel ∧ l₂.length < walkFuel := by
  have h₁ := length_le_span l₁
  have h₂ := length_le_span l₂
  have hbrk := hl.brk_eq
  rw [hs, span_append] at hbrk
  have hlt := hl.brk_le.trans_lt hl.max_lt
  unfold walkFuel
  omega

/-- `next_fit` ends, changes nothing but the rover, and returns `chosen`. -/
theorem nextFit_eq (hl : Laid h l) (hrover : OnBoundary h l h.lastBp) :
    nextFit h adjSize = some
      (match chosen h l adjSize with
        | some x => ({ h with lastBp := x.1 }, x.1)
        | none => (h, null)) := by
  obtain ⟨c, hmem⟩ := hrover
  obtain ⟨k, r, hc⟩ := Cut.of_placed hmem
  obtain ⟨hk, hr⟩ := length_lt_walkFuel hl hc.split
  have h₁ := nextFitToEpilogue_eq adjSize hl r k h.lastBp walkFuel c hc
    (by simp only [List.length_cons] at hr; omega)
  have h₂ := nextFitToLast_eq adjSize hl k [] h.startBp walkFuel
    ⟨hc.split, rfl⟩ hc.addr hk
  obtain ⟨hbehind, hupto⟩ := placed_filter_last hc
  unfold chosen
  rw [hbehind, hupto]
  simp only [nextFit, h₁, h₂, Option.bind_eq_bind, Option.bind_some]
  cases (placed (h.lastBp + c.size) r).find? (fits (adjSize + 1)) with
  | some x => rfl
  | none =>
    cases (placed h.startBp (k ++ [c])).tail.find? (fits adjSize) with
    | some x => rfl
    | none => rfl

end Loops

end SystemSoftware.NextFitSearch
