import SystemSoftware.NextFitRuns

/-!
Is `next_fit` a complete circular search? The order it follows starts with the
block behind `last_bp` and ends with `last_bp` itself. Its first loop refuses an
exact fit, so the search is complete only when the first fitting block behind
`last_bp` is longer than the request.
-/
namespace SystemSoftware.NextFitCircular

open ByteMemory BoundaryTags NextFitHeap NextFitBlocks NextFitSearch NextFitAllocate NextFitRuns

def behindLast (h : Heap) (l : List Block) : List (ℕ × Block) :=
  (placed (h.startBp + 8) l).filter (fun x => h.lastBp < x.1)

def uptoLast (h : Heap) (l : List Block) : List (ℕ × Block) :=
  (placed (h.startBp + 8) l).filter (fun x => x.1 ≤ h.lastBp)

def circular (h : Heap) (l : List Block) : List (ℕ × Block) := behindLast h l ++ uptoLast h l

/-- `next_fit` returns the first fitting block in circular order and NULL only
when there is none, and `mm_malloc` extends the heap only when there is none. -/
structure CompleteSearch (h : Heap) (l : List Block) (adjSize : ℕ) : Prop where
  returns : ∃ h' bp, nextFit h adjSize = some (h', bp) ∧
    (bp = null ↔ ∀ x ∈ placed (h.startBp + 8) l, ¬ fits adjSize x) ∧
    ∀ x, (circular h l).find? (fits adjSize) = some x → bp = x.1
  extends_last : ∀ size h' q, size ≠ 0 → adjustedSize size = adjSize →
    mmMalloc h size = some (h', q) → h'.memBrk ≠ h.memBrk →
    ∀ x ∈ placed (h.startBp + 8) l, ¬ fits adjSize x

/-- An element found for a weak test and passing a stronger one is found for that one. -/
theorem find?_of_stronger {α : Type} {p q : α → Bool} {xs : List α} {x : α}
    (hpq : ∀ y, q y = true → p y = true) (hx : xs.find? p = some x) (hqx : q x = true) :
    xs.find? q = some x := by
  obtain ⟨-, as, bs, rfl, has⟩ := List.find?_eq_some_iff_append.mp hx
  refine List.find?_eq_some_iff_append.mpr ⟨hqx, as, bs, rfl, fun y hy => ?_⟩
  have hy' := has y hy
  cases hq : q y with
  | false => rfl
  | true => simp [hpq y hq] at hy'

theorem mem_circular {h : Heap} {l : List Block} {x : ℕ × Block} :
    x ∈ circular h l ↔ x ∈ placed (h.startBp + 8) l := by
  simp only [circular, behindLast, uptoLast, List.mem_append, List.mem_filter, decide_eq_true_eq]
  have hor := Nat.lt_or_ge h.lastBp x.1
  tauto

section Heaps

variable {h h' : Heap} {l : List Block} {adjSize : ℕ}

theorem put_memBrk {p v : ℕ} (hput : h.put p v = some h') : h'.memBrk = h.memBrk := by
  unfold Heap.put at hput
  split at hput
  · obtain rfl := Option.some.inj hput
    rfl
  · exact absurd hput (by simp)

/-- `mark` writes words and leaves the end of the heap where it is. -/
theorem mark_memBrk {bp : ℕ} (hmark : mark h bp adjSize = some h') : h'.memBrk = h.memBrk := by
  simp only [mark, Option.bind_eq_bind, Option.bind_eq_some_iff] at hmark
  obtain ⟨cur, -, hmark⟩ := hmark
  split at hmark
  · simp only [Option.bind_eq_some_iff] at hmark
    obtain ⟨h₁, hp₁, _, -, h₂, hp₂, _, -, h₃, hp₃, _, -, hp₄⟩ := hmark
    rw [put_memBrk hp₄, put_memBrk hp₃, put_memBrk hp₂, put_memBrk hp₁]
  · simp only [Option.bind_eq_some_iff] at hmark
    obtain ⟨h₁, hp₁, _, -, hp₂⟩ := hmark
    rw [put_memBrk hp₂, put_memBrk hp₁]

/-- When `next_fit` finds a block, `mm_malloc` does not extend the heap. -/
theorem mmMalloc_memBrk {h₁ : Heap} {size bp q : ℕ} (hsize : size ≠ 0)
    (hfit : nextFit h (adjustedSize size) = some (h₁, bp)) (hbp : bp ≠ null)
    (hcall : mmMalloc h size = some (h', q)) : h'.memBrk = h₁.memBrk := by
  simp only [mmMalloc, if_neg hsize, hfit, Option.bind_eq_bind, Option.bind_some, if_pos hbp,
    Option.bind_eq_some_iff, Option.some.injEq, Prod.mk.injEq] at hcall
  obtain ⟨h₂, hmark, rfl, -⟩ := hcall
  have hbrk := mark_memBrk hmark
  exact hbrk

theorem placed_ne_null {x : ℕ × Block} (hx : x ∈ placed (h.startBp + 8) l) :
    x.1 ≠ null := by
  have hlo := (placed_bounds (show (x.1, x.2) ∈ _ from hx)).1
  simp only [null]
  omega

/-- The first loop finds the first fitting block unless that one is an exact fit. -/
theorem chosen_eq_find (hlong : ∀ x, (behindLast h l).find? (fits adjSize) = some x →
    x.2.size ≠ adjSize) : chosen h l adjSize = (circular h l).find? (fits adjSize) := by
  have himp : ∀ y, fits (adjSize + 1) y = true → fits adjSize y = true := by
    intro y hy
    rw [fits_iff] at hy ⊢
    exact ⟨hy.1, by omega⟩
  have hfirst : (behindLast h l).find? (fits (adjSize + 1)) =
      (behindLast h l).find? (fits adjSize) := by
    cases hx : (behindLast h l).find? (fits adjSize) with
    | some x =>
      have hfit := fits_iff.mp (List.find?_some hx)
      have hne := hlong x hx
      exact find?_of_stronger himp hx (fits_iff.mpr ⟨hfit.1, by omega⟩)
    | none =>
      rw [List.find?_eq_none] at hx ⊢
      exact fun y hy hy' => hx y hy (himp y hy')
  change ((behindLast h l).find? (fits (adjSize + 1))).or
    ((uptoLast h l).find? (fits adjSize)) = _
  rw [hfirst, circular, List.find?_append]

theorem complete_of_longer (hl : Laid h l) (hrover : OnBoundary h l h.lastBp)
    (hlong : ∀ x, (behindLast h l).find? (fits adjSize) = some x → x.2.size ≠ adjSize) :
    CompleteSearch h l adjSize := by
  have heq := nextFit_eq adjSize hl hrover
  rw [chosen_eq_find hlong] at heq
  cases hx : (circular h l).find? (fits adjSize) with
  | some x =>
    rw [hx] at heq
    have hin := mem_circular.mp (List.mem_of_find?_eq_some hx)
    have hne := placed_ne_null hin
    refine ⟨⟨_, x.1, heq, ⟨fun hnull => absurd hnull hne, fun hno => ?_⟩, ?_⟩, ?_⟩
    · exact absurd (List.find?_some hx) (hno x hin)
    · rintro y hy
      rw [hx, Option.some.injEq] at hy
      rw [hy]
    · rintro size h' q hsize rfl hcall hgrown
      exact absurd (mmMalloc_memBrk hsize heq hne hcall) hgrown
  | none =>
    rw [hx] at heq
    rw [List.find?_eq_none] at hx
    have hno : ∀ x ∈ placed (h.startBp + 8) l, ¬ fits adjSize x :=
      fun x hin => hx x (mem_circular.mpr hin)
    refine ⟨⟨h, null, heq, ⟨fun _ => hno, fun _ => rfl⟩, ?_⟩, fun _ _ _ _ _ _ _ => hno⟩
    intro y hy
    have hy' := hx y (List.mem_of_find?_eq_some hy)
    exact absurd (List.find?_some hy) hy'

/-- An exact fit that comes first behind `last_bp` is not what `next_fit` returns. -/
theorem exact_fit_missed (hl : Laid h l) (hrover : OnBoundary h l h.lastBp) {x : ℕ × Block}
    (hx : (behindLast h l).find? (fits adjSize) = some x) (hsize : x.2.size = adjSize)
    {bp : ℕ} (hcall : nextFit h adjSize = some (h', bp)) : bp ≠ x.1 := by
  rintro rfl
  have hmem := List.mem_filter.mp (List.mem_of_find?_eq_some hx)
  rw [decide_eq_true_eq] at hmem
  rw [nextFit_eq adjSize hl hrover] at hcall
  cases hy : chosen h l adjSize with
  | none =>
    rw [hy, Option.some.injEq, Prod.mk.injEq] at hcall
    exact placed_ne_null hmem.1 hcall.2.symm
  | some y =>
    rw [hy, Option.some.injEq, Prod.mk.injEq] at hcall
    rcases Option.or_eq_some_iff.mp hy with hy | ⟨-, hy⟩
    -- The first loop returns a block that is longer, so another one.
    · have hmem' := List.mem_filter.mp (List.mem_of_find?_eq_some hy)
      have hfit := fits_iff.mp (List.find?_some hy)
      have hsame : y.2 = x.2 := placed_unique (show (x.1, y.2) ∈ placed (h.startBp + 8) l from
        hcall.2 ▸ hmem'.1) hmem.1
      rw [hsame] at hfit
      omega
    -- The second loop returns a block that is not behind `last_bp`.
    · have hmem' := List.mem_filter.mp (List.mem_of_find?_eq_some hy)
      rw [decide_eq_true_eq] at hmem'
      omega

/-- The search is complete exactly when the first fitting block behind `last_bp`,
if there is one, is longer than the request. -/
theorem complete_search_iff (hl : Laid h l) (hrover : OnBoundary h l h.lastBp) :
    CompleteSearch h l adjSize ↔
      ∀ x, (behindLast h l).find? (fits adjSize) = some x → x.2.size ≠ adjSize := by
  constructor
  · intro hc x hx hsize
    obtain ⟨h', bp, hcall, -, hfirst⟩ := hc.returns
    refine exact_fit_missed hl hrover hx hsize hcall (hfirst x ?_)
    rw [circular, List.find?_append, hx, Option.some_or]
  · exact complete_of_longer hl hrover

end Heaps

/-- After `mm_init` the heap is one free block of 4096 bytes. -/
theorem startedClient_block : ∃ M, WellFormed startedClient.heap [M] ∧ M.alloc = false ∧
    M.size = 4096 := by
  have hreturns : (mmInit freshHeap).map Prod.snd = some 0 := by decide
  have hbits : getSize startedClient.heap (headerP 4112) = some 4096 ∧
      startedClient.heap.startBp = 4104 := by decide
  have hno : ¬ InitWraps freshHeap := by
    rw [InitWraps]
    decide
  rcases mmInit_spec fresh_freshHeap hno with ⟨h', hcall⟩ | ⟨h', M, hcall, hw, hfree, -⟩
  · rw [hcall] at hreturns
    simp at hreturns
  · have hheap : startedClient.heap = h' := by
      rw [startedClient, hcall]
      rfl
    rw [← hheap] at hw
    have hcut : Cut startedClient.heap [M] 4112 [prologue] [M] :=
      ⟨rfl, by rw [hbits.2]; rfl⟩
    have hsize := hw.getSize_header hcut
    rw [hbits.1, Option.some.injEq] at hsize
    exact ⟨M, hw, hfree, hsize.symm⟩

theorem behindLast_started (M : Block) :
    behindLast startedClient.heap [M] = [(4112, M)] := by
  have hstart : startedClient.heap.startBp = 4104 ∧ startedClient.heap.lastBp = 4104 := by
    decide
  simp [behindLast, hstart.1, hstart.2]

theorem complete_search_started : ∃ M, WellFormed startedClient.heap [M] ∧
    CompleteSearch startedClient.heap [M] 16 := by
  obtain ⟨M, hw, hfree, hsize⟩ := startedClient_block
  refine ⟨M, hw, (complete_search_iff hw.toLaid hw.rover).mpr ?_⟩
  intro x hx
  rw [behindLast_started] at hx
  obtain rfl := List.mem_singleton.mp (List.mem_of_find?_eq_some hx)
  simp [hsize]

/-- A request for the whole of the first block is not served from it: `next_fit`
returns NULL and `mm_malloc` extends the heap by another 4096 bytes. -/
theorem complete_search_exact : ∃ M, WellFormed startedClient.heap [M] ∧
    fits 4096 (4112, M) = true ∧
    (nextFit startedClient.heap 4096).map Prod.snd = some null ∧
    (mmMalloc startedClient.heap 4088).map (fun r => r.1.memBrk) =
      some (startedClient.heap.memBrk + 4096) ∧
    ¬ CompleteSearch startedClient.heap [M] 4096 := by
  obtain ⟨M, hw, hfree, hsize⟩ := startedClient_block
  have hfits : fits 4096 (4112, M) = true := fits_iff.mpr ⟨hfree, hsize.ge⟩
  have hfound : (behindLast startedClient.heap [M]).find? (fits 4096) = some (4112, M) := by
    rw [behindLast_started, List.find?_cons_of_pos hfits]
  refine ⟨M, hw, hfits, by decide, by decide, ?_⟩
  intro hc
  obtain ⟨h', bp, hcall, -, hfirst⟩ := hc.returns
  refine exact_fit_missed hw.toLaid hw.rover hfound hsize hcall (hfirst _ ?_)
  rw [circular, List.find?_append, hfound, Option.some_or]

end SystemSoftware.NextFitCircular
