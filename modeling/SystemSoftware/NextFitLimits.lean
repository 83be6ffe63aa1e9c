import SystemSoftware.NextFitCircular
import SystemSoftware.NextFitRealloc

/-!
The limits of the next-fit allocator: sizes for which `size + 15` wraps around in
`mm_malloc` or the new break in `mem_sbrk`, and `mm_realloc` when the inner `mm_malloc`
returns NULL.
-/
namespace SystemSoftware.NextFitLimits

open ByteMemory BoundaryTags NextFitHeap NextFitBlocks NextFitSearch NextFitAllocate
open NextFitRuns NextFitCircular NextFitRealloc

/-- `mm_malloc` returns NULL and changes nothing, or a block with room for
`size` bytes between its two tags in a well-formed heap. -/
def ServesSize (h : Heap) (size : ℕ) : Prop :=
  mmMalloc h size = some (h, null) ∨
    ∃ h' l' q M, mmMalloc h size = some (h', q) ∧ q ≠ null ∧ WellFormed h' l' ∧
      (q, M) ∈ clientBlocks h' l' ∧ size ≤ M.size - 8

section Sizes

variable {h h' : Heap} {l : List Block} {size n : ℕ}

/-- From 2^32 - 15 on the rounded size is that of a payload of fewer than 15 bytes. -/
theorem adjustedSize_wrapped (hbig : 2 ^ 32 - 16 < size) (hlt : size < 2 ^ 32) :
    adjustedSize size ≤ 8 := by
  have hadd : add32 size (8 + 8 - 1) < 15 := by
    unfold add32
    omega
  unfold adjustedSize
  simp only [dsize]
  rw [if_neg (by omega)]
  omega

/-- A request shorter than any block is refused by the search only when no block is free. -/
theorem chosen_eq_none_iff (hl : Laid h l) (hn : n < 16) :
    chosen h l n = none ↔ ∀ b ∈ l, b.alloc = true := by
  have hnone : chosen h l n = none ↔ ∀ x ∈ placed (h.startBp + 8) l, x.2.alloc = true := by
    unfold chosen
    rw [Option.or_eq_none_iff, List.find?_eq_none, List.find?_eq_none]
    constructor
    · rintro ⟨hbehind, hupto⟩ ⟨q, b⟩ hx
      by_contra hfree
      rw [Bool.not_eq_true] at hfree
      obtain ⟨k, r, rfl, hq⟩ := mem_placed.mp hx
      have h16 := hl.sixteen_le b (by simp)
      rcases Nat.lt_or_ge h.lastBp q with hlt | hge
      · exact hbehind _ (List.mem_filter.mpr ⟨hx, decide_eq_true hlt⟩)
          (fits_iff.mpr ⟨hfree, by simp only; omega⟩)
      · exact hupto _ (List.mem_filter.mpr ⟨hx, decide_eq_true hge⟩)
          (fits_iff.mpr ⟨hfree, by simp only; omega⟩)
    · intro hall
      constructor <;> intro x hx hfit
      all_goals
        have hused := hall x (List.mem_filter.mp hx).1
        simp [(fits_iff.mp hfit).1] at hused
  rw [hnone]
  constructor
  · intro hall b hb
    obtain ⟨k, r, rfl⟩ := List.append_of_mem hb
    exact hall (_, b) (mem_placed.mpr ⟨k, r, rfl, rfl⟩)
  · rintro hall ⟨q, b⟩ hx
    obtain ⟨k, r, rfl, -⟩ := mem_placed.mp hx
    exact hall b (by simp)

/-- `mm_malloc` returns NULL only when the search finds nothing and `mem_sbrk` refuses. -/
theorem refused_of_null (hw : WellFormed h l) (hn : adjustedSize size ≤ chunckSize)
    (hpos : 1 ≤ size) (hcall : mmMalloc h size = some (h', null)) :
    chosen h l (adjustedSize size) = none ∧ Refuses h chunckSize := by
  have hover := not_overruns hw hpos hcall
  rw [overruns_iff hw, max_eq_right hn] at hover
  generalize hadj : adjustedSize size = n at *
  have hfit := nextFit_eq n hw.toLaid hw.rover
  have hsize : ¬ size = 0 := by omega
  cases hx : chosen h l n with
  | some x =>
    obtain ⟨q, b⟩ := x
    have hq : q ≠ null := placed_ne_null (chosen_spec hx).1
    rw [hx] at hfit
    simp only [mmMalloc, if_neg hsize, hadj, hfit, Option.bind_eq_bind, Option.bind_some,
      if_pos hq, Option.bind_eq_some_iff, Option.some.injEq, Prod.mk.injEq] at hcall
    obtain ⟨-, -, -, hnull⟩ := hcall
    exact absurd hnull hq
  | none =>
    refine ⟨rfl, ?_⟩
    by_contra hroom
    rw [refuses_iff fun hwrap => hover ⟨hx, hwrap⟩, not_or, not_lt] at hroom
    let E : Block := ⟨chunckSize, false, by norm_num, by norm_num⟩
    have hE : E.size = chunckSize := rfl
    obtain ⟨h₁, l₁, q, M, heq, he⟩ := extendHeap_spec (E := E) hw.toLaid hw.coalesced rfl
      (by rw [hE]; norm_num) (by rw [hE]; norm_num) (by rw [hE]; omega)
    have hq : q ≠ null := by
      obtain ⟨k, r, hc, -⟩ := (selected_of_extended he).cut
      have := (he.laid.bounds hc).1
      simp only [null]
      omega
    rw [hE] at heq
    rw [hx] at hfit
    simp only [mmMalloc, if_neg hsize, hadj, hfit, Option.bind_eq_bind, Option.bind_some,
      max_eq_right hn, heq, ne_eq, not_true_eq_false, if_false, if_neg hq,
      Option.bind_eq_some_iff, Option.some.injEq, Prod.mk.injEq] at hcall
    obtain ⟨-, -, -, hnull⟩ := hcall
    exact hq hnull

theorem null_of_refused (hw : WellFormed h l) (hn : adjustedSize size ≤ chunckSize)
    (hpos : 1 ≤ size) (hnone : chosen h l (adjustedSize size) = none)
    (hno : Refuses h chunckSize) : mmMalloc h size = some (h, null) := by
  have hfit := nextFit_eq (adjustedSize size) hw.toLaid hw.rover
  rw [hnone] at hfit
  simp only [mmMalloc, if_neg (show ¬ size = 0 by omega), hfit, Option.bind_eq_bind,
    Option.bind_some, max_eq_right hn, extendHeap_refused (h := h) (n := chunckSize) (by norm_num)
    (by norm_num) hno, ne_eq, not_true_eq_false, if_false, if_true]

/-- No block is longer than the address space behind it. -/
theorem client_size_lt (hl : Laid h l) {q : ℕ} {b : Block} (hb : (q, b) ∈ clientBlocks h l) :
    b.size < 2 ^ 32 - 16 := by
  obtain ⟨hin, -⟩ := mem_liveBlocks.mp hb
  have hbounds := placed_bounds hin
  have hbrk := hl.brk_eq
  have hstart := hl.start_eq
  have hlt := hl.brk_le.trans_lt hl.max_lt
  rw [span_cons, prologue_size] at hbrk
  omega

/-- A size up to 2^32 - 16 is served as it should be exactly when a block fits or `mem_sbrk`
does not wrap. A larger one is, only when no block is free and `mem_sbrk` refuses 4096
bytes, so that NULL is returned. -/
theorem serves_size_iff (hw : WellFormed h l) (hpos : 1 ≤ size) (hlt : size < 2 ^ 32) :
    ServesSize h size ↔ size ≤ 2 ^ 32 - 16 ∧ ¬ Overruns h size ∨
      2 ^ 32 - 16 < size ∧ (∀ b ∈ l, b.alloc = true) ∧ Refuses h chunckSize := by
  rcases Nat.lt_or_ge (2 ^ 32 - 16) size with hbig | hsmall
  · have h8 := adjustedSize_wrapped hbig hlt
    have hn : adjustedSize size ≤ chunckSize := h8.trans (by norm_num)
    have hfree := chosen_eq_none_iff hw.toLaid (show adjustedSize size < 16 by omega)
    constructor
    · rintro (hnull | ⟨h', l', q, M, -, -, hw', hM, hroom⟩)
      · obtain ⟨hnone, hno⟩ := refused_of_null hw hn hpos hnull
        exact Or.inr ⟨hbig, hfree.mp hnone, hno⟩
      · have := client_size_lt hw'.toLaid hM
        omega
    · rintro (⟨hle, -⟩ | ⟨-, hall, hno⟩)
      · omega
      · exact Or.inl (null_of_refused hw hn hpos (hfree.mpr hall) hno)
  · constructor
    · rintro (hcall | ⟨h', l', q, M, hcall, -⟩) <;>
        exact Or.inl ⟨hsmall, not_overruns hw hpos hcall⟩
    · rintro (⟨-, hno⟩ | ⟨hbig, -⟩)
      · rcases mmMalloc_spec hw hpos (show size + 15 < 2 ^ 32 by omega) hno with
          ⟨-, hnull⟩ | ⟨h', l', q, M, hcall, hq, ha, -, hroom⟩
        · exact Or.inl hnull
        · exact Or.inr ⟨h', l', q, M, hcall, hq, ha.wellFormed, ha.mem_iff.mpr (Or.inl rfl),
            by omega⟩
      · omega

end Sizes

theorem serves_size_gap : ServesSize gapClient.heap (2 ^ 20) ∧
    ServesSize gapClient.heap (2 ^ 31) := by
  obtain ⟨l, hc⟩ := reachable_consistent gapClient_reachable
  have hno : ∀ size, ¬ Wraps gapClient.heap (max (adjustedSize size) chunckSize) →
      ¬ Overruns gapClient.heap size := fun size hwrap hover => hwrap hover.2
  exact ⟨(serves_size_iff hc.wellFormed (by norm_num) (by norm_num)).mpr
      (Or.inl ⟨by norm_num, hno _ (by decide)⟩),
    (serves_size_iff hc.wellFormed (by norm_num) (by norm_num)).mpr
      (Or.inl ⟨by norm_num, hno _ (by decide)⟩)⟩

/-- A request for 2^32 - 1 bytes gets a block of eight bytes, and one for 0x7fffffe0 bytes on
the high heap does not return. -/
theorem serves_size_wrapped : (∃ l, WellFormed startedClient.heap l) ∧
    (mmMalloc startedClient.heap (2 ^ 32 - 1)).map Prod.snd = some 4112 ∧
    (mmMalloc startedClient.heap (2 ^ 32 - 1)).bind (fun r => getSize r.1 (headerP 4112)) =
      some 8 ∧
    ¬ ServesSize startedClient.heap (2 ^ 32 - 1) ∧
    (∃ l, WellFormed highClient.heap l) ∧ ¬ ServesSize highClient.heap 0x7fffffe0 := by
  obtain ⟨M, hw, -, -⟩ := startedClient_block
  obtain ⟨l, hc⟩ := reachable_consistent highClient_reachable
  have hreturns : (mmMalloc startedClient.heap (2 ^ 32 - 1)).map Prod.snd = some 4112 := by
    decide
  have hnone : (mmMalloc highClient.heap 0x7fffffe0).isNone = true := by decide
  refine ⟨⟨_, hw⟩, hreturns, by decide, ?_, ⟨l, hc.wellFormed⟩, ?_⟩
  swap
  · rintro (heq | ⟨h', l', q, M', heq, -⟩) <;> rw [heq] at hnone <;> cases hnone
  rintro (hnull | ⟨h', l', q, M', -, -, hw', hM, hroom⟩)
  · rw [hnull, Option.map_some, Option.some.injEq] at hreturns
    exact absurd hreturns (by decide)
  · have := client_size_lt hw'.toLaid hM
    omega

/-- A `mm_realloc` that gets no memory returns NULL and leaves everything as it was. -/
def FailsAtomically (h : Heap) (ptr size : ℕ) : Prop := mmRealloc h ptr size = some (h, null)

/-- Where the block has to be moved and the inner `mm_malloc` returns NULL, the
call goes on to `mark` a block at NULL: it reads outside the heap and never fails
as it should. -/
theorem failing_realloc_faults {h h' : Heap} {l : List Block} {p size : ℕ} {b : Block}
    (hw : WellFormed h l) (hp : (p, b) ∈ clientBlocks h l) (hpos : 1 ≤ size)
    (hlt : size ≤ 2 ^ 31 - 16) (hgt : b.size < size + 8)
    (hno : ∀ c, (p + b.size, c) ∈ placed (h.startBp + 8) l → c.alloc = false →
      b.size + c.size < size + 8)
    (hmal : mmMalloc h (size + 8) = some (h', null)) :
    mmRealloc h p size = none ∧ ¬ FailsAtomically h p size := by
  obtain ⟨hin, -⟩ := mem_liveBlocks.mp hp
  have hmove := realloc_moving_listed hw.toLaid hin (by omega) hgt hno
  -- A refused `mm_malloc` has left the heap as it was.
  have hover := not_overruns hw (show 1 ≤ size + 8 by omega) hmal
  rcases mmMalloc_spec hw (show 1 ≤ size + 8 by omega) (by omega) hover with
    ⟨-, hnull⟩ | ⟨h₁, l₁, q, M, heq, hq, -⟩
  · rw [hnull, Option.some.injEq, Prod.mk.injEq] at hmal
    have hnone : mmRealloc h p size = none := by
      rw [hmove, hnull]
      simp [mark_null hw.toLaid]
    exact ⟨hnone, by simp [FailsAtomically, hnone]⟩
  · rw [heq, Option.some.injEq, Prod.mk.injEq] at hmal
    exact absurd hmal.2 hq

def tightClient : Client :=
  { startedClient.malloc 1 with
    heap := { (startedClient.malloc 1).heap with
      memMaxAddr := (startedClient.malloc 1).heap.memBrk } }

theorem tightClient_reachable : runs.Reachable tightClient := by
  have hs : runs.Reachable (startedClient.malloc 1) :=
    reachable_malloc startedClient_reachable le_rfl (by norm_num)
  have hbrk : (startedClient.malloc 1).heap.memBrk < 2 ^ 32 := by decide
  exact .step hs (.limit (h := (startedClient.malloc 1).heap) le_rfl hbrk)

theorem tightClient_block : ∃ l b, WellFormed tightClient.heap l ∧
    (4112, b) ∈ clientBlocks tightClient.heap l ∧ b.size = 16 ∧
    ∀ c, (4112 + b.size, c) ∈ placed (tightClient.heap.startBp + 8) l → c.size = 4080 := by
  obtain ⟨l, hc⟩ := reachable_consistent tightClient_reachable
  have hlive : tightClient.live = [(4112, 1)] := by decide
  have hbits : getSize tightClient.heap (headerP 4112) = some 16 ∧
      getSize tightClient.heap (headerP 4128) = some 4080 := by decide
  obtain ⟨b, hb, -⟩ := hc.serves.block (p := 4112) (n := 1) (by simp [hlive])
  have hsize : ∀ {q c}, (q, c) ∈ placed (tightClient.heap.startBp + 8) l →
      getSize tightClient.heap (headerP q) = some c.size := by
    intro q c hin
    obtain ⟨k, r, hcut⟩ := Cut.of_placed (h := tightClient.heap) (l := l)
      (List.mem_cons_of_mem _ hin)
    exact hc.wellFormed.getSize_header hcut
  have hb16 := hsize (mem_liveBlocks.mp hb).1
  rw [hbits.1, Option.some.injEq] at hb16
  refine ⟨l, b, hc.wellFormed, hb, hb16.symm, ?_⟩
  intro c hin
  rw [← hb16] at hin
  have hc16 := hsize hin
  rw [hbits.2, Option.some.injEq] at hc16
  exact hc16.symm

theorem failing_realloc_faults_tight : mmRealloc tightClient.heap 4112 5000 = none := by
  obtain ⟨l, b, hw, hb, hsize, hnext⟩ := tightClient_block
  have hmal := eq_some_getD (tightClient.heap, 0)
    (show (mmMalloc tightClient.heap (5000 + 8)).map Prod.snd = some null by decide)
  refine (failing_realloc_faults hw hb (by norm_num) (by norm_num) (by omega) ?_ hmal).1
  intro c hin hfree
  have := hnext c hin
  omega

/-- One block of one byte cannot grow to 5000 bytes in a full heap. -/
theorem failing_realloc_tight : runs.Reachable tightClient ∧ (4112, 1) ∈ tightClient.live ∧
    (mmMalloc tightClient.heap (5000 + 8)).map Prod.snd = some null ∧
    ¬ FailsAtomically tightClient.heap 4112 5000 := by
  refine ⟨tightClient_reachable, by decide, by decide, ?_⟩
  have hfault : (mmRealloc tightClient.heap 4112 5000).isNone = true := by decide
  intro hatomic
  rw [FailsAtomically] at hatomic
  simp [hatomic] at hfault

end SystemSoftware.NextFitLimits
