import SystemSoftware.NextFitLayout

/-!
The code of mm.c computes what the allocator without memory computes. A heap shows the
layout that its tags spell, and there is one at most. Each call returns the pointer that
the call on the layout returns and leaves a heap that shows the new layout.
-/
namespace SystemSoftware.NextFitRefinement

open ByteMemory BoundaryTags NextFitHeap NextFitBlocks NextFitCoalesce NextFitSearch
open NextFitAllocate NextFitRuns NextFitLayout

def layout (h : Heap) (l : List Block) : Layout :=
  ⟨h.startBp, h.memMaxAddr, prologue :: l, h.lastBp⟩

/-- The tags of a well-formed heap spell the layout. -/
def Shows (h : Heap) (L : Layout) : Prop := ∃ l, WellFormed h l ∧ L = layout h l

section Shows

variable {h h' : Heap} {l l' : List Block} {L L' : Layout} {n q : ℕ} {b : Block}

theorem Laid.unique (hl : Laid h l) (hl' : Laid h l') : l = l' := by
  have hspan : span (prologue :: l) = span (prologue :: l') := by
    have h₁ := hl.brk_eq
    have h₂ := hl'.brk_eq
    omega
  exact (List.cons.inj (hl.tagged.unique hl'.tagged hspan)).2

theorem Shows.unique (hL : Shows h L) (hL' : Shows h L') : L = L' := by
  obtain ⟨l, hw, rfl⟩ := hL
  obtain ⟨l', hw', rfl⟩ := hL'
  rw [Laid.unique hw.toLaid hw'.toLaid]

/-- The prologue is never chosen. -/
theorem chosen_layout (h : Heap) (l : List Block) (n : ℕ) :
    (layout h l).chosen n = chosen h l n := by
  have hskip : ∀ (f : ℕ × Block → Bool) m (r : List (ℕ × Block)),
      (((h.startBp, prologue) :: r).filter f).find? (fits m) = (r.filter f).find? (fits m) := by
    intro f m r
    rw [List.filter_cons]
    split
    · rw [List.find?_cons]
      rfl
    · rfl
  simp only [Layout.chosen, layout, placed_cons, hskip, chosen, prologue_size]
  rfl

theorem brk_layout (hl : Laid h l) : (layout h l).brk = h.memBrk := hl.brk_eq.symm

theorem overruns_layout (hw : WellFormed h l) {size : ℕ} :
    (layout h l).overruns size ↔ Overruns h size := by
  rw [overruns_iff hw, Layout.overruns, chosen_layout, brk_layout hw.toLaid]
  rfl

/-- A layout with the blocks of a heap and its variables. -/
theorem Shows.of_blocks (hw : WellFormed h' l') (harea : SameArea h h') {blocks : List Block}
    (hblocks : prologue :: l' = blocks) :
    Shows h' ⟨h.startBp, h.memMaxAddr, blocks, h'.lastBp⟩ :=
  ⟨l', hw, by rw [layout, harea.start, harea.max, hblocks]⟩

end Shows

section Calls

variable {h h₁ h₂ : Heap} {l l₁ l₂ k r : List Block} {L : Layout} {n q size p a : ℕ} {b : Block}

/-- `mark` cuts the block. -/
theorem mark_laid (hl : Laid h l) (hc : Cut h l a k (b :: r)) (hne : k ≠ []) (hn : 8 ∣ n)
    (h16 : 16 ≤ n) (hfit : n ≤ b.size) :
    ∃ h' l', mark h a n = some h' ∧ prologue :: l' = k ++ cut n b ++ r ∧ Laid h' l' := by
  have hpos : 0 < n := by omega
  by_cases hroom : n + 16 ≤ b.size
  · have hlt : n < b.size := by omega
    obtain ⟨h', l', hmark, hl', hm⟩ := mark_split (M := front n hn hpos)
      (R := remainder b n hn hlt) hl hc hne rfl rfl h16 (by simp only [remainder]; omega)
      (by simp only [front, remainder]; omega)
    refine ⟨h', l', hmark, ?_, hm.laid⟩
    rw [hl', cut, dif_pos ⟨⟨hn, hpos⟩, hroom⟩]
  · have hb : b ∈ l := by
      obtain ⟨k', -, rfl⟩ := hc.tail hne
      simp
    obtain ⟨h', l', hmark, hl', hm⟩ := mark_whole hl hc hne hb hfit (by omega)
    refine ⟨h', l', hmark, ?_, hm.laid⟩
    rw [hl', cut, dif_neg fun hcut => hroom hcut.2]

/-- `mm_malloc` behind its search: the block at `q` is marked. -/
theorem mmMalloc_marked (hsize : size ≠ 0) (hq : q ≠ null)
    (hsel : nextFit h (adjustedSize size) = some (h₁, q) ∨
      nextFit h (adjustedSize size) = some (h, null) ∧
        extendHeap h (max (adjustedSize size) chunckSize / wsize) = some (h₁, q))
    (hmark : mark h₁ q (adjustedSize size) = some h₂) :
    mmMalloc h size = some ({ h₂ with lastBp := q }, q) := by
  rcases hsel with hfit | ⟨hfit, hext⟩
  · simp only [mmMalloc, if_neg hsize, hfit, Option.bind_eq_bind, Option.bind_some, if_pos hq,
      hmark]
  · simp only [mmMalloc, if_neg hsize, hfit, hext, Option.bind_eq_bind, Option.bind_some, hmark,
      ne_eq, not_true_eq_false, if_false, if_neg hq]

/-- The new list of blocks is the one that the call is known to leave. -/
theorem shows_malloc (hw : WellFormed h l) (hpos : 1 ≤ size) (hlt : size + 15 < 2 ^ 32)
    (hq : q ≠ null) (hcall : mmMalloc h size = some (h₁, q)) (hl₁ : Laid h₁ l₁) :
    Shows h₁ ⟨h.startBp, h.memMaxAddr, prologue :: l₁, q⟩ := by
  have hover := not_overruns hw hpos hcall
  rcases mmMalloc_spec hw hpos hlt hover with ⟨-, hno⟩ | ⟨h', l', p, M, heq, -, ha, -⟩
  · rw [hcall] at hno
    exact absurd (Prod.mk.inj (Option.some.inj hno)).2 hq
  · rw [hcall] at heq
    obtain ⟨rfl, rfl⟩ := Prod.mk.inj (Option.some.inj heq)
    obtain rfl := Laid.unique hl₁ ha.wellFormed.toLaid
    have hrover := ha.rover
    have hshows := Shows.of_blocks ha.wellFormed ha.area rfl
    rwa [hrover] at hshows

theorem cut_ne_null (hl : Laid h l) (hc : Cut h l a k r) : a ≠ null := by
  have := (hl.bounds hc).1
  simp only [null]
  omega

/-- Where the block lies that a merge with the left neighbour leaves. -/
theorem joinPrev_cons (k : List Block) (p c : Block) (r : List Block) :
    ∃ k' b, k ++ joinPrev p (c :: r) = k' ++ b :: r ∧
      span k' = (if p.alloc then span k + p.size else span k) ∧ c.size ≤ b.size ∧
      (c.alloc = false → b.alloc = false) ∧ (p.alloc = true ∨ k ≠ [] → k' ≠ []) := by
  rw [joinPrev]
  cases hp : p.alloc with
  | true => exact ⟨k ++ [p], c, by simp, by simp [span_append], le_rfl, id, by simp⟩
  | false =>
    refine ⟨k, p.join c, by simp, by simp, ?_, fun _ => rfl, by simp⟩
    rw [Block.join_size]
    omega

/-- `extend_heap` and its layout. The rover is left at the block that is cut next. -/
theorem extend_refines {E : Block} (hl : Laid h l) (hco : Coalesced (prologue :: l))
    (hE : E.alloc = false) (h16 : 16 ≤ E.size) (h31 : E.size < 2 ^ 31)
    (hmax : h.memBrk + E.size ≤ h.memMaxAddr) :
    ∃ h₁ l₁ q k b, extendHeap h (E.size / wsize) = some (h₁, q) ∧ Laid h₁ l₁ ∧ SameArea h h₁ ∧
      (layout h l).extend E = ⟨h.startBp, h.memMaxAddr, prologue :: l₁, q⟩ ∧
      Cut h₁ l₁ q k [b] ∧ k ≠ [] ∧ E.size ≤ b.size ∧ b.alloc = false ∧
      Coalesced (prologue :: l₁) := by
  obtain ⟨k, p, h₁, l₁, hkp, hbrk, hext, hl₁, hm⟩ := extendHeap_laid hl hE h16 h31 hmax
  have hrover := blockAt_joinPrev (r := []) hbrk hE
  obtain ⟨k', b, hk', hspan, hle, hfree, hne⟩ := joinPrev_cons k p E []
  have hfields : SameArea h h₁ := by
    rw [hm.fields]
    exact ⟨rfl, rfl, rfl⟩
  have hknil : p.alloc = true ∨ k ≠ [] := by
    by_contra hcon
    simp only [ne_eq, not_or, Bool.not_eq_true, not_not] at hcon
    obtain ⟨hp, rfl⟩ := hcon
    obtain rfl := (List.cons.inj hkp).1
    simp at hp
  refine ⟨h₁, l₁, _, k', b, hext, hm.laid, hfields, ?_, ⟨hl₁.trans hk', ?_⟩, hne hknil, hle,
    hfree hE, ?_⟩
  · simp only [Layout.extend, brk_layout hl]
    simp only [layout, hkp, grow_append, ← hl₁]
    rw [hl₁]
    exact congrArg _ hrover
  · rw [hfields.start, hspan]
    cases p.alloc with
    | true =>
      simp only [if_true]
      omega
    | false => simp
  · rw [hl₁]
    exact coalesced_joinPrev hE (hkp ▸ hco) (List.isChain_singleton E)

/-- `mm_malloc` and its layout. -/
theorem malloc_refines (hL : Shows h L) (hpos : 1 ≤ size) (hlt : size + 15 < 2 ^ 32)
    (hover : ¬ L.overruns size) :
    ∃ h', mmMalloc h size = some (h', (L.malloc size).2) ∧ Shows h' (L.malloc size).1 := by
  obtain ⟨l, hw, rfl⟩ := hL
  rw [overruns_layout hw, overruns_iff hw] at hover
  obtain ⟨hdvd, h16, -, -, h32⟩ := adjustedSize_spec hlt
  have hsize : size ≠ 0 := by omega
  have hfit := nextFit_eq (adjustedSize size) hw.toLaid hw.rover
  simp only [Layout.malloc, if_neg hsize, chosen_layout]
  cases hx : chosen h l (adjustedSize size) with
  | some x =>
    obtain ⟨q, b⟩ := x
    obtain ⟨hmem, -, hbig⟩ := chosen_spec hx
    obtain ⟨k, r, rfl, hc⟩ := Cut.of_listed hmem
    have hc' : Cut { h with lastBp := q } (k ++ b :: r) q (prologue :: k) (b :: r) :=
      ⟨hc.split, hc.addr⟩
    obtain ⟨h₂, l₂, hmark, hl₂, hlaid⟩ :=
      mark_laid (hw.toLaid.setLast q) hc' (by simp) hdvd h16 hbig
    rw [hx] at hfit
    have hcall := mmMalloc_marked hsize (cut_ne_null hw.toLaid hc) (Or.inl hfit) hmark
    have hblocks : carve (adjustedSize size) q h.startBp (prologue :: (k ++ b :: r)) =
        prologue :: l₂ := by
      rw [hl₂, ← List.cons_append]
      exact carve_append hc.addr
    refine ⟨_, hcall, ?_⟩
    simp only [Layout.take, layout, hblocks]
    exact shows_malloc hw hpos hlt (cut_ne_null hw.toLaid hc) hcall (hlaid.setLast q)
  | none =>
    rw [hx] at hfit
    by_cases hgrow : (layout h l).mayGrow (max (adjustedSize size) chunckSize)
    · obtain ⟨hE8, h31, hmax⟩ := id hgrow
      rw [brk_layout hw.toLaid] at hmax
      obtain ⟨h₁, l₁, q, k, b, hext, hlaid₁, harea, hextend, hc, hne, hle, -⟩ :=
        extend_refines (E := ⟨_, false, hE8.1, hE8.2⟩) hw.toLaid hw.coalesced rfl
          (by simp only; omega) h31 hmax
      obtain ⟨h₂, l₂, hmark, hl₂, hlaid₂⟩ := mark_laid hlaid₁ hc hne hdvd h16
        ((le_max_left _ _).trans hle)
      have hcall := mmMalloc_marked hsize (cut_ne_null hlaid₁ hc) (Or.inr ⟨hfit, hext⟩) hmark
      have hblocks : carve (adjustedSize size) q h.startBp (prologue :: l₁) = prologue :: l₂ := by
        rw [hl₂, hc.split]
        exact carve_append (harea.start ▸ hc.addr)
      simp only [dif_pos hgrow, hextend, Layout.take, hblocks]
      refine ⟨_, hcall, ?_⟩
      exact shows_malloc hw hpos hlt (cut_ne_null hlaid₁ hc) hcall (hlaid₂.setLast q)
    · rw [dif_neg hgrow]
      have hno : Refuses h (max (adjustedSize size) chunckSize) := by
        rw [refuses_iff fun hwrap => hover ⟨hx, hwrap⟩]
        by_contra hcon
        rw [← brk_layout hw.toLaid] at hcon
        simp only [not_or, not_le, not_lt] at hcon
        refine hgrow ⟨⟨?_, ?_⟩, hcon.1, hcon.2⟩
        · simp only [chunckSize]
          omega
        · omega
      have hrefused := extendHeap_refused (h := h) (n := max (adjustedSize size) chunckSize)
        (by simp only [chunckSize]; omega) (by simp only [chunckSize]; omega) hno
      refine ⟨h, ?_, l, hw, rfl⟩
      simp only [mmMalloc, if_neg hsize, hfit, Option.bind_eq_bind, Option.bind_some, hrefused,
        ne_eq, not_true_eq_false, if_false, if_true]

/-- `mm_malloc` returns where the request does not overrun the layout, and nowhere else. -/
theorem malloc_returns_iff (hL : Shows h L) (hpos : 1 ≤ size) (hlt : size + 15 < 2 ^ 32) :
    (mmMalloc h size).isSome ↔ ¬ L.overruns size := by
  refine ⟨fun hsome hover => ?_, fun hover => ?_⟩
  · obtain ⟨l, hw, rfl⟩ := hL
    rw [mmMalloc_overruns hw hpos ((overruns_layout hw).mp hover)] at hsome
    cases hsome
  · obtain ⟨h', hcall, -⟩ := malloc_refines hL hpos hlt hover
    rw [hcall]
    rfl

/-- A request that is answered, and its layout. -/
theorem malloc_answered (hL : Shows h L) (hpos : 1 ≤ size) (hlt : size + 15 < 2 ^ 32)
    (hcall : mmMalloc h size = some (h₁, p)) :
    (L.malloc size).2 = p ∧ Shows h₁ (L.malloc size).1 := by
  have hover := (malloc_returns_iff hL hpos hlt).mp (by rw [hcall]; rfl)
  obtain ⟨h', hcall', hshows⟩ := malloc_refines hL hpos hlt hover
  obtain ⟨rfl, rfl⟩ := Prod.mk.inj (Option.some.inj (hcall'.symm.trans hcall))
  exact ⟨rfl, hshows⟩

/-- `mm_free` and its layout. -/
theorem free_refines (hw : WellFormed h l) (hp : (p, b) ∈ clientBlocks h l) :
    ∃ h', mmFree h p = some h' ∧ Shows h' ((layout h l).free p) := by
  obtain ⟨k, d, r, h', l₁, l', hkd, hpd, hcall, -, hl', hm, -⟩ := mmFree_laid hw.toLaid hp
  obtain ⟨h'', l'', hcall', hf⟩ := mmFree_spec hw.toLaid hw.coalesced hp
  obtain rfl := Option.some.inj (hcall.symm.trans hcall')
  obtain rfl := Laid.unique hm.laid hf.wellFormed.toLaid
  have hrover := (Merged.sameArea hm).2.2
  have hblocks : release p h.startBp (prologue :: l) = prologue :: l' := by
    rw [hkd, hl']
    exact release_append hpd
  refine ⟨h', hcall, ?_⟩
  have hshows := Shows.of_blocks hf.wellFormed hf.area rfl
  have hat : blockAt p h.startBp (prologue :: l') = h'.lastBp := by
    rw [hrover, hl']
    exact blockAt_joinPrev hpd b.free_alloc
  simp only [Layout.free, layout, hblocks, hat]
  exact hshows

/-- The bytes of the client are no part of the layout. -/
theorem shows_write {live : List (ℕ × ℕ)} {x : ℕ} {v : UInt8} (hc : Consistent h live l)
    (hL : Shows h L) (hp : (p, n) ∈ live) (hlo : p ≤ x) (hhi : x < p + n) :
    Shows { h with mem := putByte h.mem x v } L := by
  obtain rfl := hL.unique ⟨l, hc.wellFormed, rfl⟩
  exact ⟨l, (consistent_write hc hp hlo hhi).wellFormed, rfl⟩

theorem shows_limit {live : List (ℕ × ℕ)} {x : ℕ} (hc : Consistent h live l) (hL : Shows h L)
    (hlo : h.memBrk ≤ x) (hlt : x < 2 ^ 32) :
    Shows { h with memMaxAddr := x } { L with limit := x } := by
  obtain rfl := hL.unique ⟨l, hc.wellFormed, rfl⟩
  exact ⟨l, (consistent_limit hc hlo hlt).wellFormed, rfl⟩

/-- `mm_init` and its layout. -/
theorem init_refines (hf : Fresh h) (hwrap : ¬ InitWraps h) :
    match Layout.init h.memBrk h.memMaxAddr with
    | some L => ∃ h', mmInit h = some (h', 0) ∧ Shows h' L
    | none => ∃ h', mmInit h = some (h', -1) := by
  have hbrk₀ : (⟨h.memBrk + 8, h.memMaxAddr, [prologue], h.memBrk + 8⟩ : Layout).brk =
      h.memBrk + 16 := rfl
  by_cases hmax : h.memMaxAddr < h.memBrk + 16
  · have hsmall : ¬ (⟨h.memBrk + 8, h.memMaxAddr, [prologue], h.memBrk + 8⟩ : Layout).mayGrow
        chunckSize := by
      intro hgrow
      have hroom : h.memBrk + 16 + chunckSize ≤ h.memMaxAddr := hgrow.2.2
      omega
    rw [Layout.init, dif_neg hsmall]
    refine ⟨{ h with startBp := minusOne }, ?_⟩
    have hno : 2 ^ 31 ≤ 16 ∨ h.memMaxAddr < h.memBrk + 16 := Or.inr hmax
    have hsum : h.memBrk + 16 < 2 ^ 32 := not_le.mp fun hge => hwrap (Or.inl hge)
    simp only [mmInit, memSbrk, wsize, show (4 : ℕ) <<< 2 = 16 by rfl, add32_eq hsum, if_pos hno,
      if_true]
  have hlaid := laid_initMem hf (not_lt.mp hmax)
  have hstores := mmInit_stores hf (not_lt.mp hmax)
  have hspec := mmInit_spec hf hwrap
  generalize hh : ({ h with
    memBrk := h.memBrk + 16
    mem := initMem h.mem h.memBrk
    startBp := h.memBrk + 8 } : Heap) = h₀ at hlaid hstores
  have hstart : h₀.startBp = h.memBrk + 8 := by rw [← hh]
  have hlimit : h₀.memMaxAddr = h.memMaxAddr := by rw [← hh]
  have hbrk : h₀.memBrk = h.memBrk + 16 := by rw [← hh]
  by_cases hgrow : (⟨h.memBrk + 8, h.memMaxAddr, [prologue], h.memBrk + 8⟩ : Layout).mayGrow
      chunckSize
  · obtain ⟨hE8, h31, hroom⟩ := id hgrow
    rw [hbrk₀, ← hbrk, ← hlimit] at hroom
    obtain ⟨h₁, l₁, q, k, b, hext, hlaid₁, harea, hextend, hc, -⟩ :=
      extend_refines (E := ⟨chunckSize, false, hE8.1, hE8.2⟩) hlaid (List.isChain_singleton _) rfl
        (by norm_num) h31 hroom
    have hcall : mmInit h = some ({ h₁ with lastBp := h₁.startBp }, 0) := by
      rw [hstores, hext]
      simp only [Option.bind_eq_bind, Option.bind_some, if_neg (cut_ne_null hlaid₁ hc)]
    obtain ⟨l', hw⟩ : ∃ l', WellFormed { h₁ with lastBp := h₁.startBp } l' := by
      rcases hspec with ⟨h', heq⟩ | ⟨h', M, heq, hw, -⟩
      · rw [hcall] at heq
        exact absurd (Prod.mk.inj (Option.some.inj heq)).2 (by norm_num)
      · rw [hcall] at heq
        obtain rfl := (Prod.mk.inj (Option.some.inj heq)).1
        exact ⟨[M], hw⟩
    obtain rfl := Laid.unique hw.toLaid (hlaid₁.setLast h₁.startBp)
    rw [Layout.init, dif_pos hgrow]
    refine ⟨_, hcall, l', hw, ?_⟩
    have hwide : (⟨h.memBrk + 8, h.memMaxAddr, [prologue], h.memBrk + 8⟩ : Layout).extend
        ⟨chunckSize, false, hE8.1, hE8.2⟩ =
          (layout h₀ []).extend ⟨chunckSize, false, hE8.1, hE8.2⟩ := by
      simp only [Layout.extend, Layout.brk, layout, hstart, hlimit]
    rw [hwide, hextend]
    simp only [layout, harea.start, harea.max, hstart]
  · rw [Layout.init, dif_neg hgrow]
    have hsum : ¬ Wraps h₀ chunckSize := fun hw => hwrap (Or.inr ⟨not_lt.mp hmax, hbrk ▸ hw.2⟩)
    have hno : Refuses h₀ chunckSize := by
      rw [refuses_iff hsum]
      refine Or.inr (not_le.mp fun hle => hgrow ⟨by norm_num, by norm_num, ?_⟩)
      rwa [hbrk₀, ← hbrk, ← hlimit]
    refine ⟨h₀, ?_⟩
    rw [hstores, extendHeap_refused (by norm_num) (by norm_num) hno]
    rfl

end Calls

section Undo

variable {h h' : Heap} {l : List Block} {L : Layout} {n size p : ℕ}

/-- A request and its return leave the blocks as they were, or those of the extended heap,
and the rover at the place of the request. -/
theorem free_malloc (hL : Shows h L) (hpos : 1 ≤ size) (hlt : size + 15 < 2 ^ 32)
    (hp : (L.malloc size).2 ≠ null) :
    (L.malloc size).1.free (L.malloc size).2 =
      { L.widened (adjustedSize size) with rover := (L.malloc size).2 } := by
  obtain ⟨l, hw, rfl⟩ := hL
  obtain ⟨hdvd, h16, -, -, h32⟩ := adjustedSize_spec hlt
  have hsize : size ≠ 0 := by omega
  have hundo : ∀ {q k b r} (M : Layout), M.blocks = k ++ b :: r → q = M.start + span k → k ≠ [] →
      b.alloc = false → Coalesced M.blocks → M.rover = q →
      (M.take (adjustedSize size)).free q = { M with rover := q } := by
    intro q k b r M hblocks hq hk hb hco hrover
    have hback : release q M.start (carve (adjustedSize size) q M.start M.blocks) = M.blocks := by
      rw [hblocks] at hco ⊢
      exact release_carve hq hk hb hco
    have hpos := b.size_pos
    have hat : blockAt q M.start M.blocks = q := by
      rw [hblocks, hq]
      exact blockAt_append le_rfl (by omega)
    simp only [Layout.free, Layout.take, hrover, hback, hat]
  simp only [Layout.malloc, if_neg hsize, Layout.widened] at hp ⊢
  cases hx : (layout h l).chosen (adjustedSize size) with
  | some x =>
    obtain ⟨q, b⟩ := x
    rw [chosen_layout] at hx
    obtain ⟨hmem, hfree, -⟩ := chosen_spec hx
    obtain ⟨k, r, rfl, hc⟩ := Cut.of_listed hmem
    exact hundo { layout h (k ++ b :: r) with rover := q } hc.split hc.addr (by simp) hfree
      hw.coalesced rfl
  | none =>
    simp only [hx] at hp
    by_cases hgrow : (layout h l).mayGrow (max (adjustedSize size) chunckSize)
    · obtain ⟨hE8, h31, hmax⟩ := id hgrow
      rw [brk_layout hw.toLaid] at hmax
      obtain ⟨h₁, l₁, q, k, b, -, -, harea, hextend, hc, hne, -, hfree, hco⟩ :=
        extend_refines (E := ⟨_, false, hE8.1, hE8.2⟩) hw.toLaid hw.coalesced rfl
          (by simp only; omega) h31 hmax
      simp only [dif_pos hgrow, hextend]
      exact hundo _ hc.split (harea.start ▸ hc.addr) hne hfree hco rfl
    · rw [dif_neg hgrow] at hp
      exact absurd rfl hp

end Undo

section Runs

/-- A call of the client on the layout and on the list of its pointers. -/
def replay (t : Layout × List (ℕ × ℕ)) : Call → Layout × List (ℕ × ℕ)
  | .malloc size =>
    let (L, p) := t.1.malloc size
    if p = null then (L, t.2) else (L, (p, size) :: t.2)
  | .free p => (t.1.free p, t.2.filter fun x => x.1 ≠ p)
  | .write _ _ => t
  | .limit x => ({ t.1 with limit := x }, t.2)

def Follows (s : Client) (t : Layout × List (ℕ × ℕ)) : Prop :=
  (∃ l, Consistent s.heap s.live l) ∧ Shows s.heap t.1 ∧ s.live = t.2

variable {s s' : Client} {calls : List Call} {c : Call} {t : Layout × List (ℕ × ℕ)}
  {h h' : Heap} {size p : ℕ}

theorem follows_step (hf : Follows s t) (hstep : Step s c s') : Follows s' (replay t c) := by
  obtain ⟨hcons, hshows, hlive⟩ := hf
  have hcons' := consistent_step hcons hstep
  obtain ⟨l, hc⟩ := hcons
  cases hstep with
  | malloc hpos hlt hcall hp =>
    obtain ⟨rfl, hshows'⟩ := malloc_answered hshows hpos (by omega) hcall
    simp only [replay, if_neg hp]
    exact ⟨hcons', hshows', congrArg _ hlive⟩
  | refused hpos hlt hcall =>
    obtain ⟨hnull, hshows'⟩ := malloc_answered hshows hpos (by omega) hcall
    simp only [replay, if_pos hnull]
    exact ⟨hcons', hshows', hlive⟩
  | free hp hcall =>
    obtain ⟨b, hb, -⟩ := hc.serves.block hp
    obtain ⟨h', hcall', hshows'⟩ := free_refines hc.wellFormed hb
    obtain rfl := Option.some.inj (hcall'.symm.trans hcall)
    rw [Shows.unique ⟨l, hc.wellFormed, rfl⟩ hshows] at hshows'
    exact ⟨hcons', hshows', by rw [replay, ← hlive]⟩
  | write hp hlo hhi => exact ⟨hcons', shows_write hc hshows hp hlo hhi, hlive⟩
  | limit hlo hlt => exact ⟨hcons', shows_limit hc hshows hlo hlt, hlive⟩

/-- In every run the blocks, the rover and the pointers of the client are those that the
allocator without memory computes from the calls, and the next request returns exactly
where that allocator does not run over the end of the address space. -/
theorem runs_refine (hf : Fresh h) (hinit : mmInit h = some (s.heap, 0)) (hlive : s.live = [])
    (hrun : runs.Run s calls s') :
    ∃ L, Layout.init h.memBrk h.memMaxAddr = some L ∧
      Shows s'.heap (calls.foldl replay (L, [])).1 ∧
      s'.live = (calls.foldl replay (L, [])).2 ∧
      ∀ size, 1 ≤ size → size < 2 ^ 31 → ((mmMalloc s'.heap size).isSome ↔
        ¬ (calls.foldl replay (L, [])).1.overruns size) := by
  have hwrap : ¬ InitWraps h := fun hwrap => by
    rw [mmInit_wraps hf hwrap] at hinit
    cases hinit
  have hrefines := init_refines hf hwrap
  cases hL : Layout.init h.memBrk h.memMaxAddr with
  | none =>
    rw [hL] at hrefines
    obtain ⟨h', hno⟩ := hrefines
    rw [hinit] at hno
    exact absurd (Prod.mk.inj (Option.some.inj hno)).2 (by norm_num)
  | some L =>
    rw [hL] at hrefines
    obtain ⟨h', hcall, hshows⟩ := hrefines
    rw [hinit] at hcall
    obtain rfl := (Prod.mk.inj (Option.some.inj hcall)).1
    have hstart : Follows s (L, []) := ⟨consistent_started ⟨hlive, h, hf, hinit⟩, hshows, hlive⟩
    have hstep : ∀ s c s' t, Follows s t → runs.step s c s' → Follows s' (replay t c) :=
      fun _ _ _ _ hR hstep => follows_step hR hstep
    obtain ⟨-, hend, hlive'⟩ := hrun.refines hstep hstart
    exact ⟨L, rfl, hend, hlive', fun size hpos hlt => malloc_returns_iff hend hpos (by omega)⟩

theorem runs_refine_started : ∃ (s' : Client) (L : Layout),
    Layout.init freshHeap.memBrk freshHeap.memMaxAddr = some L ∧
    Shows s'.heap ([Call.malloc 1].foldl replay (L, [])).1 ∧
    s'.live = ([Call.malloc 1].foldl replay (L, [])).2 ∧
    ∀ size, 1 ≤ size → size < 2 ^ 31 → ((mmMalloc s'.heap size).isSome ↔
      ¬ ([Call.malloc 1].foldl replay (L, [])).1.overruns size) := by
  have hinit : mmInit freshHeap = some (startedClient.heap, 0) :=
    eq_some_getD (freshHeap, 0) (by decide)
  have hcall := eq_some_getD (startedClient.heap, 0)
    (show (mmMalloc startedClient.heap 1).map Prod.snd = some 4112 by decide)
  exact ⟨_, runs_refine fresh_freshHeap hinit rfl
    (.cons (.malloc le_rfl (by norm_num) hcall (by decide)) .nil)⟩

/-- In every reachable state a request that is given back at once leaves nothing but the
place of the rover, and the extension of the heap if there was one. -/
theorem malloc_free (hs : runs.Reachable s) (hpos : 1 ≤ size) (hlt : size < 2 ^ 31)
    (hcall : mmMalloc s.heap size = some (h', p)) (hp : p ≠ null) :
    ∃ l l' h'', mmFree h' p = some h'' ∧ WellFormed s.heap l ∧ WellFormed h'' l' ∧
      h''.lastBp = p ∧ (h''.memBrk = s.heap.memBrk ∧ l' = l ∨
        ∃ E, E.alloc = false ∧ h''.memBrk = s.heap.memBrk + E.size ∧
          prologue :: l' = grow E (prologue :: l)) := by
  obtain ⟨l, hc⟩ := reachable_consistent hs
  have hshows : Shows s.heap (layout s.heap l) := ⟨l, hc.wellFormed, rfl⟩
  have hstep : Step s (.malloc size) ⟨h', (p, size) :: s.live⟩ := .malloc hpos hlt hcall hp
  obtain ⟨rfl, hshows'⟩ := malloc_answered hshows hpos (by omega) hcall
  obtain ⟨l₁, hc₁⟩ := consistent_step ⟨l, hc⟩ hstep
  obtain ⟨b, hb, -⟩ := hc₁.serves.block List.mem_cons_self
  obtain ⟨h'', hfree, l', hw', hL⟩ := free_refines hc₁.wellFormed hb
  rw [Shows.unique ⟨l₁, hc₁.wellFormed, rfl⟩ hshows', free_malloc hshows hpos (by omega) hp] at hL
  have hrover := congrArg Layout.rover hL.symm
  have hblocks := congrArg Layout.blocks hL.symm
  have hbrk := congrArg Layout.brk hL.symm
  rw [brk_layout hw'.toLaid] at hbrk
  refine ⟨l, l', h'', hfree, hc.wellFormed, hw', hrover, ?_⟩
  simp only [Layout.widened] at hblocks hbrk
  split at hblocks
  · next hx =>
    simp only [hx] at hbrk
    exact Or.inl ⟨hbrk.trans (brk_layout hc.wellFormed.toLaid), (List.cons.inj hblocks).2⟩
  · next hx =>
    simp only [hx] at hbrk
    split at hblocks
    · next hgrow =>
      rw [dif_pos hgrow] at hbrk
      refine Or.inr ⟨⟨_, false, hgrow.1.1, hgrow.1.2⟩, rfl, ?_, hblocks⟩
      rw [hbrk, ← brk_layout hc.wellFormed.toLaid]
      exact Layout.brk_extend (layout s.heap l) _
    · next hgrow =>
      rw [dif_neg hgrow] at hbrk
      exact Or.inl ⟨hbrk.trans (brk_layout hc.wellFormed.toLaid), (List.cons.inj hblocks).2⟩

theorem malloc_free_started : ∃ h' l l' h'', mmMalloc startedClient.heap 1 = some (h', 4112) ∧
    mmFree h' 4112 = some h'' ∧ WellFormed startedClient.heap l ∧ WellFormed h'' l' ∧
      h''.lastBp = 4112 ∧ (h''.memBrk = startedClient.heap.memBrk ∧ l' = l ∨
        ∃ E, E.alloc = false ∧ h''.memBrk = startedClient.heap.memBrk + E.size ∧
          prologue :: l' = grow E (prologue :: l)) := by
  have hcall := eq_some_getD (startedClient.heap, 0)
    (show (mmMalloc startedClient.heap 1).map Prod.snd = some 4112 by decide)
  obtain ⟨l, l', h'', hfree⟩ := malloc_free startedClient_reachable le_rfl (by norm_num) hcall
    (by decide)
  exact ⟨_, l, l', h'', hcall, hfree⟩

end Runs

end SystemSoftware.NextFitRefinement
