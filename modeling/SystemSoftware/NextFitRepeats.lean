import SystemSoftware.NextFitDriven
import SystemSoftware.NextFitRefinement

/-!
What main does with a trace: eval_mm_valid, then eval_mm_util and eval_mm_speed on the
memory that the loop before has left. The check overwrites every payload and the others
none, but the allocator without memory computes the same blocks for all three. So a trace
that is checked once runs to its end again, at the same addresses and in the same heap.
-/
namespace SystemSoftware.NextFitRepeats

open ByteMemory BoundaryTags NextFitHeap NextFitBlocks NextFitAllocate NextFitRuns NextFitLayout
open NextFitRefinement NextFitDriven EarlyExit TracePayloads TraceDemand TraceContract
open TraceDriver hiding null

/-- Two heaps that serve the same payloads out of the same blocks, in a heap that begins
with its first block at `start` and may grow up to `limit`. -/
def Twins (start limit : ℕ) (h g : Heap) (used : List (ℕ × ℕ)) : Prop :=
  Serving limit h used ∧ Serving limit g used ∧ ∃ L, Shows h L ∧ Shows g L ∧ L.start = start

section Twins

variable {h g h' : Heap} {used : List (ℕ × ℕ)} {start limit n p : ℕ} {L : Layout}

theorem malloc_start (L : Layout) (n : ℕ) : (L.malloc n).1.start = L.start := by
  rw [Layout.malloc]
  split
  · rfl
  split
  · rfl
  split <;> rfl

/-- A request that one heap answers is answered by the other with the same block. -/
theorem twins_malloc (ht : Twins start limit h g used) (hpos : 0 < n) (hn : n < 2 ^ 31)
    (hcall : mmMalloc h n = some (h', p)) :
    ∃ g', mmMalloc g n = some (g', p) ∧ (p ≠ null → Twins start limit h' g' ((p, n) :: used)) := by
  obtain ⟨hh, hg, L, hL, hL', hstart⟩ := ht
  have hover := (malloc_returns_iff hL hpos (by omega)).mp (by rw [hcall]; rfl)
  obtain ⟨rfl, hshows⟩ := malloc_answered hL hpos (by omega) hcall
  obtain ⟨g', hcall', hshows'⟩ := malloc_refines hL' hpos (by omega) hover
  refine ⟨g', hcall', fun hp => ⟨?_, ?_, _, hshows, hshows', (malloc_start L n).trans hstart⟩⟩
  · exact ((serving_malloc hh hpos hn hcall).resolve_left fun h => hp h.1).2
  · exact ((serving_malloc hg hpos hn hcall').resolve_left fun h => hp h.1).2

theorem shows_free (hs : Serving limit h used) (hL : Shows h L) (hp : (p, n) ∈ used) :
    ∃ h', mmFree h p = some h' ∧ Serving limit h' (used.filter (·.1 ≠ p)) ∧
      Shows h' (L.free p) := by
  obtain ⟨h', hcall, hs'⟩ := serving_free hs hp
  obtain ⟨-, l, hc⟩ := hs
  obtain ⟨b, hb, -⟩ := hc.serves.block hp
  obtain ⟨h₁, hcall', hshows⟩ := free_refines hc.wellFormed hb
  obtain rfl := Option.some.inj (hcall.symm.trans hcall')
  rw [Shows.unique ⟨l, hc.wellFormed, rfl⟩ hL] at hshows
  exact ⟨h', hcall, hs', hshows⟩

theorem twins_free (ht : Twins start limit h g used) (hp : (p, n) ∈ used) :
    ∃ h' g', mmFree h p = some h' ∧ mmFree g p = some g' ∧
      Twins start limit h' g' (used.filter (·.1 ≠ p)) := by
  obtain ⟨hh, hg, L, hL, hL', hstart⟩ := ht
  obtain ⟨h', hcall, hs, hshows⟩ := shows_free hh hL hp
  obtain ⟨g', hcall', hs', hshows'⟩ := shows_free hg hL' hp
  exact ⟨h', g', hcall, hcall', hs, hs', L.free p, hshows, hshows', hstart⟩

/-- A write of the driver into a payload of the first heap. -/
theorem twins_store {x : ℕ} (ht : Twins start limit h g used) (hp : (p, n) ∈ used) (hlo : p ≤ x)
    (hhi : x < p + n) (v : UInt8) :
    Twins start limit (package.store h x v) g used := by
  obtain ⟨hh, hg, L, hL, hL', hstart⟩ := ht
  obtain ⟨l, hc⟩ := hh.2
  exact ⟨((package_contract limit).store hh hp hlo hhi v).1, hg, L, shows_write hc hL hp hlo hhi,
    hL', hstart⟩

theorem twins_memset (ht : Twins start limit h g used) (hp : (p, n) ∈ used) (v : UInt8) :
    ∀ k ≤ n, Twins start limit (memset package h p v k) g used := by
  intro k
  induction k with
  | zero => exact fun _ => ht
  | succ k ih => exact fun hk => twins_store (ih (by omega)) hp (by omega) (by omega) v

theorem twins_init {r : Int} (hh : ReadyBelow limit h) (hg : ReadyBelow limit g)
    (hbase : g.memStartBrk = h.memStartBrk)
    (hcall : mmInit (package.memResetBrk h) = some (h', r)) (hr : 0 ≤ r) :
    ∃ g', mmInit (package.memResetBrk g) = some (g', r) ∧
      Twins (h.memStartBrk + 8) limit h' g' [] := by
  have hmax : g.memMaxAddr = h.memMaxAddr := hg.2.trans hh.2.symm
  have hwrap : ¬ InitWraps (package.memResetBrk h) := fun hwrap => by
    rw [mmInit_wraps (reset_fresh hh.1) hwrap] at hcall
    cases hcall
  have hwrap' : ¬ InitWraps (package.memResetBrk g) := by
    have hbrk : (package.memResetBrk g).memBrk = (package.memResetBrk h).memBrk := hbase
    have hend : (package.memResetBrk g).memMaxAddr = (package.memResetBrk h).memMaxAddr := hmax
    rwa [InitWraps, hbrk, hend]
  have h₁ := init_refines (reset_fresh hh.1) hwrap
  have h₂ := init_refines (reset_fresh hg.1) hwrap'
  have hsame : Layout.init (package.memResetBrk g).memBrk (package.memResetBrk g).memMaxAddr =
      Layout.init (package.memResetBrk h).memBrk (package.memResetBrk h).memMaxAddr :=
    congrArg₂ Layout.init hbase hmax
  rw [hsame] at h₂
  cases hL : Layout.init (package.memResetBrk h).memBrk (package.memResetBrk h).memMaxAddr with
  | none =>
    rw [hL] at h₁
    obtain ⟨h₀, heq⟩ := h₁
    obtain ⟨-, rfl⟩ := Prod.mk.inj (Option.some.inj (hcall.symm.trans heq))
    exact absurd hr (by norm_num)
  | some L =>
    rw [hL] at h₁ h₂
    obtain ⟨h₀, heq, hshows⟩ := h₁
    obtain ⟨rfl, rfl⟩ := Prod.mk.inj (Option.some.inj (hcall.symm.trans heq))
    obtain ⟨g', hcall', hshows'⟩ := h₂
    have hstart : L.start = h.memStartBrk + 8 := by
      rw [Layout.init] at hL
      split at hL
      · obtain rfl := Option.some.inj hL
        rfl
      · cases hL
    exact ⟨g', hcall', (serving_init hh hcall).resolve_left (by norm_num),
      (serving_init hg hcall').resolve_left (by norm_num), L, hshows, hshows', hstart⟩

end Twins

/-- The state `s` of eval_mm_valid, and the heap `g` and the pointers of a later loop after
the same requests. -/
structure Repeats (start limit : ℕ) (live : List ℕ) (s : Eval Heap) (g : Heap)
    (blocks : ℕ → ℕ) : Prop where
  kept : Kept package (fun m used => Twins start limit m g used) live s
  blocks : ∀ i ∈ live, blocks i = s.blocks i

section Loops

variable {start limit numIds opnum index size : ℕ} {live : List ℕ} {ops : List TraceOp}
  {op : TraceOp} {s₀ s s' t : Eval Heap} {g : Heap} {blocks : ℕ → ℕ} {u : Util Heap}

/-- A request for a block that has been checked gets the same block again. -/
theorem repeats_alloc (hR : Repeats start limit live s g blocks)
    (hop : plain numIds live (.alloc index size))
    (hstep : validOp package numIds opnum (.alloc index size) s = some (.ok s')) :
    ∃ g' p, mmMalloc g size = some (g', p) ∧ p ≠ null ∧
      Repeats start limit (index :: live) s' g' (Function.update blocks index p) := by
  obtain ⟨hid, hnew, hpos, hsize⟩ := hop
  simp only [validOp, Option.bind_eq_bind, Option.bind_eq_some_iff] at hstep
  obtain ⟨⟨h', p⟩, hcall, hstep⟩ := hstep
  obtain ⟨g', hcall', htwins⟩ := twins_malloc hR.kept.held hpos hsize hcall
  split at hstep
  · cases hstep
  next hp =>
  split at hstep
  · cases hstep
  rw [if_neg (by omega)] at hstep
  obtain rfl := Except.ok.inj (Option.some.inj hstep)
  have hset := twins_memset (htwins hp) List.mem_cons_self (UInt8.ofNat (lowByte index)) size le_rfl
  have hkept := hR.kept.place (I := fun m used => Twins start limit m g' used) hnew hpos hset
  refine ⟨g', p, hcall', hp, hkept _, ?_⟩
  rintro i (_ | ⟨_, hi⟩)
  · simp
  · have hne : i ≠ index := fun h => hnew (h ▸ hi)
    simpa only [Function.update_of_ne hne] using hR.blocks i hi

theorem repeats_free (hR : Repeats start limit live s g blocks)
    (hop : plain numIds live (.free index))
    (hstep : validOp package numIds opnum (.free index) s = some (.ok s')) :
    ∃ g', mmFree g (blocks index) = some g' ∧
      Repeats start limit (live.erase index) s' g' blocks := by
  obtain ⟨hid, hin⟩ := hop
  obtain ⟨h', g', hcall, hcall', htwins⟩ :=
    twins_free hR.kept.held (List.mem_map_of_mem (f := payload s) hin)
  have hcalled : package.mmFree s.mm (s.blocks index) = some h' := hcall
  simp only [validOp, if_neg (show ¬ numIds ≤ index by omega), hcalled, Option.bind_eq_bind,
    Option.bind_some] at hstep
  obtain rfl := Except.ok.inj (Option.some.inj hstep)
  have hserved : Kept package (Serving limit) live s := ⟨hR.kept.nodup, hR.kept.held.1, hR.kept.sized⟩
  have hkept := hR.kept.remove (I := fun m used => Twins start limit m g' used)
    (hserved.starts (package_contract limit) hin) htwins
  rw [hR.blocks index hin]
  exact ⟨g', hcall', hkept _, fun i hi => hR.blocks i (List.mem_of_mem_erase hi)⟩

theorem utilOp_repeats (hR : Repeats start limit live s u.mm u.blocks)
    (hop : plain numIds live op) (hstep : validOp package numIds opnum op s = some (.ok s')) :
    ∃ u', utilOp package numIds opnum op u = some (.ok u') ∧
      Repeats start limit (liveNext live op) s' u'.mm u'.blocks := by
  cases op with
  | realloc index size => exact hop.elim
  | alloc index size =>
    obtain ⟨g', p, hcall, hp, hR'⟩ := repeats_alloc hR hop hstep
    have hcalled : package.mmMalloc u.mm size = some (g', p) := hcall
    simp only [utilOp, hcalled, Option.bind_eq_bind, Option.bind_some, if_neg hp,
      if_neg (show ¬ numIds ≤ index by have := hop.1; omega)]
    exact ⟨_, rfl, hR'⟩
  | free index =>
    obtain ⟨g', hcall, hR'⟩ := repeats_free hR hop hstep
    have hcalled : package.mmFree u.mm (u.blocks index) = some g' := hcall
    simp only [utilOp, hcalled, Option.bind_eq_bind, Option.bind_some,
      if_neg (show ¬ numIds ≤ index by have := hop.1; omega)]
    exact ⟨_, rfl, hR'⟩

theorem speedOp_repeats (hR : Repeats start limit live s t.mm t.blocks)
    (hop : plain numIds live op) (hstep : validOp package numIds opnum op s = some (.ok s')) :
    ∃ t', speedOp package numIds opnum op t = some (.ok t') ∧
      Repeats start limit (liveNext live op) s' t'.mm t'.blocks := by
  cases op with
  | realloc index size => exact hop.elim
  | alloc index size =>
    obtain ⟨g', p, hcall, hp, hR'⟩ := repeats_alloc hR hop hstep
    have hcalled : package.mmMalloc t.mm size = some (g', p) := hcall
    simp only [speedOp, hcalled, Option.bind_eq_bind, Option.bind_some, if_neg hp,
      if_neg (show ¬ numIds ≤ index by have := hop.1; omega)]
    exact ⟨_, rfl, hR'⟩
  | free index =>
    obtain ⟨g', hcall, hR'⟩ := repeats_free hR hop hstep
    have hcalled : package.mmFree t.mm (t.blocks index) = some g' := hcall
    simp only [speedOp, hcalled, Option.bind_eq_bind, Option.bind_some,
      if_neg (show ¬ numIds ≤ index by have := hop.1; omega)]
    exact ⟨_, rfl, hR'⟩

/-- Heaps that show the same layout have the same size. -/
theorem Repeats.heapsize (hR : Repeats start limit live s g blocks) :
    package.memHeapsize g = package.memHeapsize s.mm := by
  obtain ⟨-, -, L, hL, hL', -⟩ := hR.kept.held
  obtain ⟨l, hw, rfl⟩ := hL
  obtain ⟨l', hw', heq⟩ := hL'
  have hbrk := (brk_layout hw'.toLaid).symm.trans (heq ▸ brk_layout hw.toLaid)
  have hstart : s.mm.startBp = g.startBp := congrArg Layout.start heq
  have h₁ := hw.start_eq
  have h₂ := hw'.start_eq
  simp only [package]
  omega

/-- Both heaps are those of the memory system that began at `start - 8`. -/
theorem Repeats.area (hR : Repeats start limit live s g blocks) :
    (ReadyBelow limit s.mm ∧ s.mm.memStartBrk + 8 = start) ∧
      ReadyBelow limit g ∧ g.memStartBrk + 8 = start := by
  obtain ⟨hh, hg, L, hL, hL', hstart⟩ := hR.kept.held
  have hbase : ∀ {m : Heap}, Shows m L → m.memStartBrk + 8 = start := by
    rintro m ⟨l, hw, rfl⟩
    exact hw.start_eq.symm.trans hstart
  exact ⟨⟨hh.1, hbase hL⟩, hg.1, hbase hL'⟩

/-- The calls of `mm_init` in front of two loops. -/
theorem repeats_init (blocks : ℕ → ℕ) (hr : ReadyBelow limit s.mm) (hg : ReadyBelow limit g)
    (hbase : g.memStartBrk = s.mm.memStartBrk)
    (hvalid : evalMmValid package numIds ops s = some (.ok t)) :
    ∃ m g' r, 0 ≤ r ∧ mmInit (package.memResetBrk g) = some (g', r) ∧
      runFrom (validOp package numIds) 0 ops { s with mm := m, ranges := [] } = some (.ok t) ∧
      Repeats (s.mm.memStartBrk + 8) limit [] { s with mm := m, ranges := [] } g' blocks := by
  obtain ⟨m, r, hinit, hnonneg, hrun⟩ := evalMmValid_ok.mp hvalid
  obtain ⟨g', hcall', htwins⟩ := twins_init hr hg hbase hinit hnonneg
  have hkept : Kept package (fun m used => Twins (s.mm.memStartBrk + 8) limit m g' used) []
      { s with mm := m, ranges := [] } := ⟨List.nodup_nil, htwins, by simp⟩
  exact ⟨m, g', r, hnonneg, hcall', hrun, hkept, by simp⟩

theorem util_repeats (hr : ReadyBelow limit s₀.mm) (hg : ReadyBelow limit s'.mm)
    (hbase : s'.mm.memStartBrk = s₀.mm.memStartBrk) (hops : Plain numIds ops)
    (hvalid : evalMmValid package numIds ops s₀ = some (.ok t)) :
    ∃ u, evalMmUtil package numIds ops s' = some (.ok u) ∧
      Repeats (s₀.mm.memStartBrk + 8) limit (liveIds ops) t u.mm u.blocks := by
  obtain ⟨m, g', r, hr0, hinit, hrun, hR⟩ := repeats_init s'.blocks hr hg hbase hvalid
  have hcalled : package.mmInit (package.memResetBrk s'.mm) = some (g', r) := hinit
  simp only [evalMmUtil, hcalled, Option.bind_eq_bind, Option.bind_some, if_neg (not_lt.mpr hr0)]
  refine runFrom_related (R := fun live s (u : Util Heap) =>
    Repeats (s₀.mm.memStartBrk + 8) limit live s u.mm u.blocks) ?_ ops hops hR hrun
  exact fun live i op s u s' hR hop hstep => utilOp_repeats hR hop hstep

theorem speed_repeats (hr : ReadyBelow limit s₀.mm) (hg : ReadyBelow limit s'.mm)
    (hbase : s'.mm.memStartBrk = s₀.mm.memStartBrk) (hops : Plain numIds ops)
    (hvalid : evalMmValid package numIds ops s₀ = some (.ok t)) :
    ∃ v, evalMmSpeed package numIds ops s' = some (.ok v) ∧
      Repeats (s₀.mm.memStartBrk + 8) limit (liveIds ops) t v.mm v.blocks := by
  obtain ⟨m, g', r, hr0, hinit, hrun, hR⟩ := repeats_init s'.blocks hr hg hbase hvalid
  have hcalled : package.mmInit (package.memResetBrk s'.mm) = some (g', r) := hinit
  simp only [evalMmSpeed, hcalled, Option.bind_eq_bind, Option.bind_some, if_neg (not_lt.mpr hr0)]
  refine runFrom_related (R := fun live s (v : Eval Heap) =>
    Repeats (s₀.mm.memStartBrk + 8) limit live s v.mm v.blocks) ?_ ops hops hR hrun
  exact fun live i op s v s' hR hop hstep => speedOp_repeats hR hop hstep

/-- A trace without reallocations that eval_mm_valid accepts, run for its utilization and
then for its speed on the memory that is left: both loops reach their end, each block in use
is at its address of the check, and the heap has grown to the same size. -/
theorem next_fit_repeats (hr : Ready s.mm) (hops : Plain numIds ops)
    (hvalid : evalMmValid package numIds ops s = some (.ok t)) :
    ∃ u v, evalMmUtil package numIds ops t = some (.ok u) ∧
      evalMmSpeed package numIds ops u.toEval = some (.ok v) ∧
      (∀ i ∈ liveIds ops, u.blocks i = t.blocks i ∧ v.blocks i = t.blocks i) ∧
      package.memHeapsize u.mm = package.memHeapsize t.mm ∧
      package.memHeapsize v.mm = package.memHeapsize t.mm := by
  have hbelow : ReadyBelow s.mm.memMaxAddr s.mm := ⟨hr, rfl⟩
  obtain ⟨_, -, hagain⟩ := util_repeats hbelow hbelow rfl hops hvalid
  obtain ⟨⟨ht, hbase⟩, -⟩ := hagain.area
  obtain ⟨u, hu, hR⟩ := util_repeats hbelow ht (by omega) hops hvalid
  obtain ⟨-, hu', hbase'⟩ := hR.area
  have hready : ReadyBelow s.mm.memMaxAddr u.toEval.mm := hu'
  obtain ⟨v, hv, hR'⟩ := speed_repeats hbelow hready (by omega) hops hvalid
  exact ⟨u, v, hu, hv, fun i hi => ⟨hR.blocks i hi, hR'.blocks i hi⟩, hR.heapsize, hR'.heapsize⟩

end Loops

theorem next_fit_repeats_short : ∃ (t : Eval Heap) (u : Util Heap) (v : Eval Heap),
    evalMmValid package 2 shortTrace freshEval = some (.ok t) ∧
      evalMmUtil package 2 shortTrace t = some (.ok u) ∧
      evalMmSpeed package 2 shortTrace u.toEval = some (.ok v) ∧
      package.memHeapsize u.mm = package.memHeapsize t.mm := by
  obtain ⟨t, ht⟩ := exists_of_passed
    (show passed (evalMmValid package 2 shortTrace freshEval) = true by decide)
  obtain ⟨u, v, hu, hv, -, hsize, -⟩ := next_fit_repeats ready_freshHeap (by decide) ht
  exact ⟨t, u, v, ht, hu, hv, hsize⟩

end SystemSoftware.NextFitRepeats
