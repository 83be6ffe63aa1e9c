import SystemSoftware.NextFitAllocate
import SystemSoftware.Transitions
import Mathlib.Data.List.Nodup

/-!
Runs of the next-fit allocator under a client. A run starts with a successful
`mm_init`; the client allocates, frees what it holds and writes inside what it
asked for, and the system may at any time bound the heap differently, so that
`mem_sbrk` may refuse at any call. Every reachable heap is well formed and its
allocated blocks are the live pointers.
-/
namespace SystemSoftware.NextFitRuns

open ByteMemory BoundaryTags NextFitHeap NextFitBlocks NextFitSearch NextFitAllocate Transitions

structure Client where
  heap : Heap
  live : List (ℕ × ℕ)

inductive Call
  | malloc (size : ℕ)
  | free (ptr : ℕ)
  | write (addr : ℕ) (byte : UInt8)
  | limit (maxAddr : ℕ)

inductive Step : Client → Call → Client → Prop
  | malloc {h h' : Heap} {live : List (ℕ × ℕ)} {size p : ℕ} (hpos : 1 ≤ size)
      (hlt : size < 2 ^ 31) (hcall : mmMalloc h size = some (h', p)) (hp : p ≠ null) :
      Step ⟨h, live⟩ (.malloc size) ⟨h', (p, size) :: live⟩
  | refused {h h' : Heap} {live : List (ℕ × ℕ)} {size : ℕ} (hpos : 1 ≤ size)
      (hlt : size < 2 ^ 31) (hcall : mmMalloc h size = some (h', null)) :
      Step ⟨h, live⟩ (.malloc size) ⟨h', live⟩
  | free {h h' : Heap} {live : List (ℕ × ℕ)} {p n : ℕ} (hp : (p, n) ∈ live)
      (hcall : mmFree h p = some h') :
      Step ⟨h, live⟩ (.free p) ⟨h', live.filter (fun x => x.1 ≠ p)⟩
  | write {h : Heap} {live : List (ℕ × ℕ)} {p n x : ℕ} {v : UInt8} (hp : (p, n) ∈ live)
      (hlo : p ≤ x) (hhi : x < p + n) :
      Step ⟨h, live⟩ (.write x v) ⟨{ h with mem := putByte h.mem x v }, live⟩
  | limit {h : Heap} {live : List (ℕ × ℕ)} {x : ℕ} (hlo : h.memBrk ≤ x) (hlt : x < 2 ^ 32) :
      Step ⟨h, live⟩ (.limit x) ⟨{ h with memMaxAddr := x }, live⟩

def Started (s : Client) : Prop :=
  s.live = [] ∧ ∃ h, Fresh h ∧ mmInit h = some (s.heap, 0)

def runs : System Client Call := ⟨Started, Step⟩

/-- The allocated blocks are the live pointers, and each has room for its request. -/
structure Serves (h : Heap) (l : List Block) (live : List (ℕ × ℕ)) : Prop where
  blocks : ∀ p, p ∈ live.map Prod.fst ↔ p ∈ (clientBlocks h l).map Prod.fst
  nodup : (live.map Prod.fst).Nodup
  room : ∀ p n b, (p, n) ∈ live → (p, b) ∈ clientBlocks h l → n + 8 ≤ b.size

theorem Serves.block {h : Heap} {l : List Block} {live : List (ℕ × ℕ)} (hs : Serves h l live)
    {p n : ℕ} (hp : (p, n) ∈ live) : ∃ b, (p, b) ∈ clientBlocks h l ∧ n + 8 ≤ b.size := by
  have hmem := (hs.blocks p).mp (List.mem_map_of_mem hp)
  rw [List.mem_map] at hmem
  obtain ⟨⟨q, b⟩, hb, rfl⟩ := hmem
  exact ⟨b, hb, hs.room _ n b hp hb⟩

structure Consistent (h : Heap) (live : List (ℕ × ℕ)) (l : List Block) : Prop where
  wellFormed : WellFormed h l
  serves : Serves h l live
  nonempty : l ≠ []

section Steps

variable {h h' : Heap} {live : List (ℕ × ℕ)} {l l' : List Block} {p n : ℕ} {b : Block}

theorem consistent_malloc {size : ℕ} (hc : Consistent h live l) (ha : Allocated h l h' l' p b)
    (hroom : size + 8 ≤ b.size) : Consistent h' ((p, size) :: live) l' := by
  have hfresh : p ∉ live.map Prod.fst := fun hp => ha.fresh ((hc.serves.blocks p).mp hp)
  refine ⟨ha.wellFormed, ⟨?_, ?_, ?_⟩, ?_⟩
  · intro q
    have hq := hc.serves.blocks q
    simp only [List.mem_map, Prod.exists, exists_and_right, exists_eq_right] at hq
    simp only [List.mem_map, Prod.exists, exists_and_right, exists_eq_right, ha.mem_iff,
      List.mem_cons, Prod.mk.injEq, exists_or, hq]
  · rw [List.map_cons, List.nodup_cons]
    exact ⟨hfresh, hc.serves.nodup⟩
  · intro q m c hq hqc
    rw [List.mem_cons] at hq
    rcases hq with hq | hq <;> rcases ha.mem_iff.mp hqc with hqc | hqc
    · obtain ⟨rfl, rfl⟩ := Prod.mk.inj hq
      obtain rfl := (Prod.mk.inj hqc).2
      exact hroom
    · obtain ⟨rfl, rfl⟩ := Prod.mk.inj hq
      exact absurd (List.mem_map.mpr ⟨_, hqc, rfl⟩) ha.fresh
    · obtain rfl := (Prod.mk.inj hqc).1
      exact absurd (List.mem_map_of_mem (f := Prod.fst) hq) hfresh
    · exact hc.serves.room q m c hq hqc
  · rintro rfl
    have hin := ha.mem_iff.mpr (Or.inl rfl)
    simp [clientBlocks] at hin

theorem consistent_free (hc : Consistent h live l) (hf : Freed h l h' l' p b) :
    Consistent h' (live.filter (fun x => x.1 ≠ p)) l' := by
  refine ⟨hf.wellFormed, ⟨?_, ?_, ?_⟩, ?_⟩
  · intro q
    have hq := hc.serves.blocks q
    simp only [List.mem_map, Prod.exists, exists_and_right, exists_eq_right] at hq
    simp only [List.mem_map, Prod.exists, exists_and_right, exists_eq_right, hf.mem_iff,
      List.mem_filter, decide_eq_true_eq, exists_and_left, hq]
    tauto
  · exact hc.serves.nodup.sublist (List.filter_sublist.map _)
  · intro q m c hq hqc
    exact hc.serves.room q m c (List.mem_of_mem_filter hq) (hf.mem_iff.mp hqc).2
  · rintro rfl
    obtain ⟨q, c, hq, -⟩ := hf.inside
    simp at hq

theorem consistent_write {x : ℕ} {v : UInt8} (hc : Consistent h live l) (hp : (p, n) ∈ live)
    (hlo : p ≤ x) (hhi : x < p + n) :
    Consistent { h with mem := putByte h.mem x v } live l := by
  obtain ⟨b, hb, hroom⟩ := hc.serves.block hp
  have hbyte : SameOutside h.mem (putByte h.mem x v) p (p + b.size - 8) :=
    fun y hy => if_neg (by omega)
  have hlaid : Laid { h with mem := putByte h.mem x v } l :=
    hc.wellFormed.toLaid.payload (mem_liveBlocks.mp hb).1 hbyte
  exact ⟨⟨hlaid, hc.wellFormed.coalesced, hc.wellFormed.rover⟩,
    ⟨hc.serves.blocks, hc.serves.nodup, hc.serves.room⟩, hc.nonempty⟩

theorem consistent_limit {x : ℕ} (hc : Consistent h live l) (hlo : h.memBrk ≤ x)
    (hlt : x < 2 ^ 32) : Consistent { h with memMaxAddr := x } live l := by
  have hlaid : Laid { h with memMaxAddr := x } l := {
    hc.wellFormed.toLaid with
    brk_le := hlo
    max_lt := hlt }
  exact ⟨⟨hlaid, hc.wellFormed.coalesced, hc.wellFormed.rover⟩,
    ⟨hc.serves.blocks, hc.serves.nodup, hc.serves.room⟩, hc.nonempty⟩

end Steps

theorem consistent_step {s s' : Client} {c : Call} (hs : ∃ l, Consistent s.heap s.live l)
    (hstep : Step s c s') : ∃ l, Consistent s'.heap s'.live l := by
  obtain ⟨l, hc⟩ := hs
  cases hstep with
  | malloc hpos hlt hcall hp =>
    rcases mmMalloc_spec hc.wellFormed hpos (by omega) (not_overruns hc.wellFormed hpos hcall) with
      ⟨-, hno⟩ | ⟨h', l', q, M, heq, -, ha, -, hroom⟩
    · rw [hno, Option.some.injEq, Prod.mk.injEq] at hcall
      exact absurd hcall.2.symm hp
    · rw [heq, Option.some.injEq, Prod.mk.injEq] at hcall
      obtain ⟨rfl, rfl⟩ := hcall
      exact ⟨l', consistent_malloc hc ha hroom⟩
  | refused hpos hlt hcall =>
    rcases mmMalloc_spec hc.wellFormed hpos (by omega) (not_overruns hc.wellFormed hpos hcall) with
      ⟨-, hno⟩ | ⟨h', l', q, M, heq, hq, -⟩
    · rw [hno, Option.some.injEq, Prod.mk.injEq] at hcall
      obtain ⟨rfl, -⟩ := hcall
      exact ⟨l, hc⟩
    · rw [heq, Option.some.injEq, Prod.mk.injEq] at hcall
      exact absurd hcall.2 hq
  | free hp hcall =>
    obtain ⟨b, hb, -⟩ := hc.serves.block hp
    obtain ⟨h', l', heq, hf⟩ := mmFree_spec hc.wellFormed.toLaid hc.wellFormed.coalesced hb
    rw [heq, Option.some.injEq] at hcall
    obtain rfl := hcall
    exact ⟨l', consistent_free hc hf⟩
  | write hp hlo hhi => exact ⟨l, consistent_write hc hp hlo hhi⟩
  | limit hlo hlt => exact ⟨l, consistent_limit hc hlo hlt⟩

theorem consistent_started {s : Client} (hs : Started s) :
    ∃ l, Consistent s.heap s.live l := by
  obtain ⟨hlive, h, hf, hinit⟩ := hs
  have hno : ¬ InitWraps h := fun hwrap => by
    rw [mmInit_wraps hf hwrap] at hinit
    cases hinit
  rcases mmInit_spec hf hno with ⟨h', heq⟩ | ⟨h', M, heq, hw, hM, -⟩
  · rw [heq, Option.some.injEq, Prod.mk.injEq] at hinit
    exact absurd hinit.2 (by norm_num)
  · rw [heq, Option.some.injEq, Prod.mk.injEq] at hinit
    obtain ⟨rfl, -⟩ := hinit
    have hnone : clientBlocks s.heap [M] = [] := liveBlocks_cons_free hM
    rw [hlive]
    exact ⟨[M], hw, ⟨by simp [hnone], by simp, by simp⟩, by simp⟩

/-- Every reachable heap is well formed and serves its client. -/
theorem reachable_consistent {s : Client} (hs : runs.Reachable s) :
    ∃ l, Consistent s.heap s.live l :=
  hs.invariant (fun _ => consistent_started) (fun _ _ _ => consistent_step)

/-- The blocks visited by `NEXT_BLOCK_BP` from `bp` on, up to the first of size 0. -/
def walk (h : Heap) : ℕ → ℕ → Option (List ℕ)
  | 0, _ => none
  | fuel + 1, bp => do
    let size ← getSize h (headerP bp)
    if size = 0 then some [bp]
    else do
      let bps ← walk h fuel (← nextBlockBp h bp)
      some (bp :: bps)

/-- What a heap checker finds on a sound heap whose blocks start at `bps`, read
through the macros of mm.c alone. -/
structure Checked (h : Heap) (bps : List ℕ) : Prop where
  walk : walk h walkFuel h.startBp = some (bps ++ [h.memBrk])
  epilogue : headerP h.memBrk + 4 = h.memBrk ∧ h.get (headerP h.memBrk) = some (pack 0 1)
  tags : ∀ bp ∈ bps, ∃ s f w, getSize h (headerP bp) = some s ∧ footerP h bp = some f ∧
    h.get (headerP bp) = some w ∧ h.get f = some w ∧ 8 ∣ s ∧ (bp ≠ h.startBp → 16 ≤ s)
  neighbours : bps.IsChain
    (fun p q => isItAlloc h (headerP p) = some 1 ∨ isItAlloc h (headerP q) = some 1)
  rover : h.lastBp ∈ bps

section Walk

variable {h : Heap} {l : List Block}

theorem walk_eq (hl : Laid h l) (l₂ : List Block) :
    ∀ (l₁ : List Block) (a fuel : ℕ), Cut h l a l₁ l₂ → l₂.length < fuel →
      walk h fuel a = some ((placed a l₂).map Prod.fst ++ [h.memBrk]) := by
  induction l₂ with
  | nil =>
    intro l₁ a fuel hc hfuel
    obtain ⟨fuel, rfl⟩ := Nat.exists_eq_succ_of_ne_zero (Nat.ne_of_gt hfuel)
    have hbrk := (hl.bounds hc).2.1
    rw [span_nil, Nat.add_zero] at hbrk
    simp only [walk, hl.getSize_epilogue hc, Option.bind_eq_bind, Option.bind_some, if_true,
      placed_nil, List.map_nil, List.nil_append]
    rw [hbrk]
  | cons b r ih =>
    intro l₁ a fuel hc hfuel
    obtain ⟨fuel, rfl⟩ := Nat.exists_eq_succ_of_ne_zero (show fuel ≠ 0 by omega)
    have hrec := ih _ _ fuel hc.next (by simp only [List.length_cons] at hfuel; omega)
    have hpos := b.size_pos
    simp only [walk, hl.getSize_header hc, hl.nextBlockBp_eq hc, hrec, Option.bind_eq_bind,
      Option.bind_some, if_neg (show ¬ b.size = 0 by omega), placed_cons, List.map_cons,
      List.cons_append]

theorem neighbours_of_coalesced (hl : Laid h l) (l₂ : List Block) :
    ∀ (l₁ : List Block) (a : ℕ), Cut h l a l₁ l₂ → Coalesced l₂ →
      ((placed a l₂).map Prod.fst).IsChain
        (fun p q => isItAlloc h (headerP p) = some 1 ∨ isItAlloc h (headerP q) = some 1) := by
  induction l₂ with
  | nil => exact fun _ _ _ _ => .nil
  | cons b r ih =>
    intro l₁ a hc hco
    have hrec := ih _ _ hc.next hco.tail
    cases r with
    | nil => exact .singleton _
    | cons n r =>
      refine .cons_cons ?_ hrec
      rw [hl.isItAlloc_header hc, hl.isItAlloc_header hc.next]
      rcases (List.isChain_cons_cons.mp hco).1 with hb | hn
      · exact Or.inl (by rw [hb]; rfl)
      · exact Or.inr (by rw [hn]; rfl)

theorem checked_of_wellFormed (hw : WellFormed h l) :
    Checked h ((placed h.startBp (prologue :: l)).map Prod.fst) where
  walk := by
    have hc := Cut.start h l
    exact walk_eq hw.toLaid _ [] _ _ hc (length_lt_walkFuel hw.toLaid hc.split).2
  epilogue := by
    have hc : Cut h l h.memBrk (prologue :: l) [] := ⟨by simp, hw.brk_eq⟩
    obtain ⟨hlo, hbrk, hlt⟩ := hw.bounds hc
    refine ⟨?_, hw.get_boundary hc⟩
    rw [headerP_eq (by omega) hlt]
    omega
  tags := by
    intro bp hbp
    obtain ⟨⟨p, b⟩, hmem, rfl⟩ := List.mem_map.mp hbp
    obtain ⟨k, r, hc⟩ := Cut.of_placed hmem
    refine ⟨b.size, p + b.size - 8, b.tag, hw.getSize_header hc, hw.footerP_cut hc,
      hw.get_boundary hc, hw.get_footer hc, b.size_dvd, ?_⟩
    intro hne
    rw [placed_cons, List.mem_cons] at hmem
    rcases hmem with heq | hmem
    · exact absurd (Prod.mk.inj heq).1 hne
    · obtain ⟨l₁, l₂, rfl, -⟩ := mem_placed.mp hmem
      exact hw.sixteen_le b (by simp)
  neighbours := neighbours_of_coalesced hw.toLaid _ [] _ (Cut.start h l) hw.coalesced
  rover := by
    obtain ⟨b, hb⟩ := hw.rover
    exact List.mem_map.mpr ⟨_, hb, rfl⟩

/-- The client's blocks are the allocated ones behind the prologue. -/
theorem mem_clientBlocks_iff (hl : Laid h l) (p : ℕ) :
    p ∈ (clientBlocks h l).map Prod.fst ↔
      p ∈ (placed h.startBp (prologue :: l)).map Prod.fst ∧ p ≠ h.startBp ∧
        isItAlloc h (headerP p) = some 1 := by
  constructor
  · intro hp
    obtain ⟨⟨q, b⟩, hb, rfl⟩ := List.mem_map.mp hp
    obtain ⟨hmem, halloc⟩ := mem_liveBlocks.mp hb
    have hlo := (placed_bounds hmem).1
    have hmem' : (q, b) ∈ placed h.startBp (prologue :: l) := List.mem_cons_of_mem _ hmem
    obtain ⟨k, r, hc⟩ := Cut.of_placed hmem'
    refine ⟨List.mem_map.mpr ⟨_, hmem', rfl⟩, by simp only; omega, ?_⟩
    rw [hl.isItAlloc_header hc, halloc]
    rfl
  · rintro ⟨hp, hne, halloc⟩
    obtain ⟨⟨q, b⟩, hb, rfl⟩ := List.mem_map.mp hp
    obtain ⟨k, r, hc⟩ := Cut.of_placed hb
    rw [hl.isItAlloc_header hc] at halloc
    rw [placed_cons, List.mem_cons] at hb
    rcases hb with heq | hb
    · exact absurd (Prod.mk.inj heq).1 hne
    · refine List.mem_map.mpr ⟨_, mem_liveBlocks.mpr ⟨hb, ?_⟩, rfl⟩
      cases hba : b.alloc with
      | true => rfl
      | false => simp [hba] at halloc

/-- With no block allocated, neighbours would merge: there is one block. -/
theorem single_free (hw : WellFormed h l) (hne : l ≠ []) (hnone : clientBlocks h l = []) :
    ∃ b, l = [b] ∧ b.alloc = false := by
  have hfree : ∀ b ∈ l, b.alloc = false := by
    intro b hb
    obtain ⟨k, r, rfl⟩ := List.append_of_mem hb
    have hmem : (h.startBp + 8 + span k, b) ∈ placed (h.startBp + 8) (k ++ b :: r) :=
      mem_placed.mpr ⟨k, r, rfl, rfl⟩
    cases hba : b.alloc with
    | false => rfl
    | true =>
      have hlive := mem_liveBlocks.mpr ⟨hmem, hba⟩
      rw [clientBlocks] at hnone
      rw [hnone] at hlive
      simp at hlive
  obtain ⟨b, r, rfl⟩ := List.exists_cons_of_ne_nil hne
  cases r with
  | nil => exact ⟨b, rfl, hfree b (by simp)⟩
  | cons c r =>
    have hb := hfree b (by simp)
    have hc := hfree c (by simp)
    have hco := (List.isChain_cons_cons.mp hw.coalesced.tail).1
    simp [hb, hc] at hco

end Walk

def ExtendsOrFails (h : Heap) (n : ℕ) : Prop :=
  memSbrk h n = (h, minusOne) ∨ memSbrk h n = ({ h with memBrk := h.memBrk + n }, h.memBrk)

theorem ExtendsOrFails.not_wraps {h : Heap} {l : List Block} {n : ℕ} (hl : Laid h l)
    (hs : ExtendsOrFails h n) : ¬ Wraps h n := by
  intro hwrap
  have hno := not_refuses_of_wraps hl.brk_le hl.max_lt hwrap
  have hover := hwrap.2
  have hdvd := brk_dvd hl
  have hlt : add32 h.memBrk n < 2 ^ 32 := Nat.mod_lt _ (by norm_num)
  rw [Refuses] at hno
  rw [ExtendsOrFails, memSbrk, if_neg hno] at hs
  rcases hs with hs | hs
  · have hbrk : h.memBrk = minusOne := (Prod.mk.inj hs).2
    simp only [minusOne] at hbrk
    omega
  · have hbrk : add32 h.memBrk n = h.memBrk + n := congrArg Heap.memBrk (Prod.mk.inj hs).1
    omega

theorem ExtendsOrFails.of_room {h : Heap} {n : ℕ} (hn : n < 2 ^ 31)
    (hroom : h.memBrk + n ≤ h.memMaxAddr) (hmax : h.memMaxAddr < 2 ^ 32) : ExtendsOrFails h n := by
  refine Or.inr ?_
  rw [memSbrk, add32_eq (hroom.trans_lt hmax)]
  exact if_neg (by omega)

/-- In every state of a run the heap passes its checker, the allocated blocks
are the live pointers, every call returns for which `mem_sbrk` extends the heap or fails,
and without live pointers all memory is one free block. -/
theorem heap_invariant {s : Client} (hs : runs.Reachable s) :
    (∃ bps, Checked s.heap bps ∧
      (∀ p, p ∈ s.live.map Prod.fst ↔
        p ∈ bps ∧ p ≠ s.heap.startBp ∧ isItAlloc s.heap (headerP p) = some 1) ∧
      (s.live = [] → ∃ bp, bps = [s.heap.startBp, bp] ∧
        isItAlloc s.heap (headerP bp) = some 0)) ∧
    (∀ size, 1 ≤ size → size < 2 ^ 31 →
      ExtendsOrFails s.heap (max (adjustedSize size) chunckSize) →
        (mmMalloc s.heap size).isSome) ∧
    (∀ p ∈ s.live.map Prod.fst, (mmFree s.heap p).isSome) := by
  obtain ⟨l, hc⟩ := reachable_consistent hs
  have hw := hc.wellFormed
  refine ⟨⟨_, checked_of_wellFormed hw, ?_, ?_⟩, ?_, ?_⟩
  · intro p
    rw [hc.serves.blocks, mem_clientBlocks_iff hw.toLaid]
  · intro hlive
    have hnone : clientBlocks s.heap l = [] := by
      rw [List.eq_nil_iff_forall_not_mem]
      rintro ⟨p, b⟩ hp
      have hmem := (hc.serves.blocks p).mpr (List.mem_map.mpr ⟨_, hp, rfl⟩)
      simp [hlive] at hmem
    obtain ⟨b, rfl, hb⟩ := single_free hw hc.nonempty hnone
    refine ⟨s.heap.startBp + 8, rfl, ?_⟩
    have hc₁ : Cut s.heap [b] (s.heap.startBp + 8) [prologue] [b] := (Cut.start s.heap [b]).next
    rw [hw.isItAlloc_header hc₁, hb]
    rfl
  · intro size hpos hlt hsbrk
    rcases mmMalloc_spec hw hpos (by omega) fun hover => hsbrk.not_wraps hw.toLaid hover.2 with
      ⟨-, heq⟩ | ⟨h', l', q, M, heq, -⟩ <;> simp [heq]
  · intro p hp
    obtain ⟨⟨q, n⟩, hmem, rfl⟩ := List.mem_map.mp hp
    obtain ⟨b, hb, -⟩ := hc.serves.block hmem
    obtain ⟨h', l', heq, -⟩ := mmFree_spec hw.toLaid hw.coalesced hb
    simp [heq]

def freshHeap : Heap := ⟨fun _ => 0, 4096, 4096, 4096 + 2 ^ 20, 0, 0⟩

def startedClient : Client := ⟨((mmInit freshHeap).getD (freshHeap, 0)).1, []⟩

theorem fresh_freshHeap : Fresh freshHeap := by
  constructor <;> decide

/-- A result is known from its second part when the first is read back from it. -/
theorem eq_some_getD {α β : Type} {r : Option (α × β)} (d : α × β) {c : β}
    (hc : r.map Prod.snd = some c) : r = some ((r.getD d).1, c) := by
  cases r with
  | none => simp at hc
  | some x =>
    obtain ⟨a, b⟩ := x
    obtain rfl : b = c := Option.some.inj hc
    rfl

theorem startedClient_reachable : runs.Reachable startedClient :=
  .initial ⟨rfl, freshHeap, fresh_freshHeap, eq_some_getD (freshHeap, 0) (by decide)⟩

def Client.malloc (s : Client) (size : ℕ) : Client :=
  match mmMalloc s.heap size with
  | some (h, p) => if p = null then ⟨h, s.live⟩ else ⟨h, (p, size) :: s.live⟩
  | none => s

def Client.free (s : Client) (p : ℕ) : Client :=
  match mmFree s.heap p with
  | some h => ⟨h, s.live.filter (fun x => x.1 ≠ p)⟩
  | none => s

theorem reachable_malloc {s : Client} (hs : runs.Reachable s) {size : ℕ} (hpos : 1 ≤ size)
    (hlt : size < 2 ^ 31) : runs.Reachable (s.malloc size) := by
  unfold Client.malloc
  split
  · next h p hcall =>
    split
    · next hp => exact .step hs (.refused hpos hlt (hp ▸ hcall))
    · next hp => exact .step hs (.malloc hpos hlt hcall hp)
  · exact hs

theorem reachable_free {s : Client} (hs : runs.Reachable s) {p : ℕ}
    (hp : p ∈ s.live.map Prod.fst) : runs.Reachable (s.free p) := by
  obtain ⟨⟨p, n⟩, hmem, rfl⟩ := List.mem_map.mp hp
  unfold Client.free
  split
  · next h hcall => exact .step hs (.free hmem hcall)
  · exact hs

def twoBlocks : Client := (startedClient.malloc 1).malloc 1

theorem twoBlocks_reachable : runs.Reachable twoBlocks :=
  reachable_malloc (reachable_malloc startedClient_reachable le_rfl (by norm_num)) le_rfl
    (by norm_num)

/-- Three small blocks, the middle one freed, so that `last_bp` is that one. -/
def gapClient : Client := (twoBlocks.malloc 1).free 4128

theorem gapClient_reachable : runs.Reachable gapClient :=
  reachable_free (reachable_malloc twoBlocks_reachable le_rfl (by norm_num)) (by decide)

/-- A gap between two live blocks, from which a request for 5000 bytes is not served. -/
theorem heap_invariant_gap :
    (∃ bps, Checked gapClient.heap bps ∧ 4112 ∈ bps ∧ 4144 ∈ bps) ∧
      (mmMalloc gapClient.heap 5000).isSome ∧ (mmFree gapClient.heap 4112).isSome := by
  have hlive : gapClient.live.map Prod.fst = [4144, 4112] := by decide
  obtain ⟨⟨bps, hchecked, hblocks, -⟩, hmalloc, hfree⟩ := heap_invariant gapClient_reachable
  have hin : ∀ p ∈ [4144, 4112], p ∈ bps := fun p hp => ((hblocks p).mp (hlive ▸ hp)).1
  have hsbrk : ExtendsOrFails gapClient.heap (max (adjustedSize 5000) chunckSize) :=
    .of_room (by decide) (by decide) (by decide)
  exact ⟨⟨bps, hchecked, hin _ (by simp), hin _ (by simp)⟩,
    hmalloc 5000 (by norm_num) (by norm_num) hsbrk, hfree 4112 (by rw [hlive]; simp)⟩

section Contract

variable {h h' : Heap} {live : List (ℕ × ℕ)} {l : List Block} {p q n : ℕ}

theorem live_disjoint (hc : Consistent h live l) (hp : (p, n) ∈ live) {m : ℕ}
    (hq : (q, m) ∈ live) (hne : p ≠ q) : p + n ≤ q ∨ q + m ≤ p := by
  obtain ⟨b, hb, hroom⟩ := hc.serves.block hp
  obtain ⟨c, hqc, hroom'⟩ := hc.serves.block hq
  rcases placed_disjoint (mem_liveBlocks.mp hb).1 (mem_liveBlocks.mp hqc).1 with hpq | hpq | hpq
  · exact absurd hpq.1 hne
  · exact Or.inl (by omega)
  · exact Or.inr (by omega)

theorem live_inside (hc : Consistent h live l) (hp : (p, n) ∈ live) :
    8 ∣ p ∧ h.memStartBrk ≤ p ∧ p + n ≤ h.memBrk := by
  obtain ⟨b, hb, hroom⟩ := hc.serves.block hp
  obtain ⟨hmem, -⟩ := mem_liveBlocks.mp hb
  obtain ⟨k, r, rfl, hpk⟩ := mem_placed.mp hmem
  have hdvd := span_dvd k
  have hbounds := placed_bounds hmem
  have hbrk := hc.wellFormed.brk_eq
  have hstart := hc.wellFormed.start_eq
  have hbase := hc.wellFormed.base_dvd
  rw [span_cons, prologue_size] at hbrk
  omega

/-- A call that keeps the payload of a live block keeps the bytes asked for. -/
theorem live_kept {live' : List (ℕ × Block)} (hc : Consistent h live l) (hq : (q, n) ∈ live)
    (hkeeps : Keeps live' h.mem h'.mem)
    (hin : ∀ c, (q, c) ∈ clientBlocks h l → (q, c) ∈ live') :
    SameOn h.mem h'.mem q (q + n) := by
  obtain ⟨c, hqc, hroom⟩ := hc.serves.block hq
  exact (hkeeps q c (hin c hqc)).mono le_rfl (by omega)

end Contract

/-- The contract of a request: NULL and nothing changed, or a range of the heap that is
aligned and meets no live range, the bytes of which are kept. -/
def KeepsContract (s : Client) (size : ℕ) : Prop :=
  mmMalloc s.heap size = some (s.heap, null) ∨
    ∃ h' p, mmMalloc s.heap size = some (h', p) ∧ p ≠ null ∧ 8 ∣ p ∧ h'.memStartBrk ≤ p ∧
      p + size ≤ h'.memBrk ∧ ∀ q n, (q, n) ∈ s.live →
        (p + size ≤ q ∨ q + n ≤ p) ∧ SameOn s.heap.mem h'.mem q (q + n)

theorem keeps_contract {s : Client} {l : List Block} {size : ℕ} (hc : Consistent s.heap s.live l)
    (hpos : 1 ≤ size) (hlt : size < 2 ^ 31) (hno : ¬ Overruns s.heap size) :
    KeepsContract s size := by
  rcases mmMalloc_spec hc.wellFormed hpos (by omega) hno with
    ⟨-, heq⟩ | ⟨h', l', p, M, heq, hp, ha, -, hroom⟩
  · exact Or.inl heq
  · have hc' := consistent_malloc hc ha hroom
    obtain ⟨hdvd, hlo, hhi⟩ := live_inside hc' List.mem_cons_self
    refine Or.inr ⟨h', p, heq, hp, hdvd, hlo, hhi, fun q n hq => ⟨?_, ?_⟩⟩
    · have hfresh := hc'.serves.nodup
      rw [List.map_cons, List.nodup_cons] at hfresh
      refine live_disjoint hc' List.mem_cons_self (List.mem_cons_of_mem _ hq) ?_
      rintro rfl
      exact hfresh.1 (List.mem_map.mpr ⟨_, hq, rfl⟩)
    · exact live_kept hc hq ha.keeps fun _ hqc => hqc

/-- What a client may rely on in every state of a run: a request keeps its contract exactly
when a block fits or `mem_sbrk` does not wrap, and a pointer that is given back leaves the
bytes of all others alone. -/
theorem client_contract {s : Client} (hs : runs.Reachable s) :
    (∀ size, 1 ≤ size → size < 2 ^ 31 → (KeepsContract s size ↔ ¬ Overruns s.heap size)) ∧
    (∀ p ∈ s.live.map Prod.fst, ∃ h', mmFree s.heap p = some h' ∧
      ∀ q n, (q, n) ∈ s.live → q ≠ p → SameOn s.heap.mem h'.mem q (q + n)) := by
  obtain ⟨l, hc⟩ := reachable_consistent hs
  refine ⟨fun size hpos hlt => ⟨?_, keeps_contract hc hpos hlt⟩, fun p hp => ?_⟩
  · rintro (heq | ⟨h', p, heq, -⟩) <;> exact not_overruns hc.wellFormed hpos heq
  · obtain ⟨⟨p, m⟩, hmem, rfl⟩ := List.mem_map.mp hp
    obtain ⟨b, hb, -⟩ := hc.serves.block hmem
    obtain ⟨h₁, l', heq, hf⟩ := mmFree_spec hc.wellFormed.toLaid hc.wellFormed.coalesced hb
    exact ⟨h₁, heq, fun q n hq hne =>
      live_kept hc hq hf.keeps fun c hqc => hf.mem_iff.mpr ⟨hne, hqc⟩⟩

theorem client_contract_gap : KeepsContract gapClient 5000 ∧
    ∃ h', mmFree gapClient.heap 4112 = some h' ∧ SameOn gapClient.heap.mem h'.mem 4144 4145 := by
  have hlive : gapClient.live = [(4144, 1), (4112, 1)] := by decide
  obtain ⟨hmalloc, hfree⟩ := client_contract gapClient_reachable
  obtain ⟨h', hcall, hkept⟩ := hfree 4112 (by simp [hlive])
  have hno : ¬ Overruns gapClient.heap 5000 := fun hover => absurd hover.2 (by decide)
  exact ⟨(hmalloc 5000 (by norm_num) (by norm_num)).mpr hno, h', hcall,
    hkept 4144 1 (by simp [hlive]) (by norm_num)⟩

def highHeap : Heap := ⟨fun _ => 0, 0xf0000000, 0xf0000000, 0xf0000000 + 20 * 2 ^ 20, 0, 0⟩

def highClient : Client := ⟨((mmInit highHeap).getD (highHeap, 0)).1, []⟩

theorem highClient_reachable : runs.Reachable highClient := by
  have hfresh : Fresh highHeap := by constructor <;> decide
  exact .initial ⟨rfl, highHeap, hfresh, eq_some_getD (highHeap, 0) (by decide)⟩

/-- After `mm_init` on the high heap a request for 0x7fffffe0 bytes passes the test of
`mem_sbrk`, and `mm_malloc` writes outside the heap. -/
theorem client_contract_high : runs.Reachable highClient ∧
    (mmMalloc highClient.heap 0x7fffffe0).isNone = true ∧
    ¬ KeepsContract highClient 0x7fffffe0 := by
  have hnone : (mmMalloc highClient.heap 0x7fffffe0).isNone = true := by decide
  refine ⟨highClient_reachable, hnone, ?_⟩
  rintro (heq | ⟨h', p, heq, -⟩) <;> rw [heq] at hnone <;> cases hnone

end SystemSoftware.NextFitRuns
