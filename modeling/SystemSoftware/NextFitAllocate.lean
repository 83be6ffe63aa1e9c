import SystemSoftware.NextFitCoalesce
import SystemSoftware.NextFitSearch
import Mathlib.Data.List.Nodup

/-!
What the calls of the next-fit allocator do to the block list: `mark` splits
a block, `extend_heap` appends one and merges it with a free last block, and
`mm_malloc`, `mm_free` and `mm_init` are put together from these. Each keeps
the list well formed and the payloads of all other client blocks.
-/
namespace SystemSoftware.NextFitAllocate

open ByteMemory BoundaryTags NextFitHeap NextFitBlocks NextFitCoalesce NextFitSearch

structure SameArea (h h' : Heap) : Prop where
  base : h'.memStartBrk = h.memStartBrk
  start : h'.startBp = h.startBp
  max : h'.memMaxAddr = h.memMaxAddr

theorem SameArea.trans {h₁ h₂ h₃ : Heap} (h₁₂ : SameArea h₁ h₂) (h₂₃ : SameArea h₂ h₃) :
    SameArea h₁ h₃ :=
  ⟨h₂₃.base.trans h₁₂.base, h₂₃.start.trans h₁₂.start, h₂₃.max.trans h₁₂.max⟩

theorem Merged.sameArea {h h' : Heap} {l l' : List Block} {q : ℕ} (hm : Merged h l h' l' q) :
    SameArea h h' ∧ h'.memBrk = h.memBrk ∧ h'.lastBp = q := by
  rw [hm.fields]
  exact ⟨⟨rfl, rfl, rfl⟩, rfl, rfl⟩

def front (n : ℕ) (hn : 8 ∣ n) (hpos : 0 < n) : Block := ⟨n, true, hn, hpos⟩

def remainder (b : Block) (n : ℕ) (hn : 8 ∣ n) (hlt : n < b.size) : Block :=
  ⟨b.size - n, false, Nat.dvd_sub b.size_dvd hn, Nat.sub_pos_of_lt hlt⟩

/-- `mark` has made `M` out of the block `b` at `a`. -/
structure Marked (h : Heap) (l : List Block) (h' : Heap) (l' : List Block) (a : ℕ)
    (b M : Block) : Prop where
  laid : Laid h' l'
  fields : h' = { h with mem := h'.mem }
  alloc : M.alloc = true
  live : ∃ A B, clientBlocks h l = A ++ liveBlocks a [b] ++ B ∧
    clientBlocks h' l' = A ++ (a, M) :: B ∧ Keeps (A ++ B) h.mem h'.mem

section Mark

variable {h : Heap} {l l₁ l₂ : List Block} {a n : ℕ} {b : Block}

/-- Blocks before and behind the one at `a`. -/
theorem clientBlocks_cut (hc : Cut h l a l₁ (b :: l₂)) (hne : l₁ ≠ []) :
    ∃ k, l₁ = prologue :: k ∧ l = k ++ b :: l₂ ∧ a = h.startBp + 8 + span k ∧
      clientBlocks h l = liveBlocks (h.startBp + 8) k ++ liveBlocks a [b] ++
        liveBlocks (a + b.size) l₂ := by
  obtain ⟨k, rfl, rfl⟩ := hc.tail hne
  have ha := hc.addr
  rw [span_cons, prologue_size, ← Nat.add_assoc] at ha
  refine ⟨k, rfl, rfl, ha, ?_⟩
  rw [clientBlocks, ← List.singleton_append (l := l₂), ← List.append_assoc, liveBlocks_append,
    liveBlocks_append, span_append, ha]
  simp [Nat.add_assoc]

/-- Rewriting one block into an allocated front part and free rest blocks. -/
theorem marked_of_tagged {m' : Memory} {M : Block} {rest : List Block} (hl : Laid h l)
    (hc : Cut h l a l₁ (b :: l₂)) (hne : l₁ ≠ []) (hM : M.alloc = true)
    (hrest : ∀ d ∈ rest, d.alloc = false) (hspan : M.size + span rest = b.size)
    (h16 : ∀ d ∈ M :: rest, 16 ≤ d.size)
    (hout : SameOutside h.mem m' (a - 4) (a + b.size - 4)) (htag : Tagged m' a (M :: rest)) :
    ∃ l', prologue :: l' = l₁ ++ (M :: rest) ++ l₂ ∧
      Marked h l { h with mem := m' } l' a b M := by
  obtain ⟨k, rfl, rfl, ha, hlive⟩ := clientBlocks_cut hc hne
  have hold : span [b] = b.size := by simp
  have hlaid : Laid { h with mem := m' } (k ++ (M :: rest) ++ l₂) := by
    have hc' : Cut h (k ++ b :: l₂) a (prologue :: k) ([b] ++ l₂) := hc
    refine hl.replace hc' (by simpa using hspan) (by simpa using hout) htag (by simp) ?_
    rw [List.append_assoc]
    exact Laid.sixteen_le_replace [b] (M :: rest) hl.sixteen_le h16
  refine ⟨k ++ (M :: rest) ++ l₂, by simp, hlaid, rfl, hM,
    liveBlocks (h.startBp + 8) k, liveBlocks (a + b.size) l₂, hlive, ?_, ?_⟩
  · rw [clientBlocks, liveBlocks_append, liveBlocks_append, liveBlocks_cons_alloc hM,
      liveBlocks_eq_nil hrest]
    simp only [span_append, span_cons, hspan, ← ha, List.append_assoc, List.cons_append,
      List.nil_append]
    rw [← Nat.add_assoc, ← ha]
  · obtain ⟨hlo, hbrk, hlt, h8⟩ := hl.block_bounds hc
    exact Keeps.of_parts hout (by omega) (by omega)

/-- The four stores of a split: first the tags of the front part, then those
of the rest behind it. -/
theorem mark_stores {M R : Block} (hl : Laid h l) (hc : Cut h l a l₁ (b :: l₂))
    (hM : M.alloc = true) (hR : R.alloc = false) (h16 : 16 ≤ R.size)
    (hsize : M.size + R.size = b.size) :
    mark h a M.size = some { h with mem := writeTags (writeTags h.mem a M) (a + M.size) R } := by
  obtain ⟨hlo, hbrk, hlt, h8⟩ := hl.block_bounds hc
  have hM8 := M.eight_le
  have hMtag : pack M.size 1 = M.tag := (pack_one M.size_dvd).trans (Block.tag_of_alloc hM).symm
  have hRtag : pack R.size 0 = R.tag := (pack_zero _).trans (Block.tag_of_free hR).symm
  have hMlt : M.tag < 2 ^ 32 := by
    have ht := M.tag_le
    omega
  have hsub : sub32 b.size M.size = R.size := by
    rw [sub32_eq (by omega) (by omega)]
    omega
  have hnext : nextBlockBp { h with mem := writeTags h.mem a M } a = some (a + M.size) := by
    have htag := tagged_writeTags (m := h.mem) (show 4 ≤ a by omega) hMlt
    have hs := getSize_stored (h := h) htag.1 (tag_size_bits hMlt) (by omega) (by omega)
      (by omega)
    simp [nextBlockBp, hs, add32_eq (show a + M.size < 2 ^ 32 by omega)]
  have h₁ := put_tags (h := h) (a := a) (b := M)
    (k := fun h => do
      let bp ← nextBlockBp h a
      let h ← h.put (headerP bp) (pack R.size 0)
      h.put (← footerP h bp) (pack R.size 0))
    hMtag (by omega) (by omega) (by omega)
  have h₂ := put_tags (h := { h with mem := writeTags h.mem a M }) (a := a + M.size) (b := R)
    (k := some) hRtag (show h.memStartBrk + 4 ≤ a + M.size by omega)
    (show a + M.size + R.size ≤ h.memBrk + 4 by omega) (by omega)
  simp only [Option.bind_eq_bind, hnext, Option.bind_some, Option.bind_fun_some] at h₁ h₂
  simp only [mark, hl.getSize_header hc, hsub, Option.bind_eq_bind, Option.bind_some]
  rw [if_pos (show dsize <<< 1 ≤ R.size from h16), h₁, h₂]

/-- The tags of both parts of a split, written over one block. -/
theorem split_tagged {m : Memory} {M R : Block} (ha : 4 ≤ a)
    (hlt : a + M.size + R.size < 2 ^ 32) :
    SameOutside m (writeTags (writeTags m a M) (a + M.size) R) (a - 4)
        (a + (M.size + R.size) - 4) ∧
      Tagged (writeTags (writeTags m a M) (a + M.size) R) a [M, R] := by
  have hMt := M.tag_le
  have hRt := R.tag_le
  have hM8 := M.eight_le
  have hR8 := R.eight_le
  have hout₁ : SameOutside m (writeTags m a M) (a - 4) (a + (M.size + R.size) - 4) :=
    (writeTags_sameOutside ha).mono le_rfl (by omega)
  have hout₂ : SameOutside (writeTags m a M) (writeTags (writeTags m a M) (a + M.size) R)
      (a + M.size - 4) (a + (M.size + R.size) - 4) :=
    (writeTags_sameOutside (by omega)).mono le_rfl (by omega)
  have htagM : Tagged (writeTags m a M) a [M] := tagged_writeTags ha (by omega)
  have hkeep := htagM.congr ha (hout₂.sameOn (Or.inl (by simp)))
  exact ⟨hout₁.trans (hout₂.mono (by omega) le_rfl),
    hkeep.1, hkeep.2.1, tagged_writeTags (by omega) (by omega)⟩

/-- The block is split when at least sixteen bytes are left. -/
theorem mark_split {M R : Block} (hl : Laid h l) (hc : Cut h l a l₁ (b :: l₂)) (hne : l₁ ≠ [])
    (hM : M.alloc = true) (hR : R.alloc = false) (hM16 : 16 ≤ M.size) (hR16 : 16 ≤ R.size)
    (hsize : M.size + R.size = b.size) :
    ∃ h' l', mark h a M.size = some h' ∧ prologue :: l' = l₁ ++ [M, R] ++ l₂ ∧
      Marked h l h' l' a b M := by
  obtain ⟨hlo, hbrk, hlt, h8⟩ := hl.block_bounds hc
  obtain ⟨hout, htag⟩ := split_tagged (m := h.mem) (a := a) (M := M) (R := R) (by omega) (by omega)
  have hrest : ∀ d ∈ [R], d.alloc = false := by simpa using hR
  obtain ⟨l', hl', hm⟩ := marked_of_tagged hl hc hne hM hrest
    (by simpa using hsize) (by simp [hM16, hR16]) (hsize ▸ hout) htag
  exact ⟨_, l', mark_stores hl hc hM hR hR16 hsize, hl', hm⟩

/-- Otherwise the whole block is used, whatever the request was. -/
theorem mark_whole_stores (hl : Laid h l) (hc : Cut h l a l₁ (b :: l₂)) (hfit : n ≤ b.size)
    (hroom : b.size < n + 16) :
    mark h a n = some { h with mem := writeTags h.mem a b.used } := by
  obtain ⟨hlo, hbrk, hlt, h8⟩ := hl.block_bounds hc
  have hused : pack b.size 1 = b.used.tag := pack_one b.size_dvd
  have husize : b.used.size = b.size := rfl
  have hsub : sub32 b.size n = b.size - n := sub32_eq hfit (by omega)
  have h₁ := put_tags (h := h) (a := a) (b := b.used) (k := some) hused (by omega)
    (by omega) (by omega)
  simp only [Option.bind_eq_bind, Option.bind_fun_some] at h₁
  simp only [mark, hl.getSize_header hc, hsub, Option.bind_eq_bind, Option.bind_some]
  rw [if_neg (show ¬ dsize <<< 1 ≤ b.size - n by simp only [dsize]; omega), h₁]

theorem mark_whole (hl : Laid h l) (hc : Cut h l a l₁ (b :: l₂)) (hne : l₁ ≠ [])
    (hb : b ∈ l) (hfit : n ≤ b.size) (hroom : b.size < n + 16) :
    ∃ h' l', mark h a n = some h' ∧ prologue :: l' = l₁ ++ [b.used] ++ l₂ ∧
      Marked h l h' l' a b b.used := by
  obtain ⟨hlo, hbrk, hlt, h8⟩ := hl.block_bounds hc
  have husize : b.used.size = b.size := rfl
  have hultd : b.used.tag < 2 ^ 32 := by
    have ht := b.used.tag_le
    omega
  have hout : SameOutside h.mem (writeTags h.mem a b.used) (a - 4) (a + b.size - 4) :=
    husize ▸ writeTags_sameOutside (by omega)
  have htag : Tagged (writeTags h.mem a b.used) a [b.used] := tagged_writeTags (by omega) hultd
  obtain ⟨l', hl', hm⟩ := marked_of_tagged hl hc hne b.used_alloc (by simp) (by simp)
    (by simpa using hl.sixteen_le b hb) hout htag
  exact ⟨_, l', mark_whole_stores hl hc hfit hroom, hl', hm⟩

end Mark

def trailingFree (l : List Block) : ℕ :=
  match l.getLast? with
  | some b => if b.alloc then 0 else b.size
  | none => 0

/-- `extend_heap` has added `n` bytes; the block at `q` is the last one now. -/
structure Extended (h : Heap) (l : List Block) (n : ℕ) (h' : Heap) (l' : List Block) (q : ℕ)
    (M : Block) : Prop where
  laid : Laid h' l'
  area : SameArea h h'
  brk : h'.memBrk = h.memBrk + n
  rover : h'.lastBp = q
  last : ∃ k, prologue :: l' = k ++ [M] ∧ k ≠ [] ∧ q = h'.startBp + span k
  free : M.alloc = false
  size : M.size = n + trailingFree l
  coalesced : Coalesced (prologue :: l')
  live : clientBlocks h' l' = clientBlocks h l
  keeps : Keeps (clientBlocks h l) h.mem h'.mem

section Extend

variable {h : Heap} {l : List Block} {n : ℕ}

theorem brk_dvd (hl : Laid h l) : 8 ∣ h.memBrk := by
  have h₁ := hl.start_dvd
  have h₂ := span_dvd (prologue :: l)
  have h₃ := hl.brk_eq
  omega

/-- The requests for more heap are whole numbers of double words. -/
theorem extend_size (hn : 8 ∣ n) (hlt : n < 2 ^ 32) :
    (if n / wsize % 2 ≠ 0 then (n / wsize + 1) <<< 2 else (n / wsize) <<< 2) % 2 ^ 32 = n := by
  have h₁ : n / wsize % 2 = 0 := by
    simp only [wsize]
    omega
  rw [if_neg (by simp [h₁])]
  simp only [wsize, Nat.shiftLeft_eq]
  omega

def Refuses (h : Heap) (n : ℕ) : Prop := 2 ^ 31 ≤ n ∨ h.memMaxAddr < add32 h.memBrk n

/-- The sum in `mem_sbrk` goes past the end of the address space, so that its test passes
and the break is moved down. -/
def Wraps (h : Heap) (n : ℕ) : Prop := n < 2 ^ 31 ∧ 2 ^ 32 ≤ h.memBrk + n

instance (h : Heap) (n : ℕ) : Decidable (Wraps h n) := inferInstanceAs (Decidable (_ ∧ _))

theorem refuses_iff (hw : ¬ Wraps h n) :
    Refuses h n ↔ 2 ^ 31 ≤ n ∨ h.memMaxAddr < h.memBrk + n := by
  rw [Refuses]
  by_cases hn : 2 ^ 31 ≤ n
  · simp only [hn, true_or]
  · have hlt : h.memBrk + n < 2 ^ 32 := by
      by_contra hge
      exact hw ⟨by omega, by omega⟩
    rw [add32_eq hlt]

/-- What wraps is granted. -/
theorem not_refuses_of_wraps (hle : h.memBrk ≤ h.memMaxAddr) (hlt : h.memMaxAddr < 2 ^ 32)
    (hw : Wraps h n) : ¬ Refuses h n := by
  obtain ⟨hn, hover⟩ := hw
  rw [Refuses, add32]
  omega

theorem extendHeap_refused (hn : 8 ∣ n) (hlt : n < 2 ^ 32) (hno : Refuses h n) :
    extendHeap h (n / wsize) = some (h, null) := by
  rw [Refuses] at hno
  simp only [extendHeap, extend_size hn hlt, memSbrk, if_pos hno, if_true]

/-- Nothing can be stored at the old break when it has been moved down. -/
theorem put_wrapped {g : Heap} {p v : ℕ} (hlt : h.memBrk < 2 ^ 32) (hw : Wraps h n)
    (hg : g.memBrk = add32 h.memBrk n) (hp : h.memBrk ≤ p + 4) : g.put p v = none := by
  obtain ⟨hn, hover⟩ := hw
  rw [Heap.put]
  refine if_neg fun hin => ?_
  have hhi : p + 4 ≤ g.memBrk := hin.2
  rw [hg, add32] at hhi
  omega

theorem extendHeap_wrapped (hl : Laid h l) (hn : 8 ∣ n) (hw : Wraps h n) :
    extendHeap h (n / wsize) = none := by
  have hno := not_refuses_of_wraps hl.brk_le hl.max_lt hw
  have h31 := hw.1
  have hst := hl.start_eq
  have hbrk := hl.brk_eq
  have hlt := hl.brk_le.trans_lt hl.max_lt
  have hdvd := brk_dvd hl
  rw [span_cons, prologue_size] at hbrk
  have hne : h.memBrk ≠ minusOne := by
    simp only [minusOne]
    omega
  have hput : Heap.put { h with memBrk := add32 h.memBrk n } (headerP h.memBrk) (pack n 0) =
      none := by
    refine put_wrapped hlt hw rfl ?_
    rw [headerP_eq (by omega) hlt]
    omega
  rw [Refuses] at hno
  simp only [extendHeap, extend_size hn (show n < 2 ^ 32 by omega), memSbrk, if_neg hno,
    if_neg hne, hput, Option.bind_eq_bind, Option.bind_none]

/-- The new block sits on the old epilogue, and a new epilogue ends the heap. -/
theorem laid_append {E : Block} (hl : Laid h l) (hE : E.alloc = false) (h16 : 16 ≤ E.size)
    (hmax : h.memBrk + E.size ≤ h.memMaxAddr) :
    Laid { h with
      memBrk := h.memBrk + E.size
      mem := putWord (writeTags h.mem h.memBrk E) (h.memBrk + E.size - 4) 1 } (l ++ [E]) := by
  have hst := hl.start_eq
  have hbrk := hl.brk_eq
  have hmaxlt := hl.max_lt
  have hEt := Block.tag_of_free hE
  rw [span_cons, prologue_size] at hbrk
  have hout₁ : SameOutside h.mem (writeTags h.mem h.memBrk E) (h.memBrk - 4)
      (h.memBrk + E.size) := (writeTags_sameOutside (by omega)).mono le_rfl (by omega)
  have hout₂ := putWord_sameOutside (writeTags h.mem h.memBrk E) (h.memBrk + E.size - 4) 1
  have hout := hout₁.trans (hout₂.mono (show h.memBrk - 4 ≤ _ by omega)
    (show _ ≤ h.memBrk + E.size by omega))
  refine {
    base_dvd := hl.base_dvd
    start_eq := hl.start_eq
    tagged := ?_
    brk_eq := ?_
    epilogue := word_putWord_self (by norm_num)
    brk_le := hmax
    max_lt := hl.max_lt
    sixteen_le := ?_
  }
  · rw [← List.cons_append, tagged_append]
    constructor
    · refine hl.tagged.congr (show 4 ≤ h.startBp by omega) (hout.sameOn (Or.inl ?_))
      rw [hl.brk_eq]
    · have ht : Tagged (writeTags h.mem h.memBrk E) h.memBrk [E] :=
        tagged_writeTags (by omega) (by omega)
      have hs : h.startBp + span (prologue :: l) = h.memBrk := hl.brk_eq.symm
      rw [hs]
      refine ht.congr (by omega) (hout₂.sameOn (Or.inl ?_))
      simp only [span_cons, span_nil]
      omega
  · rw [← List.cons_append, span_append, span_cons, prologue_size]
    simp only [span_cons, span_nil]
    omega
  · intro b hb
    rcases List.mem_append.mp hb with hb | hb
    · exact hl.sixteen_le b hb
    · rw [List.mem_singleton.mp hb]
      exact h16

/-- The stores of `extend_heap` before it coalesces. -/
theorem extendHeap_granted {E : Block} (hl : Laid h l) (hE : E.alloc = false)
    (h31 : E.size < 2 ^ 31) (hmax : h.memBrk + E.size ≤ h.memMaxAddr) :
    extendHeap h (E.size / wsize) = coalesce { h with
      memBrk := h.memBrk + E.size
      mem := putWord (writeTags h.mem h.memBrk E) (h.memBrk + E.size - 4) 1 } h.memBrk := by
  have hst := hl.start_eq
  have hbrk := hl.brk_eq
  have hmaxlt := hl.max_lt
  have hdvd := brk_dvd hl
  have hE8 := E.eight_le
  have hEt := Block.tag_of_free hE
  rw [span_cons, prologue_size] at hbrk
  have hnext : nextBlockBp { h with
      memBrk := h.memBrk + E.size
      mem := writeTags h.mem h.memBrk E } h.memBrk = some (h.memBrk + E.size) := by
    have htag := tagged_writeTags (m := h.mem) (show 4 ≤ h.memBrk by omega)
      (show E.tag < 2 ^ 32 by omega)
    have hs := getSize_stored (h := { h with memBrk := h.memBrk + E.size }) htag.1
      (tag_size_bits (show E.tag < 2 ^ 32 by omega))
      (show h.memStartBrk + 4 ≤ h.memBrk by omega)
      (show h.memBrk ≤ h.memBrk + E.size by omega) (by omega)
    simp [nextBlockBp, hs, add32_eq (show h.memBrk + E.size < 2 ^ 32 by omega)]
  have hhead : headerP (h.memBrk + E.size) = h.memBrk + E.size - 4 :=
    headerP_eq (by omega) (by omega)
  have hput : Heap.put { h with
      memBrk := h.memBrk + E.size
      mem := writeTags h.mem h.memBrk E } (h.memBrk + E.size - 4) (pack 0 1) = some { h with
      memBrk := h.memBrk + E.size
      mem := putWord (writeTags h.mem h.memBrk E) (h.memBrk + E.size - 4) 1 } :=
    put_eq (show h.memStartBrk ≤ _ by omega) (show _ ≤ h.memBrk + E.size by omega)
  have hstores := put_tags (h := { h with memBrk := h.memBrk + E.size }) (a := h.memBrk) (b := E)
    (k := fun h' => do
      let h' ← h'.put (headerP (← nextBlockBp h' h.memBrk)) (pack 0 1)
      coalesce h' h.memBrk)
    (show pack E.size 0 = E.tag by rw [pack_zero, hEt])
    (show h.memStartBrk + 4 ≤ h.memBrk by omega)
    (show h.memBrk + E.size ≤ h.memBrk + E.size + 4 by omega) (by omega)
  simp only [Option.bind_eq_bind, hnext, Option.bind_some, hhead, hput] at hstores
  have hbig : ¬ (2 ^ 31 ≤ E.size ∨ h.memMaxAddr < h.memBrk + E.size) := by omega
  have hne : h.memBrk ≠ minusOne := by
    simp only [minusOne]
    omega
  simp only [extendHeap, extend_size E.size_dvd (show E.size < 2 ^ 32 by omega), memSbrk,
    add32_eq (show h.memBrk + E.size < 2 ^ 32 by omega), if_neg hbig, if_neg hne,
    Option.bind_eq_bind]
  exact hstores

/-- The new block is merged with the old last one, `p`, if that is free. -/
theorem extendHeap_laid {E : Block} (hl : Laid h l) (hE : E.alloc = false) (h16 : 16 ≤ E.size)
    (h31 : E.size < 2 ^ 31) (hmax : h.memBrk + E.size ≤ h.memMaxAddr) :
    ∃ k p h' l', prologue :: l = k ++ [p] ∧ h.memBrk = h.startBp + span k + p.size ∧
      extendHeap h (E.size / wsize) =
        some (h', if p.alloc then h.memBrk else h.startBp + span k) ∧
      prologue :: l' = k ++ joinPrev p [E] ∧
      Merged { h with
        memBrk := h.memBrk + E.size
        mem := putWord (writeTags h.mem h.memBrk E) (h.memBrk + E.size - 4) 1 } (l ++ [E]) h' l'
        (if p.alloc then h.memBrk else h.startBp + span k) := by
  rw [extendHeap_granted hl hE h31 hmax]
  have hlaid := laid_append hl hE h16 hmax
  generalize hh : ({ h with
    memBrk := h.memBrk + E.size
    mem := putWord (writeTags h.mem h.memBrk E) (h.memBrk + E.size - 4) 1 } : Heap) = h₁ at hlaid ⊢
  have hst : h₁.startBp = h.startBp := by rw [← hh]
  -- The block in front of the new one is the old last one.
  obtain ⟨k, p, hkp⟩ : ∃ k p, prologue :: l = k ++ [p] :=
    ⟨_, _, (List.dropLast_append_getLast (List.cons_ne_nil prologue l)).symm⟩
  have hbrk : h.memBrk = h.startBp + span k + p.size := by
    rw [hl.brk_eq, hkp, span_append, span_cons, span_nil]
    omega
  have hcut : Cut h₁ (l ++ [E]) (h.startBp + span k) k (p :: E :: []) :=
    ⟨by rw [← List.cons_append, hkp]; simp, by rw [hst]⟩
  obtain ⟨h', l', hc, hl', hm⟩ := coalesce_laid hlaid hcut hE h16
  rw [← hbrk] at hc hm
  exact ⟨k, p, h', l', hkp, hbrk, hc, hl', hm⟩

theorem extendHeap_spec {E : Block} (hl : Laid h l) (hco : Coalesced (prologue :: l))
    (hE : E.alloc = false) (h16 : 16 ≤ E.size) (h31 : E.size < 2 ^ 31)
    (hmax : h.memBrk + E.size ≤ h.memMaxAddr) :
    ∃ h' l' q M, extendHeap h (E.size / wsize) = some (h', q) ∧
      Extended h l E.size h' l' q M := by
  have hlaid := laid_append hl hE h16 hmax
  obtain ⟨k, p, h', l', hkp, hbrk, hc, hl', hm⟩ := extendHeap_laid hl hE h16 h31 hmax
  generalize hh : ({ h with
    memBrk := h.memBrk + E.size
    mem := putWord (writeTags h.mem h.memBrk E) (h.memBrk + E.size - 4) 1 } : Heap) = h₁
    at hlaid hm
  have hst : h₁.startBp = h.startBp := by rw [← hh]
  have hcoal : Coalesced (prologue :: l') := by
    rw [hl']
    exact coalesced_joinPrev hE (hkp ▸ hco) (List.isChain_singleton E)
  have harea : SameArea h h₁ := by
    rw [← hh]
    exact ⟨rfl, rfl, rfl⟩
  have hbrk₁ : h₁.memBrk = h.memBrk + E.size := by rw [← hh]
  have hlive : clientBlocks h₁ (l ++ [E]) = clientBlocks h l := by
    rw [clientBlocks, liveBlocks_append, liveBlocks_cons_free hE, liveBlocks_nil,
      List.append_nil, hst]
    rfl
  have hkeeps : Keeps (clientBlocks h l) h.mem h₁.mem := by
    intro q c hq
    have hb := (placed_bounds (mem_liveBlocks.mp hq).1).2
    have hbrk' := hl.brk_eq
    rw [span_cons, prologue_size] at hbrk'
    have hout : SameOn h.mem (writeTags h.mem h.memBrk E) q (q + c.size - 8) :=
      (writeTags_sameOutside (by omega)).sameOn (Or.inl (by omega))
    rw [← hh]
    exact hout.trans (putWord_sameOn (Or.inl (by omega)))
  obtain ⟨harea', hbrk', hlast'⟩ := Merged.sameArea hm
  have hkeeps' := hkeeps.trans (hlive ▸ hm.keeps)
  have htrail : trailingFree l = if p.alloc then 0 else p.size := by
    unfold trailingFree
    cases l using List.reverseRecOn with
    | nil =>
      obtain ⟨rfl, rfl⟩ : k = [] ∧ p = prologue := by
        cases k with
        | nil => exact ⟨rfl, (List.cons.inj hkp).1.symm⟩
        | cons c k => simp at hkp
      rfl
    | append_singleton l b =>
      rw [← List.cons_append] at hkp
      obtain ⟨-, hb⟩ := List.append_inj' hkp rfl
      obtain rfl := (List.cons.inj hb).1
      simp
  have hknil : p.alloc = false → k ≠ [] := by
    rintro hp rfl
    obtain rfl := (List.cons.inj hkp).1
    simp at hp
  cases hp : p.alloc with
  | true =>
    simp only [hp, if_true] at hc hm hl' htrail hlast'
    refine ⟨h', l', h.memBrk, E, hc, hm.laid, harea.trans harea', by rw [hbrk', hbrk₁], hlast',
      ⟨k ++ [p], ?_, by simp, ?_⟩, hE, by rw [htrail]; rfl, hcoal, hm.live.trans hlive, hkeeps'⟩
    · rw [hl', joinPrev, if_pos hp]
      simp
    · rw [harea'.start, hst, hbrk, span_append, span_cons, span_nil]
      omega
  | false =>
    simp only [hp, Bool.false_eq_true, if_false] at hc hm hl' htrail hlast'
    refine ⟨h', l', h.startBp + span k, p.join E, hc, hm.laid, harea.trans harea',
      by rw [hbrk', hbrk₁], hlast', ⟨k, ?_, hknil hp, by rw [harea'.start, hst]⟩, rfl, ?_, hcoal,
      hm.live.trans hlive, hkeeps'⟩
    · rw [hl', joinPrev, if_neg (by simp [hp])]
    · rw [htrail, Block.join_size, Nat.add_comm]

end Extend

/-- Sizes from 2^32 - 15 on wrap around and are left out here. -/
theorem adjustedSize_spec {size : ℕ} (hlt : size + 15 < 2 ^ 32) :
    8 ∣ adjustedSize size ∧ 16 ≤ adjustedSize size ∧ size + 8 ≤ adjustedSize size ∧
      adjustedSize size ≤ size + 16 ∧ adjustedSize size < 2 ^ 32 := by
  unfold adjustedSize
  simp only [dsize]
  split
  · omega
  · rw [add32_eq (show size + (8 + 8 - 1) < 2 ^ 32 by omega)]
    omega

theorem adjustedSize_dvd (size : ℕ) : 8 ∣ adjustedSize size := by
  unfold adjustedSize
  simp only [dsize]
  split <;> omega

theorem adjustedSize_of_lt {size : ℕ} (h8 : 8 < size) (hlt : size + 15 < 2 ^ 32) :
    adjustedSize size = 8 * ((size + 15) / 8) := by
  unfold adjustedSize
  simp only [dsize]
  rw [if_neg (by omega), add32_eq (show size + (8 + 8 - 1) < 2 ^ 32 by omega)]
  omega

/-- The size of the free block that a request of `adjSize` bytes is cut from:
the one the search finds, or the end of the extended heap. -/
def selectedSize (h : Heap) (l : List Block) (adjSize : ℕ) : ℕ :=
  match chosen h l adjSize with
  | some x => x.2.size
  | none => max adjSize chunckSize + trailingFree l

def Refused (h : Heap) (l : List Block) (adjSize : ℕ) : Prop :=
  chosen h l adjSize = none ∧ Refuses h (max adjSize chunckSize)

def Overruns (h : Heap) (size : ℕ) : Prop :=
  (nextFit h (adjustedSize size)).map Prod.snd = some null ∧
    Wraps h (max (adjustedSize size) chunckSize)

/-- The free block `b` at `q` of a heap that differs from `h` by an extension at most. -/
structure Selected (h : Heap) (l : List Block) (h₁ : Heap) (l₁ : List Block) (q : ℕ)
    (b : Block) : Prop where
  laid : Laid h₁ l₁
  coalesced : Coalesced (prologue :: l₁)
  area : SameArea h h₁
  brk : h.memBrk ≤ h₁.memBrk
  rover : h₁.lastBp = q
  live : clientBlocks h₁ l₁ = clientBlocks h l
  keeps : Keeps (clientBlocks h l) h.mem h₁.mem
  cut : ∃ k r, Cut h₁ l₁ q k (b :: r) ∧ k ≠ []
  free : b.alloc = false

section Malloc

variable {h : Heap} {l : List Block} {size : ℕ}

theorem selected_of_extended {h' : Heap} {l' : List Block} {q n : ℕ} {M : Block}
    (he : Extended h l n h' l' q M) : Selected h l h' l' q M where
  laid := he.laid
  coalesced := he.coalesced
  area := he.area
  brk := by have := he.brk; omega
  rover := he.rover
  live := he.live
  keeps := he.keeps
  cut := by
    obtain ⟨k, hk, hne, hq⟩ := he.last
    exact ⟨k, [], ⟨hk, hq⟩, hne⟩
  free := he.free

theorem selected_of_chosen (hw : WellFormed h l) {n q : ℕ} {b : Block}
    (hx : chosen h l n = some (q, b)) : Selected h l { h with lastBp := q } l q b := by
  obtain ⟨hmem, hfree, -⟩ := chosen_spec hx
  obtain ⟨k, r, rfl, hc⟩ := Cut.of_listed hmem
  exact {
    laid := hw.toLaid.setLast q
    coalesced := hw.coalesced
    area := ⟨rfl, rfl, rfl⟩
    brk := le_rfl
    rover := rfl
    live := rfl
    keeps := Keeps.refl _ _
    cut := ⟨prologue :: k, r, ⟨hc.split, hc.addr⟩, by simp⟩
    free := hfree }

theorem overruns_iff (hw : WellFormed h l) : Overruns h size ↔
    chosen h l (adjustedSize size) = none ∧ Wraps h (max (adjustedSize size) chunckSize) := by
  rw [Overruns, nextFit_eq (adjustedSize size) hw.toLaid hw.rover]
  cases hx : chosen h l (adjustedSize size) with
  | none => simp
  | some x =>
    have hlo := (placed_bounds (chosen_spec (q := x.1) (b := x.2) hx).1).1
    have hne : x.1 ≠ null := by
      simp only [null]
      omega
    simp [hne]

theorem mmMalloc_overruns (hw : WellFormed h l) (hpos : 1 ≤ size) (hover : Overruns h size) :
    mmMalloc h size = none := by
  have hwrap := hover.2
  obtain ⟨hx, -⟩ := (overruns_iff hw).mp hover
  have hfit := nextFit_eq (adjustedSize size) hw.toLaid hw.rover
  rw [hx] at hfit
  have hdvd : 8 ∣ max (adjustedSize size) chunckSize := by
    rcases max_choice (adjustedSize size) chunckSize with hmax | hmax <;> rw [hmax]
    · exact adjustedSize_dvd size
    · norm_num
  simp only [mmMalloc, if_neg (show ¬ size = 0 by omega), hfit, Option.bind_eq_bind,
    Option.bind_some, extendHeap_wrapped hw.toLaid hdvd hwrap, ne_eq, not_true_eq_false, if_false,
    Option.bind_none]

/-- A request that is answered has not run over the end of the address space. -/
theorem not_overruns {r : Heap × ℕ} (hw : WellFormed h l) (hpos : 1 ≤ size)
    (hcall : mmMalloc h size = some r) : ¬ Overruns h size := by
  intro hover
  rw [mmMalloc_overruns hw hpos hover] at hcall
  cases hcall

/-- `mm_malloc` marks the selected block, or changes nothing. -/
theorem mmMalloc_cases (hw : WellFormed h l) (hpos : 1 ≤ size) (hlt : size + 15 < 2 ^ 32)
    (hno : ¬ Overruns h size) :
    (Refused h l (adjustedSize size) ∧ mmMalloc h size = some (h, null)) ∨
      ∃ h₁ l₁ q b, Selected h l h₁ l₁ q b ∧ b.size = selectedSize h l (adjustedSize size) ∧
        adjustedSize size ≤ b.size ∧
        mmMalloc h size = (mark h₁ q (adjustedSize size)).map
          (fun h' => ({ h' with lastBp := q }, q)) := by
  obtain ⟨hdvd, h16, hle, hge, h32⟩ := adjustedSize_spec hlt
  rw [overruns_iff hw] at hno
  generalize hn : adjustedSize size = n at *
  have hfit := nextFit_eq n hw.toLaid hw.rover
  have hne0 : ∀ {h₁ l₁ q b}, Selected h l h₁ l₁ q b → q ≠ null := by
    intro h₁ l₁ q b hs
    obtain ⟨k, r, hc, -⟩ := hs.cut
    have := (hs.laid.bounds hc).1
    simp only [null]
    omega
  cases hx : chosen h l n with
  | some x =>
    obtain ⟨q, b⟩ := x
    have hsel := selected_of_chosen hw hx
    refine Or.inr ⟨_, l, q, b, hsel, ?_, (chosen_spec hx).2.2, ?_⟩
    · simp only [selectedSize, hx]
    · rw [hx] at hfit
      simp only [mmMalloc, if_neg (show ¬ size = 0 by omega), hn, hfit, Option.bind_eq_bind,
        Option.bind_some, if_pos (hne0 hsel)]
      cases mark { h with lastBp := q } q n <;> rfl
  | none =>
    rw [hx] at hfit
    have hext8 : 8 ∣ max n chunckSize := by
      simp only [chunckSize]
      omega
    have hext32 : max n chunckSize < 2 ^ 32 := by
      simp only [chunckSize]
      omega
    by_cases hsbrk : Refuses h (max n chunckSize)
    · refine Or.inl ⟨⟨hx, hsbrk⟩, ?_⟩
      simp only [mmMalloc, if_neg (show ¬ size = 0 by omega), hn, hfit, Option.bind_eq_bind,
        Option.bind_some, extendHeap_refused hext8 hext32 hsbrk, ne_eq, not_true_eq_false,
        if_false, if_true]
    · rw [refuses_iff fun hwrap => hno ⟨hx, hwrap⟩] at hsbrk
      let E : Block := ⟨max n chunckSize, false, hext8, by simp only [chunckSize]; omega⟩
      have hE : E.size = max n chunckSize := rfl
      obtain ⟨h', l', q, M, heq, he⟩ := extendHeap_spec (E := E) hw.toLaid hw.coalesced rfl
        (by rw [hE]; omega) (by rw [hE]; omega) (by rw [hE]; omega)
      have hsel := selected_of_extended he
      rw [hE] at heq
      refine Or.inr ⟨h', l', q, M, hsel, ?_, ?_, ?_⟩
      · simp only [selectedSize, hx, he.size, hE]
      · rw [he.size, hE]
        omega
      · simp only [mmMalloc, if_neg (show ¬ size = 0 by omega), hn, hfit, Option.bind_eq_bind,
          Option.bind_some, heq, ne_eq, not_true_eq_false, if_false, if_neg (hne0 hsel)]
        cases mark h' q n <;> rfl

/-- A successful call: a new client block `M` at `q`, everything else as before. -/
structure Allocated (h : Heap) (l : List Block) (h' : Heap) (l' : List Block) (q : ℕ)
    (M : Block) : Prop where
  wellFormed : WellFormed h' l'
  area : SameArea h h'
  brk : h.memBrk ≤ h'.memBrk
  rover : h'.lastBp = q
  alloc : M.alloc = true
  live : ∃ A B, clientBlocks h l = A ++ B ∧ clientBlocks h' l' = A ++ (q, M) :: B
  keeps : Keeps (clientBlocks h l) h.mem h'.mem

/-- The new block was not the client's before. -/
theorem Allocated.fresh {h h' : Heap} {l l' : List Block} {q : ℕ} {M : Block}
    (ha : Allocated h l h' l' q M) : q ∉ (clientBlocks h l).map Prod.fst := by
  obtain ⟨A, B, hold, hnew⟩ := ha.live
  have hnodup := liveBlocks_addresses_nodup (h'.startBp + 8) l'
  rw [← clientBlocks, hnew, List.map_append, List.map_cons, List.nodup_middle,
    List.nodup_cons, ← List.map_append, ← hold] at hnodup
  exact hnodup.1

theorem Allocated.mem_iff {h h' : Heap} {l l' : List Block} {q r : ℕ} {M c : Block}
    (ha : Allocated h l h' l' q M) :
    (r, c) ∈ clientBlocks h' l' ↔ (r, c) = (q, M) ∨ (r, c) ∈ clientBlocks h l := by
  obtain ⟨A, B, hold, hnew⟩ := ha.live
  rw [hnew, hold, List.mem_append, List.mem_cons, List.mem_append]
  tauto

theorem coalesced_replace {l₁ l₂ : List Block} {b M : Block}
    (hb : b.alloc = false) (hM : M.alloc = true) {rest : List Block}
    (hrest : rest = [] ∨ ∃ R, rest = [R]) (hco : Coalesced (l₁ ++ b :: l₂)) :
    Coalesced (l₁ ++ (M :: rest) ++ l₂) := by
  unfold Coalesced at *
  rw [List.isChain_append] at hco
  obtain ⟨h₁, h₂, h₁₂⟩ := hco
  have htail : l₂.IsChain (fun b c => b.alloc = true ∨ c.alloc = true) := h₂.tail
  have hhead : ∀ d ∈ l₂.head?, d.alloc = true := by
    intro d hd
    cases l₂ with
    | nil => simp at hd
    | cons c r =>
      obtain rfl : c = d := by simpa using hd
      simpa [hb] using (List.isChain_cons_cons.mp h₂).1
  rw [List.append_assoc, List.isChain_append]
  refine ⟨h₁, ?_, fun x _ y hy => ?_⟩
  · rcases hrest with rfl | ⟨R, rfl⟩
    · rw [List.singleton_append, List.isChain_cons]
      exact ⟨fun d hd => Or.inl hM, htail⟩
    · simp only [List.cons_append, List.nil_append, List.isChain_cons]
      exact ⟨fun _ _ => Or.inl hM, fun d hd => Or.inr (hhead d hd), htail⟩
  · obtain rfl : M = y := by simpa using hy
    exact Or.inr hM

/-- Marking the selected block gives the allocated block. -/
theorem allocated_of_marked {h₁ h₂ : Heap} {l₁ l₂ k r rest : List Block} {q : ℕ} {b M : Block}
    (hs : Selected h l h₁ l₁ q b) (hc : Cut h₁ l₁ q k (b :: r))
    (hm : Marked h₁ l₁ h₂ l₂ q b M) (hl₂ : prologue :: l₂ = k ++ (M :: rest) ++ r)
    (hrest : rest = [] ∨ ∃ R, rest = [R]) :
    Allocated h l { h₂ with lastBp := q } l₂ q M := by
  obtain ⟨A, B, hlive, hlive', hkeeps⟩ := hm.live
  rw [liveBlocks_cons_free hs.free, liveBlocks_nil, List.append_nil] at hlive
  have hfields : SameArea h₁ h₂ ∧ h₂.memBrk = h₁.memBrk := by
    rw [hm.fields]
    exact ⟨⟨rfl, rfl, rfl⟩, rfl⟩
  have hq : q = h₂.startBp + span k := by rw [hfields.1.start, hc.addr]
  refine {
    wellFormed := { toLaid := hm.laid.setLast q, coalesced := ?_, rover := ⟨M, ?_⟩ }
    area := hs.area.trans ⟨hfields.1.base, hfields.1.start, hfields.1.max⟩
    brk := by rw [hfields.2]; exact hs.brk
    rover := rfl
    alloc := hm.alloc
    live := ⟨A, B, hs.live.symm.trans hlive, hlive'⟩
    keeps := hs.keeps.trans ?_ }
  · rw [hl₂]
    exact coalesced_replace hs.free hm.alloc hrest (hc.split ▸ hs.coalesced)
  · rw [hl₂, List.append_assoc, List.cons_append]
    exact mem_placed.mpr ⟨k, rest ++ r, rfl, hq⟩
  · rw [← hs.live, hlive]
    exact hkeeps

theorem mark_selected {n : ℕ} {h₁ : Heap} {l₁ : List Block} {q : ℕ} {b : Block}
    (hs : Selected h l h₁ l₁ q b) (hn : 8 ∣ n) (h16 : 16 ≤ n) (hfit : n ≤ b.size) :
    ∃ h' l' M, (mark h₁ q n).map (fun h' => ({ h' with lastBp := q }, q)) = some (h', q) ∧
      Allocated h l h' l' q M ∧ M.size = (if n + 16 ≤ b.size then n else b.size) := by
  obtain ⟨k, r, hc, hne⟩ := hs.cut
  by_cases hroom : n + 16 ≤ b.size
  · have hnlt : n < b.size := by omega
    have hpos : 0 < n := by omega
    have hR16 : 16 ≤ (remainder b n hn hnlt).size := by
      simp only [remainder]
      omega
    have hsize : (front n hn hpos).size + (remainder b n hn hnlt).size = b.size := by
      simp only [front, remainder]
      omega
    obtain ⟨h', l', hmark, hl', hm⟩ := mark_split (M := front n hn hpos)
      (R := remainder b n hn hnlt) hs.laid hc hne rfl rfl h16 hR16 hsize
    refine ⟨_, l', _, ?_, allocated_of_marked hs hc hm hl' (Or.inr ⟨_, rfl⟩), ?_⟩
    · have hmark' : mark h₁ q n = some h' := hmark
      rw [hmark']
      rfl
    · rw [if_pos hroom]
      rfl
  · obtain ⟨kt, -, hl, -⟩ := clientBlocks_cut hc hne
    obtain ⟨h', l', hmark, hl', hm⟩ := mark_whole hs.laid hc hne (by rw [hl]; simp) hfit
      (by omega)
    refine ⟨_, l', _, ?_, allocated_of_marked hs hc hm hl' (Or.inl rfl), ?_⟩
    · rw [hmark]
      rfl
    · rw [if_neg hroom]
      rfl

def markedSize (n b : ℕ) : ℕ := if n + 16 ≤ b then n else b

theorem mmMalloc_spec (hw : WellFormed h l) (hpos : 1 ≤ size) (hlt : size + 15 < 2 ^ 32)
    (hover : ¬ Overruns h size) :
    (Refused h l (adjustedSize size) ∧ mmMalloc h size = some (h, null)) ∨
      ∃ h' l' q M, mmMalloc h size = some (h', q) ∧ q ≠ null ∧ Allocated h l h' l' q M ∧
        M.size = markedSize (adjustedSize size) (selectedSize h l (adjustedSize size)) ∧
        size + 8 ≤ M.size := by
  obtain ⟨hdvd, h16, hle, hge, h32⟩ := adjustedSize_spec hlt
  rcases mmMalloc_cases hw hpos hlt hover with hno | ⟨h₁, l₁, q, b, hs, hb, hfit, hmal⟩
  · exact Or.inl hno
  · obtain ⟨h', l', M, hmark, hall, hM⟩ := mark_selected hs hdvd h16 hfit
    have hq : q ≠ null := by
      obtain ⟨k, r, hc, -⟩ := hs.cut
      have := (hs.laid.bounds hc).1
      simp only [null]
      omega
    refine Or.inr ⟨h', l', q, M, hmal.trans hmark, hq, hall, ?_, ?_⟩
    · rw [hM, hb, markedSize]
    · rw [hM]
      split <;> omega

end Malloc

/-- After `mm_free` of the client block `b` at `p`: its bytes lie in a free block. -/
structure Freed (h : Heap) (l : List Block) (h' : Heap) (l' : List Block) (p : ℕ)
    (b : Block) : Prop where
  wellFormed : WellFormed h' l'
  area : SameArea h h'
  brk : h'.memBrk = h.memBrk
  live : ∃ A B, clientBlocks h l = A ++ (p, b) :: B ∧ clientBlocks h' l' = A ++ B ∧
    Keeps (A ++ B) h.mem h'.mem
  inside : ∃ q c, (q, c) ∈ placed (h'.startBp + 8) l' ∧ c.alloc = false ∧ q ≤ p ∧
    p + b.size ≤ q + c.size

/-- The remaining client blocks are those at another address. -/
theorem Freed.mem_iff {h h' : Heap} {l l' : List Block} {p q : ℕ} {b c : Block}
    (hf : Freed h l h' l' p b) :
    (q, c) ∈ clientBlocks h' l' ↔ q ≠ p ∧ (q, c) ∈ clientBlocks h l := by
  obtain ⟨A, B, hold, hnew, -⟩ := hf.live
  have hnodup := liveBlocks_addresses_nodup (h.startBp + 8) l
  rw [← clientBlocks, hold, List.map_append, List.map_cons, List.nodup_middle,
    List.nodup_cons, ← List.map_append, ← hnew] at hnodup
  have hin : (q, c) ∈ clientBlocks h l ↔ (q, c) = (p, b) ∨ (q, c) ∈ clientBlocks h' l' := by
    rw [hnew, hold, List.mem_append, List.mem_cons, List.mem_append]
    tauto
  constructor
  · intro hq
    refine ⟨?_, hin.mpr (Or.inr hq)⟩
    rintro rfl
    exact hnodup.1 (List.mem_map.mpr ⟨(q, c), hq, rfl⟩)
  · rintro ⟨hqp, hq⟩
    rcases hin.mp hq with heq | hq'
    · exact absurd (Prod.mk.inj heq).1 hqp
    · exact hq'

theorem Freed.keeps {h h' : Heap} {l l' : List Block} {p : ℕ} {b : Block}
    (hf : Freed h l h' l' p b) : Keeps (clientBlocks h' l') h.mem h'.mem := by
  obtain ⟨A, B, -, hnew, hkeeps⟩ := hf.live
  rwa [hnew]

section Free

variable {h : Heap} {l : List Block} {p : ℕ} {b : Block}

/-- The tags of a client block rewritten as free ones. -/
theorem free_stores {l₁ r : List Block} (hl : Laid h l) (hc : Cut h l p l₁ (b :: r))
    (hne : l₁ ≠ []) (hb : b.alloc = true) (h16 : 16 ≤ b.size) :
    ∃ l', prologue :: l' = l₁ ++ b.free :: r ∧
      Laid { h with mem := writeTags h.mem p b.free } l' ∧
      ∃ A B, clientBlocks h l = A ++ (p, b) :: B ∧ clientBlocks h l' = A ++ B ∧
        Keeps (A ++ B) h.mem (writeTags h.mem p b.free) := by
  obtain ⟨k, rfl, rfl, hp, hlive⟩ := clientBlocks_cut hc hne
  obtain ⟨hlo, hbrk, hlt, h8⟩ := hl.block_bounds hc
  have hsize : b.free.size = b.size := rfl
  have htag := b.free.tag_le
  have hout : SameOutside h.mem (writeTags h.mem p b.free) (p - 4) (p + b.size - 4) :=
    hsize ▸ writeTags_sameOutside (by omega)
  have hold : SameOutside h.mem (writeTags h.mem p b.free) (p - 4) (p + span [b] - 4) := by
    simpa using hout
  have hlaid : Laid { h with mem := writeTags h.mem p b.free } (k ++ b.free :: r) := by
    refine hl.replace hc (show span [b.free] = span [b] by simp) hold
      (tagged_writeTags (by omega) (by omega)) (by simp) ?_
    exact Laid.sixteen_le_replace [b] [b.free] hl.sixteen_le (List.forall_mem_singleton.mpr h16)
  refine ⟨k ++ b.free :: r, rfl, hlaid, liveBlocks (h.startBp + 8) k,
    liveBlocks (p + b.size) r, ?_, ?_, ?_⟩
  · rw [hlive, liveBlocks_cons_alloc hb]
    simp
  · rw [clientBlocks, liveBlocks_append, liveBlocks_cons_free b.free_alloc, ← hp, hsize]
  · exact Keeps.of_parts hout (by omega) (by omega)

/-- The merged block that `joinPrev` and `joinNext` produce covers `b`. -/
theorem merged_covers {a : ℕ} {d b : Block} {r : List Block} (hb : b.alloc = false) :
    ∃ c, (if d.alloc then a + d.size else a, c) ∈ placed a (joinPrev d (joinNext b r)) ∧
      c.alloc = false ∧
      a + d.size + b.size ≤ (if d.alloc then a + d.size else a) + c.size := by
  obtain ⟨c, r', hj, hc, -, hle, -⟩ := joinNext_cons hb r
  rw [hj, joinPrev]
  cases hd : d.alloc with
  | true => exact ⟨c, by simp, hc, by simpa using hle⟩
  | false =>
    refine ⟨d.join c, by simp, rfl, ?_⟩
    simp only [Bool.false_eq_true, if_false, Block.join_size]
    omega

theorem coalesced_left {l₁ r : List Block} {d b : Block}
    (hco : Coalesced (l₁ ++ d :: b :: r)) : Coalesced (l₁ ++ [d]) ∧ Coalesced r := by
  unfold Coalesced at *
  rw [← List.singleton_append (l := b :: r), ← List.append_assoc, List.isChain_append] at hco
  exact ⟨hco.1, hco.2.1.tail⟩

/-- The freed block is merged with its neighbours, of which the left one, `d`, may be the
prologue. -/
theorem mmFree_laid (hl : Laid h l) (hp : (p, b) ∈ clientBlocks h l) :
    ∃ k d r h' l₁ l', prologue :: l = k ++ d :: b :: r ∧ p = h.startBp + span k + d.size ∧
      mmFree h p = some h' ∧ prologue :: l₁ = k ++ d :: b.free :: r ∧
      prologue :: l' = k ++ joinPrev d (joinNext b.free r) ∧
      Merged { h with mem := writeTags h.mem p b.free } l₁ h' l'
        (if d.alloc then p else h.startBp + span k) ∧
      ∃ A B, clientBlocks h l = A ++ (p, b) :: B ∧ clientBlocks h l₁ = A ++ B ∧
        Keeps (A ++ B) h.mem (writeTags h.mem p b.free) := by
  obtain ⟨hmem, halloc⟩ := mem_liveBlocks.mp hp
  obtain ⟨k, r, rfl, hc⟩ := Cut.of_listed hmem
  obtain ⟨hlo, hbrk, hlt, h8⟩ := hl.block_bounds hc
  have h16 : 16 ≤ b.size := hl.sixteen_le b (by simp)
  obtain ⟨l₁, hl₁, hlaid, A, B, hlive, hlive₁, hkeeps⟩ :=
    free_stores hl hc (by simp) halloc h16
  obtain rfl := (List.cons.inj hl₁).2
  -- The block in front of `b`, possibly the prologue.
  obtain ⟨k', d, hkd⟩ : ∃ k' d, prologue :: k = k' ++ [d] :=
    ⟨_, _, (List.dropLast_append_getLast (List.cons_ne_nil prologue k)).symm⟩
  have hsplit : ∀ x : Block, k' ++ d :: x :: r = prologue :: (k ++ x :: r) := by
    intro x
    rw [← List.cons_append, hkd]
    simp
  have hpd : p = h.startBp + span k' + d.size := by
    rw [hc.addr, hkd, span_append, span_cons, span_nil]
    omega
  have hc' : Cut { h with mem := writeTags h.mem p b.free } (k ++ b.free :: r)
      (h.startBp + span k') k' (d :: b.free :: r) := ⟨(hsplit b.free).symm, rfl⟩
  obtain ⟨h', l', hcall, hl', hm⟩ := coalesce_laid hlaid hc' b.free_alloc h16
  rw [← hpd] at hcall hm
  have hfree : mmFree h p = some h' := by
    have hstores := put_tags (h := h) (a := p) (b := b.free)
      (k := fun h => (coalesce h p).bind fun r => some r.1)
      (show pack b.size 0 = b.free.tag by rw [pack_zero, Block.tag_of_free b.free_alloc]; rfl)
      (by omega) (show p + b.size ≤ _ by omega) (show p + b.size < _ by omega)
    simp only [Option.bind_eq_bind, hcall, Option.bind_some] at hstores
    simp only [mmFree, hl.getSize_header hc, Option.bind_eq_bind, Option.bind_some]
    exact hstores
  exact ⟨k', d, r, h', k ++ b.free :: r, l', (hsplit b).symm, hpd, hfree, (hsplit b.free).symm, hl',
    hm, A, B, hlive, hlive₁, hkeeps⟩

/-- `mm_free` before and during its `coalesce`, for a list that need not be
well formed in anything but its tags and neighbours. -/
theorem mmFree_spec (hl : Laid h l) (hco : Coalesced (prologue :: l))
    (hp : (p, b) ∈ clientBlocks h l) : ∃ h' l', mmFree h p = some h' ∧ Freed h l h' l' p b := by
  obtain ⟨k', d, r, h', l₁, l', hsplit, hpd, hfree, hl₁, hl', hm, A, B, hlive, hlive₁, hkeeps⟩ :=
    mmFree_laid hl hp
  obtain ⟨harea, hbrk', hlast⟩ := Merged.sameArea hm
  have hco' := coalesced_left (hsplit ▸ hco)
  obtain ⟨c, hcmem, hcfree, hcover⟩ :=
    merged_covers (a := h.startBp + span k') (d := d) (r := r) b.free_alloc
  rw [b.free_size, ← hpd] at hcover
  rw [← hpd] at hcmem
  have hplaced : ((if d.alloc then p else h.startBp + span k'), c) ∈
      placed h'.startBp (prologue :: l') := by
    rw [hl', harea.start, placed_append]
    exact List.mem_append_right _ hcmem
  refine ⟨h', l', hfree, ?_⟩
  refine {
    wellFormed := { toLaid := hm.laid, coalesced := ?_, rover := ⟨c, ?_⟩ }
    area := ⟨harea.base, harea.start, harea.max⟩
    brk := hbrk'
    live := ⟨A, B, hlive, hm.live.trans hlive₁, ?_⟩
    inside := ⟨_, c, ?_, hcfree, ?_, hcover⟩ }
  · obtain ⟨c', r', hj, hc'free, -, -, -, -, hchain⟩ := joinNext_cons b.free_alloc r
    rw [hl', hj]
    exact coalesced_joinPrev hc'free hco'.1 (hchain hco'.2)
  · rw [hlast]
    exact hplaced
  · exact hkeeps.trans (hlive₁ ▸ hm.keeps)
  · rw [placed_cons, List.mem_cons] at hplaced
    rcases hplaced with heq | hin
    · have := congrArg (fun x => x.2.alloc) heq
      simp [hcfree] at this
    · exact hin
  · split <;> omega

end Free

/-- The memory system before `mm_init`: no byte has been handed out. -/
structure Fresh (h : Heap) : Prop where
  base_dvd : 8 ∣ h.memStartBrk
  brk_eq : h.memBrk = h.memStartBrk
  brk_le : h.memBrk ≤ h.memMaxAddr
  max_lt : h.memMaxAddr < 2 ^ 32

section Init

variable {h : Heap}

def initMem (m : Memory) (p : ℕ) : Memory :=
  putWord (putWord (putWord (putWord m p 0) (p + 4) 9) (p + 8) 9) (p + 12) 1

theorem laid_initMem (hf : Fresh h) (hmax : h.memBrk + 16 ≤ h.memMaxAddr) :
    Laid { h with
      memBrk := h.memBrk + 16
      mem := initMem h.mem h.memBrk
      startBp := h.memBrk + 8 } [] := by
  have hb := hf.brk_eq
  refine {
    base_dvd := hf.base_dvd
    start_eq := by rw [hb]
    tagged := ⟨?_, ?_, trivial⟩
    brk_eq := rfl
    epilogue := word_putWord_self (by norm_num)
    brk_le := hmax
    max_lt := hf.max_lt
    sixteen_le := by simp
  }
  · simp only [initMem, show h.memBrk + 8 - 4 = h.memBrk + 4 by omega]
    rw [word_putWord_of_disjoint (by omega), word_putWord_of_disjoint (by omega),
      word_putWord_self (by norm_num)]
    rfl
  · simp only [initMem, prologue_size, show h.memBrk + 8 + 8 - 8 = h.memBrk + 8 by omega]
    rw [word_putWord_of_disjoint (by omega), word_putWord_self (by norm_num)]
    rfl

theorem init_puts {β : Type} {g : Heap} {k : Heap → Option β} (hlo : g.memStartBrk ≤ g.startBp)
    (hhi : g.startBp + 16 ≤ g.memBrk) (hlt : g.memBrk < 2 ^ 32) :
    (do let g ← g.put g.startBp 0
        let g ← g.put (add32 g.startBp (1 * wsize)) (pack dsize 1)
        let g ← g.put (add32 g.startBp (2 * wsize)) (pack dsize 1)
        let g ← g.put (add32 g.startBp (3 * wsize)) (pack 0 1)
        k g) = k { g with mem := initMem g.mem g.startBp } := by
  have hput : ∀ m i v, i ≤ 3 → Heap.put { g with mem := m } (add32 g.startBp (i * wsize)) v =
      some { g with mem := putWord m (g.startBp + i * 4) v } := by
    intro m i v hi
    have hadd : add32 g.startBp (i * wsize) = g.startBp + i * 4 :=
      add32_eq (show g.startBp + i * 4 < 2 ^ 32 by omega)
    rw [hadd]
    exact put_eq (show g.memStartBrk ≤ _ by omega) (show _ ≤ g.memBrk by omega)
  have hfirst : g.put g.startBp 0 = some { g with mem := putWord g.mem g.startBp 0 } :=
    put_eq hlo (by omega)
  simp only [hfirst, hput _ 1 _ (by norm_num), hput _ 2 _ (by norm_num), hput _ 3 _ (by norm_num),
    Option.bind_eq_bind, Option.bind_some]
  rfl

/-- `mm_init` up to its call of `extend_heap`. -/
theorem mmInit_stores (hf : Fresh h) (hmax : h.memBrk + 16 ≤ h.memMaxAddr) :
    mmInit h = (do
      let (h', bp) ← extendHeap { h with
        memBrk := h.memBrk + 16
        mem := initMem h.mem h.memBrk
        startBp := h.memBrk + 8 } (chunckSize / wsize)
      if bp = null then some (h', -1) else some ({ h' with lastBp := h'.startBp }, 0)) := by
  have hbrk := hf.brk_eq
  have hlt := hf.max_lt
  have hdvd := hf.base_dvd
  have hsb : memSbrk h (wsize <<< 2) = ({ h with memBrk := h.memBrk + 16 }, h.memBrk) := by
    simp only [memSbrk, wsize, show (4 : ℕ) <<< 2 = 16 by rfl,
      add32_eq (show h.memBrk + 16 < 2 ^ 32 by omega)]
    rw [if_neg (by omega)]
  have hne : h.memBrk ≠ minusOne := by
    simp only [minusOne]
    omega
  have hstart : add32 h.memBrk (wsize <<< 1) = h.memBrk + 8 :=
    add32_eq (show h.memBrk + 8 < 2 ^ 32 by omega)
  simp only [mmInit, hsb, if_neg hne]
  rw [init_puts (show h.memStartBrk ≤ h.memBrk by omega)
    (show h.memBrk + 16 ≤ h.memBrk + 16 by omega) (show h.memBrk + 16 < 2 ^ 32 by omega)]
  simp only [hstart]

/-- One of the two sums that `mm_init` makes `mem_sbrk` compute goes past the end of the
address space. -/
def InitWraps (h : Heap) : Prop :=
  2 ^ 32 ≤ h.memBrk + 16 ∨
    h.memBrk + 16 ≤ h.memMaxAddr ∧ 2 ^ 32 ≤ h.memBrk + 16 + chunckSize

theorem mmInit_wraps (hf : Fresh h) (hwrap : InitWraps h) : mmInit h = none := by
  have hbrk := hf.brk_eq
  have hle := hf.brk_le
  have hlt := hf.max_lt
  have hdvd := hf.base_dvd
  rcases hwrap with hwrap | ⟨hmax, hwrap⟩
  · have hsum : add32 h.memBrk 16 < h.memBrk := by
      rw [add32]
      omega
    have hno : ¬ (2 ^ 31 ≤ 16 ∨ h.memMaxAddr < add32 h.memBrk 16) := by omega
    have hne : h.memBrk ≠ minusOne := by
      simp only [minusOne]
      omega
    have hput : Heap.put { h with memBrk := add32 h.memBrk 16, startBp := h.memBrk } h.memBrk 0 =
        none :=
      put_wrapped (hle.trans_lt hlt) ⟨by norm_num, hwrap⟩ rfl (Nat.le_add_right _ _)
    simp only [mmInit, memSbrk, wsize, show (4 : ℕ) <<< 2 = 16 by rfl, if_neg hno, if_neg hne,
      hput, Option.bind_eq_bind, Option.bind_none]
  · have hlaid := laid_initMem hf hmax
    rw [mmInit_stores hf hmax, extendHeap_wrapped hlaid (by norm_num) ⟨by norm_num, hwrap⟩]
    rfl

/-- A successful `mm_init` leaves one free block. -/
theorem mmInit_spec (hf : Fresh h) (hno : ¬ InitWraps h) :
    (∃ h', mmInit h = some (h', -1)) ∨
      ∃ h' M, mmInit h = some (h', 0) ∧ WellFormed h' [M] ∧ M.alloc = false ∧
        h'.memStartBrk = h.memStartBrk := by
  rw [InitWraps, not_or, not_and] at hno
  obtain ⟨hno₁, hno₂⟩ := hno
  by_cases hmax : h.memMaxAddr < h.memBrk + 16
  · refine Or.inl ⟨{ h with startBp := minusOne }, ?_⟩
    simp only [mmInit, memSbrk, wsize, show (4 : ℕ) <<< 2 = 16 by rfl,
      add32_eq (show h.memBrk + 16 < 2 ^ 32 by omega),
      if_pos (Or.inr hmax : 2 ^ 31 ≤ 16 ∨ h.memMaxAddr < h.memBrk + 16), if_true]
  · have hlaid := laid_initMem hf (by omega)
    rw [mmInit_stores hf (by omega)]
    generalize hh : ({ h with
      memBrk := h.memBrk + 16
      mem := initMem h.mem h.memBrk
      startBp := h.memBrk + 8 } : Heap) = h₁ at hlaid ⊢
    have hbase : h₁.memStartBrk = h.memStartBrk := by rw [← hh]
    have hno₃ : ¬ Wraps h₁ chunckSize := by
      rw [← hh]
      exact fun hwrap => hno₂ (by omega) hwrap.2
    by_cases hno : Refuses h₁ chunckSize
    · refine Or.inl ⟨h₁, ?_⟩
      rw [extendHeap_refused (by norm_num) (by norm_num) hno]
      rfl
    · rw [refuses_iff hno₃] at hno
      let E : Block := ⟨chunckSize, false, by norm_num, by norm_num⟩
      have hE : E.size = chunckSize := rfl
      obtain ⟨h', l', q, M, heq, he⟩ := extendHeap_spec (E := E) hlaid
        (List.isChain_singleton prologue) rfl (by rw [hE]; norm_num) (by rw [hE]; norm_num)
        (by rw [hE]; omega)
      rw [hE] at heq
      obtain ⟨k, hk, hne, hq⟩ := he.last
      have hst := he.laid.start_eq
      have hq0 : q ≠ null := by
        simp only [null]
        omega
      -- Nothing but the prologue lies in front of the new block.
      obtain rfl : l' = [M] := by
        obtain ⟨c, k, rfl⟩ := List.exists_cons_of_ne_nil hne
        obtain ⟨rfl, hl'⟩ := List.cons.inj hk
        have hb := he.laid.brk_eq
        have hb₁ := hlaid.brk_eq
        have hbrk := he.brk
        have hsize : M.size = E.size := he.size
        have hstart := he.area.start
        rw [hk] at hb
        simp only [span_cons, span_append, span_nil] at hb hb₁
        have hlen := length_le_span k
        have hk0 : k = [] := List.length_eq_zero_iff.mp (by omega)
        rw [hl', hk0]
        rfl
      refine Or.inr ⟨{ h' with lastBp := h'.startBp }, M, ?_, ?_, he.free,
        he.area.base.trans hbase⟩
      · rw [heq]
        simp only [Option.bind_eq_bind, Option.bind_some, if_neg hq0]
      · exact {
          toLaid := he.laid.setLast _
          coalesced := he.coalesced
          rover := ⟨prologue, by simp⟩ }

end Init

end SystemSoftware.NextFitAllocate
