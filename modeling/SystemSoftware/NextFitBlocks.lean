import SystemSoftware.BoundaryTags
import SystemSoftware.NextFitHeap
import Mathlib.Tactic.NormNum

/-!
The block list of a next-fit heap. `Laid` says that the heap bytes spell out
a given list of tagged blocks, from the prologue at `start_bp` to the
epilogue word before `mem_brk`; `WellFormed` adds what the allocator keeps
between calls. The lemmas below read the macros of mm.c off the block list.
-/
namespace SystemSoftware.NextFitBlocks

open ByteMemory BoundaryTags NextFitHeap

def prologue : Block := ⟨8, true, by norm_num, by norm_num⟩

@[simp] theorem prologue_size : prologue.size = 8 := rfl
@[simp] theorem prologue_alloc : prologue.alloc = true := rfl

structure Laid (h : Heap) (l : List Block) : Prop where
  base_dvd : 8 ∣ h.memStartBrk
  start_eq : h.startBp = h.memStartBrk + 8
  tagged : Tagged h.mem h.startBp (prologue :: l)
  brk_eq : h.memBrk = h.startBp + span (prologue :: l)
  epilogue : word h.mem (h.memBrk - 4) = 1
  brk_le : h.memBrk ≤ h.memMaxAddr
  max_lt : h.memMaxAddr < 2 ^ 32
  sixteen_le : ∀ b ∈ l, 16 ≤ b.size

def Coalesced (l : List Block) : Prop :=
  l.IsChain (fun b c => b.alloc = true ∨ c.alloc = true)

def OnBoundary (h : Heap) (l : List Block) (p : ℕ) : Prop :=
  ∃ b, (p, b) ∈ placed h.startBp (prologue :: l)

structure WellFormed (h : Heap) (l : List Block) : Prop extends Laid h l where
  coalesced : Coalesced (prologue :: l)
  rover : OnBoundary h l h.lastBp

def clientBlocks (h : Heap) (l : List Block) : List (ℕ × Block) :=
  liveBlocks (h.startBp + 8) l

theorem size_bits {w : ℕ} (hw : w < 2 ^ 32) : w &&& notSeven = w - w % 8 :=
  and_high_bits hw (show 3 ≤ 32 by norm_num)

@[simp] theorem pack_zero (s : ℕ) : pack s 0 = s := Nat.or_zero s

theorem pack_one {s : ℕ} (hs : 8 ∣ s) : pack s 1 = s + 1 := by
  obtain ⟨k, rfl⟩ := hs
  exact (Nat.two_pow_add_eq_or_of_lt (show 1 < 2 ^ 3 by norm_num) k).symm

theorem tag_size_bits {b : Block} (hb : b.tag < 2 ^ 32) : b.tag &&& notSeven = b.size := by
  have hd := b.size_dvd
  rw [size_bits hb]
  unfold Block.tag
  cases b.alloc <;> simp only [Bool.toNat_true, Bool.toNat_false] <;> omega

theorem tag_alloc_bit (b : Block) : b.tag &&& 1 = b.alloc.toNat := by
  have hd := b.size_dvd
  rw [Nat.and_one_is_mod]
  unfold Block.tag
  cases b.alloc <;> simp only [Bool.toNat_true, Bool.toNat_false] <;> omega

theorem headerP_eq {bp : ℕ} (h4 : 4 ≤ bp) (hbp : bp < 2 ^ 32) : headerP bp = bp - 4 :=
  sub32_eq h4 hbp

theorem get_eq {h : Heap} {p : ℕ} (hlo : h.memStartBrk ≤ p) (hhi : p + 4 ≤ h.memBrk) :
    h.get p = some (word h.mem p) :=
  if_pos ⟨hlo, hhi⟩

theorem put_eq {h : Heap} {p v : ℕ} (hlo : h.memStartBrk ≤ p) (hhi : p + 4 ≤ h.memBrk) :
    h.put p v = some { h with mem := putWord h.mem p v } :=
  if_pos ⟨hlo, hhi⟩

def nextTag : List Block → ℕ
  | [] => 1
  | b :: _ => b.tag

/-- The boundary at address `a` has the blocks `l₁` in front of it and `l₂` behind. -/
structure Cut (h : Heap) (l : List Block) (a : ℕ) (l₁ l₂ : List Block) : Prop where
  split : prologue :: l = l₁ ++ l₂
  addr : a = h.startBp + span l₁

namespace Cut

variable {h : Heap} {l l₁ l₂ : List Block} {a : ℕ} {b : Block}

theorem start (h : Heap) (l : List Block) : Cut h l h.startBp [] (prologue :: l) :=
  ⟨rfl, rfl⟩

theorem next (hc : Cut h l a l₁ (b :: l₂)) : Cut h l (a + b.size) (l₁ ++ [b]) l₂ :=
  ⟨by rw [hc.split, List.append_assoc, List.singleton_append],
    by rw [hc.addr, span_append, span_cons, span_nil, Nat.add_zero, Nat.add_assoc]⟩

theorem of_placed (hb : (a, b) ∈ placed h.startBp (prologue :: l)) :
    ∃ l₁ l₂, Cut h l a l₁ (b :: l₂) := by
  obtain ⟨l₁, l₂, hsplit, ha⟩ := mem_placed.mp hb
  exact ⟨l₁, l₂, hsplit, ha⟩

/-- A listed block is behind the prologue. -/
theorem of_listed (hb : (a, b) ∈ placed (h.startBp + 8) l) :
    ∃ k r, l = k ++ b :: r ∧ Cut h l a (prologue :: k) (b :: r) := by
  obtain ⟨k, r, rfl, ha⟩ := BoundaryTags.mem_placed.mp hb
  exact ⟨k, r, rfl, rfl, by rw [ha, span_cons, prologue_size, Nat.add_assoc]⟩

theorem mem_placed (hc : Cut h l a l₁ (b :: l₂)) : (a, b) ∈ placed h.startBp (prologue :: l) :=
  BoundaryTags.mem_placed.mpr ⟨l₁, l₂, hc.split, hc.addr⟩

/-- A boundary behind the prologue splits the list without it. -/
theorem tail (hc : Cut h l a l₁ l₂) (hne : l₁ ≠ []) : ∃ k, l₁ = prologue :: k ∧ l = k ++ l₂ := by
  cases l₁ with
  | nil => exact absurd rfl hne
  | cons c k =>
    obtain ⟨rfl, hl⟩ := List.cons.inj hc.split
    exact ⟨k, rfl, hl⟩

end Cut

namespace Laid

variable {h : Heap} {l l₁ l₂ : List Block} {a : ℕ} {b c : Block}

/-- The header in front of NULL is not in the heap. -/
theorem get_null (hl : Laid h l) : h.get (headerP null) = none := by
  have hlt := hl.brk_le.trans_lt hl.max_lt
  rw [Heap.get, if_neg]
  simp only [headerP, sub32, null, wsize]
  omega

theorem start_dvd (hl : Laid h l) : 8 ∣ h.startBp := by
  have hb := hl.base_dvd
  have hs := hl.start_eq
  omega

/-- Where a boundary lies in the heap. -/
theorem bounds (hl : Laid h l) (hc : Cut h l a l₁ l₂) :
    h.memStartBrk + 8 ≤ a ∧ a + span l₂ = h.memBrk ∧ h.memBrk < 2 ^ 32 := by
  have hbrk := hl.brk_eq
  have hst := hl.start_eq
  have ha := hc.addr
  rw [hc.split, span_append] at hbrk
  exact ⟨by omega, by omega, hl.brk_le.trans_lt hl.max_lt⟩

theorem block_bounds (hl : Laid h l) (hc : Cut h l a l₁ (b :: l₂)) :
    h.memStartBrk + 8 ≤ a ∧ a + b.size + span l₂ = h.memBrk ∧ h.memBrk < 2 ^ 32 ∧
      8 ≤ b.size := by
  obtain ⟨hlo, hbrk, hlt⟩ := hl.bounds hc
  rw [span_cons, ← Nat.add_assoc] at hbrk
  exact ⟨hlo, hbrk, hlt, b.eight_le⟩

theorem tagged_cut (hl : Laid h l) (hc : Cut h l a l₁ l₂) : Tagged h.mem a l₂ := by
  have ht := hl.tagged
  rw [hc.split] at ht
  rw [hc.addr]
  exact (tagged_append.mp ht).2

/-- The word in front of any boundary is the tag of what follows it. -/
theorem get_boundary (hl : Laid h l) (hc : Cut h l a l₁ l₂) :
    h.get (headerP a) = some (nextTag l₂) := by
  have ht := hl.tagged_cut hc
  cases l₂ with
  | nil =>
    obtain ⟨hlo, hbrk, hlt⟩ := hl.bounds hc
    rw [span_nil, Nat.add_zero] at hbrk
    rw [headerP_eq (by omega) (by omega), get_eq (by omega) (by omega), hbrk, hl.epilogue]
    rfl
  | cons b r =>
    obtain ⟨hlo, hbrk, hlt, h8⟩ := hl.block_bounds hc
    rw [headerP_eq (by omega) (by omega), get_eq (by omega) (by omega), ht.1]
    rfl

/-- The last word before the next block's header is the footer. -/
theorem get_footer (hl : Laid h l) (hc : Cut h l a l₁ (b :: l₂)) :
    h.get (a + b.size - 8) = some b.tag := by
  obtain ⟨hlo, hbrk, hlt, h8⟩ := hl.block_bounds hc
  rw [get_eq (by omega) (by omega), (hl.tagged_cut hc).2.1]

theorem tag_lt (hl : Laid h l) (hc : Cut h l a l₁ (b :: l₂)) : b.tag < 2 ^ 32 := by
  obtain ⟨hlo, hbrk, hlt, h8⟩ := hl.block_bounds hc
  have ht := b.tag_le
  omega

theorem getSize_header (hl : Laid h l) (hc : Cut h l a l₁ (b :: l₂)) :
    getSize h (headerP a) = some b.size := by
  simp [getSize, hl.get_boundary hc, nextTag, tag_size_bits (hl.tag_lt hc)]

theorem isItAlloc_header (hl : Laid h l) (hc : Cut h l a l₁ (b :: l₂)) :
    isItAlloc h (headerP a) = some b.alloc.toNat := by
  simp only [isItAlloc, hl.get_boundary hc, nextTag, Option.pure_def, Option.bind_eq_bind,
    Option.bind_some, tag_alloc_bit]

theorem isItAlloc_footer (hl : Laid h l) (hc : Cut h l a l₁ (b :: l₂)) :
    isItAlloc h (a + b.size - 8) = some b.alloc.toNat := by
  simp only [isItAlloc, hl.get_footer hc, Option.pure_def, Option.bind_eq_bind,
    Option.bind_some, tag_alloc_bit]

theorem isItAlloc_epilogue (hl : Laid h l) (hc : Cut h l a l₁ []) :
    isItAlloc h (headerP a) = some 1 := by
  simp only [isItAlloc, hl.get_boundary hc, nextTag]
  rfl

theorem getSize_epilogue (hl : Laid h l) (hc : Cut h l a l₁ []) :
    getSize h (headerP a) = some 0 := by
  simp only [getSize, hl.get_boundary hc, nextTag]
  rfl

theorem nextBlockBp_eq (hl : Laid h l) (hc : Cut h l a l₁ (b :: l₂)) :
    nextBlockBp h a = some (a + b.size) := by
  obtain ⟨hlo, hbrk, hlt, h8⟩ := hl.block_bounds hc
  simp [nextBlockBp, hl.getSize_header hc, add32_eq (show a + b.size < 2 ^ 32 by omega)]

end Laid

namespace Laid

variable {h : Heap} {l l' l₁ l₂ old new : List Block} {a : ℕ} {m' : Memory}

theorem setLast (hl : Laid h l) (q : ℕ) : Laid { h with lastBp := q } l where
  __ := hl

/-- A stretch of blocks is replaced by blocks that are large enough. -/
theorem sixteen_le_replace {k r : List Block} (old new : List Block)
    (hold : ∀ b ∈ k ++ (old ++ r), 16 ≤ b.size) (hnew : ∀ b ∈ new, 16 ≤ b.size) :
    ∀ b ∈ k ++ (new ++ r), 16 ≤ b.size := by
  intro d hd
  rcases List.mem_append.mp hd with hd | hd
  · exact hold d (List.mem_append_left _ hd)
  rcases List.mem_append.mp hd with hd | hd
  · exact hnew d hd
  · exact hold d (List.mem_append_right _ (List.mem_append_right _ hd))

/-- Rewriting a stretch of blocks in place. -/
theorem replace (hl : Laid h l) (hc : Cut h l a l₁ (old ++ l₂)) (hspan : span new = span old)
    (hframe : SameOutside h.mem m' (a - 4) (a + span old - 4)) (hnew : Tagged m' a new)
    (hl' : prologue :: l' = l₁ ++ new ++ l₂) (hsize : ∀ b ∈ l', 16 ≤ b.size) :
    Laid { h with mem := m' } l' := by
  obtain ⟨hlo, hbrk, hlt⟩ := hl.bounds hc
  rw [span_append, ← Nat.add_assoc] at hbrk
  have ha := hc.addr
  refine {
    base_dvd := hl.base_dvd
    start_eq := hl.start_eq
    tagged := ?_
    brk_eq := ?_
    epilogue := ?_
    brk_le := hl.brk_le
    max_lt := hl.max_lt
    sixteen_le := hsize
  }
  · have ht := hl.tagged
    rw [hc.split, ← List.append_assoc] at ht
    rw [hl']
    subst ha
    have hst := hl.start_eq
    exact ht.replace (show 4 ≤ h.startBp by omega) hspan hframe hnew
  · rw [hl']
    simp only [span_append]
    omega
  · rw [← hl.epilogue]
    have hs : SameOn h.mem m' (a + span old - 4) h.memBrk := hframe.sameOn (Or.inr le_rfl)
    exact word_congr hs (show _ ≤ h.memBrk - 4 by omega) (show h.memBrk - 4 + 4 ≤ _ by omega)

end Laid

/-- Writes between the two tags of a block. -/
theorem Laid.payload {h : Heap} {l : List Block} {p : ℕ} {b : Block} {m' : Memory}
    (hl : Laid h l) (hb : (p, b) ∈ placed (h.startBp + 8) l)
    (hm : SameOutside h.mem m' p (p + b.size - 8)) : Laid { h with mem := m' } l := by
  obtain ⟨k, r, rfl, hcut⟩ := Cut.of_listed hb
  have hc : Cut h (k ++ b :: r) p (prologue :: k) ([b] ++ r) := hcut
  obtain ⟨hlow, hbrk, hlt, h8⟩ := hl.block_bounds hc
  have ht := hl.tagged_cut hc
  have hframe : SameOutside h.mem m' (p - 4) (p + span [b] - 4) :=
    hm.mono (by omega) (by simp only [span_cons, span_nil]; omega)
  have hhead : SameOn h.mem m' (p - 4) p := hm.sameOn (Or.inl le_rfl)
  have hfoot : SameOn h.mem m' (p + b.size - 8) (p + b.size - 4) := hm.sameOn (Or.inr le_rfl)
  refine hl.replace hc rfl hframe ⟨?_, ?_, trivial⟩ (by simp) hl.sixteen_le
  · rw [word_congr hhead le_rfl (by omega), ht.1]
  · rw [word_congr hfoot le_rfl (by omega), ht.2.1]

def Keeps (live : List (ℕ × Block)) (m m' : Memory) : Prop :=
  ∀ q c, (q, c) ∈ live → SameOn m m' q (q + c.size - 8)

theorem Keeps.trans {live : List (ℕ × Block)} {m₁ m₂ m₃ : Memory} (h₁ : Keeps live m₁ m₂)
    (h₂ : Keeps live m₂ m₃) : Keeps live m₁ m₃ :=
  fun q c hq => (h₁ q c hq).trans (h₂ q c hq)

theorem Keeps.refl (live : List (ℕ × Block)) (m : Memory) : Keeps live m m :=
  fun _ _ _ => SameOn.refl _ _ _

/-- Writes inside one placed block keep the payloads of the blocks beside it. -/
theorem Keeps.of_sameOutside {live : List (ℕ × Block)} {m m' : Memory} {lo hi : ℕ}
    (hm : SameOutside m m' lo hi)
    (hd : ∀ q c, (q, c) ∈ live → q + c.size ≤ lo + 4 ∨ hi ≤ q) : Keeps live m m' := by
  intro q c hq
  rcases hd q c hq with h | h
  · exact hm.sameOn (Or.inl (by omega))
  · exact hm.sameOn (Or.inr (by omega))

/-- Stores between two parts of the heap keep the blocks in both. -/
theorem Keeps.of_parts {m m' : Memory} {lo hi s e : ℕ} {k r : List Block}
    (hout : SameOutside m m' lo hi) (hlo : s + span k ≤ lo + 4) (hhi : hi ≤ e) :
    Keeps (liveBlocks s k ++ liveBlocks e r) m m' := by
  apply Keeps.of_sameOutside hout
  intro q c hq
  rw [List.mem_append, mem_liveBlocks, mem_liveBlocks] at hq
  rcases hq with hq | hq
  · have hend := (placed_bounds hq.1).2
    left
    omega
  · have hstart := (placed_bounds hq.1).1
    right
    omega

/-- `FOOTER_P` from a header word whose size bits are `s`. -/
theorem footerP_eq {h : Heap} {a s : ℕ} (hs : getSize h (headerP a) = some s)
    (h8 : 8 ≤ a + s) (hlt : a + s < 2 ^ 32) : footerP h a = some (a + s - 8) := by
  have h₁ : sub32 (a + s) wsize = a + s - 4 := sub32_eq (show 4 ≤ _ by omega) hlt
  have h₂ : sub32 (a + s - 4) wsize = a + s - 4 - 4 := sub32_eq (show 4 ≤ _ by omega) (by omega)
  simp only [footerP, hs, Option.pure_def, Option.bind_eq_bind, Option.bind_some,
    add32_eq hlt, h₁, h₂]
  rw [Nat.sub_sub]

namespace Laid

variable {h : Heap} {l l₁ l₂ : List Block} {a : ℕ} {b : Block}

theorem footerP_cut (hl : Laid h l) (hc : Cut h l a l₁ (b :: l₂)) :
    footerP h a = some (a + b.size - 8) := by
  obtain ⟨hlo, hbrk, hlt, h8⟩ := hl.block_bounds hc
  exact footerP_eq (hl.getSize_header hc) (by omega) (by omega)

end Laid

theorem get_with_mem {h : Heap} {m' : Memory} {p : ℕ} (hw : word m' p = word h.mem p) :
    Heap.get { h with mem := m' } p = h.get p := by
  simp only [Heap.get, hw]

theorem getSize_with_mem {h : Heap} {m' : Memory} {p : ℕ} (hw : word m' p = word h.mem p) :
    getSize { h with mem := m' } p = getSize h p := by
  simp only [getSize, get_with_mem hw]

/-- The header at `a` after `v` was stored there. -/
theorem getSize_stored {h : Heap} {m' : Memory} {a v s : ℕ} (hv : word m' (a - 4) = v)
    (hs : v &&& notSeven = s) (hlo : h.memStartBrk + 4 ≤ a) (hhi : a ≤ h.memBrk)
    (hlt : a < 2 ^ 32) : getSize { h with mem := m' } (headerP a) = some s := by
  have hhead : headerP a = a - 4 := headerP_eq (by omega) hlt
  have hg : Heap.get { h with mem := m' } (a - 4) = some v :=
    (get_eq (h := { h with mem := m' }) (show h.memStartBrk ≤ a - 4 by omega)
      (show a - 4 + 4 ≤ h.memBrk by omega)).trans (congrArg some hv)
  simp [getSize, hhead, hg, hs]

/-- Writing a word `v` into the header at `a` and into the footer it points to. -/
theorem put_header_footer {β : Type} {h : Heap} {a v s : ℕ} {k : Heap → Option β}
    (hs : v &&& notSeven = s) (hv : v < 2 ^ 32) (h8 : 8 ≤ s) (hlo : h.memStartBrk + 4 ≤ a)
    (hhi : a + s ≤ h.memBrk + 4) (hlt : a + s < 2 ^ 32) :
    (do let h₁ ← h.put (headerP a) v
        let f ← footerP h₁ a
        let h₂ ← h₁.put f v
        k h₂) =
      k { h with mem := putWord (putWord h.mem (a - 4) v) (a + s - 8) v } := by
  have hhead : headerP a = a - 4 := headerP_eq (by omega) (by omega)
  have hput : h.put (headerP a) v = some { h with mem := putWord h.mem (a - 4) v } := by
    rw [hhead]
    exact put_eq (by omega) (by omega)
  have hfoot : footerP { h with mem := putWord h.mem (a - 4) v } a = some (a + s - 8) :=
    footerP_eq (getSize_stored (word_putWord_self hv) hs hlo (by omega) (by omega))
      (by omega) hlt
  have hput₂ : Heap.put { h with mem := putWord h.mem (a - 4) v } (a + s - 8) v =
      some { h with mem := putWord (putWord h.mem (a - 4) v) (a + s - 8) v } :=
    put_eq (by simp only; omega) (by simp only; omega)
  simp only [hput, hfoot, hput₂, Option.bind_eq_bind, Option.bind_some]

/-- The same for the two tags of a block. -/
theorem put_tags {β : Type} {h : Heap} {a v : ℕ} {b : Block} {k : Heap → Option β}
    (hv : v = b.tag) (hlo : h.memStartBrk + 4 ≤ a)
    (hhi : a + b.size ≤ h.memBrk + 4) (hlt : a + b.size < 2 ^ 32) :
    (do let h₁ ← h.put (headerP a) v
        let f ← footerP h₁ a
        let h₂ ← h₁.put f v
        k h₂) = k { h with mem := writeTags h.mem a b } := by
  subst hv
  have htag : b.tag < 2 ^ 32 := by
    have ht := b.tag_le
    have h8 := b.eight_le
    omega
  exact put_header_footer (tag_size_bits htag) htag b.eight_le hlo hhi hlt

end SystemSoftware.NextFitBlocks
