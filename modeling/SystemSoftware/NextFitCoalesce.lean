import SystemSoftware.NextFitBlocks

/-!
Coalescing a free block with its free neighbours. The four cases of
`coalesce` read and overwrite each other's tags in different orders; each is
shown to leave exactly the two tags of the merged block, and together they
compute one operation on the block list.
-/
namespace SystemSoftware.NextFitCoalesce

open ByteMemory BoundaryTags NextFitHeap NextFitBlocks

def joinNext (b : Block) : List Block → List Block
  | [] => [b]
  | n :: r => if n.alloc then b :: n :: r else b.join n :: r

def joinPrev (p : Block) : List Block → List Block
  | [] => [p]
  | b :: r => if p.alloc then p :: b :: r else p.join b :: r

/-- The size of a free block over two or three blocks survives the mask. -/
theorem join_bits {b c : Block} (hlt : b.size + c.size < 2 ^ 32) :
    (b.size + c.size) &&& notSeven = b.size + c.size := by
  have hd := Nat.dvd_add b.size_dvd c.size_dvd
  rw [size_bits hlt]
  omega

/-- What `coalesce` reads in front of and at the block `b` that follows `p`. -/
structure Around (h : Heap) (a : ℕ) (p b : Block) : Prop where
  lo : h.memStartBrk + 8 ≤ a
  hi : a + p.size + b.size ≤ h.memBrk
  lt : h.memBrk < 2 ^ 32
  prevSize : getSize h (a + p.size - 8) = some p.size
  prevAlloc : ∃ f, footerP h a = some f ∧ isItAlloc h f = some p.alloc.toNat
  prevHeader : p.alloc = false → getSize h (headerP a) = some p.size
  header : getSize h (headerP (a + p.size)) = some b.size

namespace Around

variable {h : Heap} {a : ℕ} {p b : Block}

theorem prevBlockBp_eq (ha : Around h a p b) : prevBlockBp h (a + p.size) = some a := by
  have hp8 := p.eight_le
  have hlo := ha.lo
  have hhi := ha.hi
  have hlt := ha.lt
  have hd : sub32 (a + p.size) dsize = a + p.size - 8 :=
    sub32_eq (show 8 ≤ _ by omega) (by omega)
  simp only [prevBlockBp, hd, ha.prevSize, Option.pure_def, Option.bind_eq_bind,
    Option.bind_some, Option.some.injEq]
  rw [sub32_eq (by omega) (by omega), Nat.add_sub_cancel]

theorem nextBlockBp_eq (ha : Around h a p b) :
    nextBlockBp h (a + p.size) = some (a + p.size + b.size) := by
  have hhi := ha.hi
  have hlt := ha.lt
  simp only [nextBlockBp, ha.header, Option.pure_def, Option.bind_eq_bind, Option.bind_some,
    add32_eq (show a + p.size + b.size < 2 ^ 32 by omega)]

theorem footerP_block (ha : Around h a p b) :
    footerP h (a + p.size) = some (a + p.size + b.size - 8) := by
  have hb8 := b.eight_le
  have hhi := ha.hi
  have hlt := ha.lt
  exact NextFitBlocks.footerP_eq ha.header (by omega) (by omega)

end Around

structure FreeAt (h : Heap) (e n : ℕ) : Prop where
  hi : e + n ≤ h.memBrk
  alloc : isItAlloc h (headerP e) = some 0
  size : getSize h (headerP e) = some n

section Cases

variable {h : Heap} {a : ℕ} {p b n : Block}

theorem coalesce_alloc_alloc (ha : Around h a p b) (hp : p.alloc = true)
    (hn : isItAlloc h (headerP (a + p.size + b.size)) = some 1) :
    coalesce h (a + p.size) = some ({ h with lastBp := a + p.size }, a + p.size) := by
  obtain ⟨f, hf, hfa⟩ := ha.prevAlloc
  simp [coalesce, ha.prevBlockBp_eq, hf, hfa, ha.nextBlockBp_eq, ha.header, hn, hp]

theorem coalesce_alloc_free (ha : Around h a p b) (hp : p.alloc = true)
    (hn : FreeAt h (a + p.size + b.size) n.size) :
    coalesce h (a + p.size) =
      some ({ h with mem := writeTags h.mem (a + p.size) (b.join n), lastBp := a + p.size },
        a + p.size) := by
  obtain ⟨f, hf, hfa⟩ := ha.prevAlloc
  have hlo := ha.lo
  have hhi := hn.hi
  have hlt := ha.lt
  have hb8 := b.eight_le
  have hadd : add32 b.size n.size = b.size + n.size := add32_eq (by omega)
  have hput := put_header_footer (h := h) (a := a + p.size) (v := b.size + n.size)
    (k := fun h => some ({ h with lastBp := a + p.size }, a + p.size))
    (join_bits (by omega)) (by omega) (by omega) (by omega) (by omega) (by omega)
  simp only [Option.bind_eq_bind] at hput
  simp only [coalesce, ha.prevBlockBp_eq, hf, hfa, ha.nextBlockBp_eq, ha.header, hn.alloc,
    hn.size, hp, Option.bind_eq_bind, Option.bind_some, hadd, pack_zero, Bool.toNat_true]
  rw [if_neg (by decide), if_pos (by decide), hput]
  simp [writeTags, Block.tag]

/-- The footer is written before the header. -/
theorem coalesce_free_alloc (ha : Around h a p b) (hp : p.alloc = false)
    (hn : isItAlloc h (headerP (a + p.size + b.size)) = some 1) :
    coalesce h (a + p.size) =
      some ({ h with mem := writeTags h.mem a (p.join b), lastBp := a }, a) := by
  obtain ⟨f, hf, hfa⟩ := ha.prevAlloc
  have hlo := ha.lo
  have hhi := ha.hi
  have hlt := ha.lt
  have hb8 := b.eight_le
  have hp8 := p.eight_le
  have hadd : add32 b.size p.size = b.size + p.size := add32_eq (by omega)
  have hdsize : sub32 (a + p.size) dsize = a + p.size - 8 :=
    sub32_eq (show 8 ≤ _ by omega) (by omega)
  have hhead : headerP a = a - 4 := headerP_eq (by omega) (by omega)
  have hsize : getSize h (a - 4) = some p.size := hhead ▸ ha.prevHeader hp
  -- Neither write touches the footer of the block in front.
  have hfoot : h.put (a + p.size + b.size - 8) (b.size + p.size) =
      some { h with mem := putWord h.mem (a + p.size + b.size - 8) (b.size + p.size) } :=
    put_eq (by omega) (by omega)
  have hprev₁ : prevBlockBp
      { h with mem := putWord h.mem (a + p.size + b.size - 8) (b.size + p.size) }
      (a + p.size) = some a := by
    rw [← ha.prevBlockBp_eq]
    simp only [prevBlockBp, hdsize]
    rw [getSize_with_mem (word_putWord_of_disjoint (by omega))]
  have hheader : Heap.put
      { h with mem := putWord h.mem (a + p.size + b.size - 8) (b.size + p.size) }
      (a - 4) (b.size + p.size) =
      some { h with mem := writeTags h.mem a (p.join b) } := by
    rw [put_eq (by simp only; omega) (by simp only; omega)]
    simp only [writeTags, Block.tag, Block.join_size, Block.join_alloc, Bool.toNat_false,
      Nat.add_zero]
    rw [putWord_comm (by omega), Nat.add_comm b.size, Nat.add_assoc a]
  have hprev₂ : prevBlockBp { h with mem := writeTags h.mem a (p.join b) } (a + p.size) =
      some a := by
    rw [← ha.prevBlockBp_eq]
    simp only [prevBlockBp, hdsize, writeTags, Block.join_size]
    rw [getSize_with_mem]
    rw [word_putWord_of_disjoint (by omega), word_putWord_of_disjoint (by omega)]
  simp only [coalesce, ha.prevBlockBp_eq, hf, hfa, ha.nextBlockBp_eq, ha.header,
    ha.footerP_block, hhead, hsize, hn, hp, Option.bind_eq_bind, Option.bind_some, hadd,
    pack_zero, Bool.toNat_false, hfoot, hprev₁, hheader, hprev₂]
  simp

theorem coalesce_free_free (ha : Around h a p b) (hp : p.alloc = false)
    (hn : FreeAt h (a + p.size + b.size) n.size) :
    coalesce h (a + p.size) =
      some ({ h with mem := writeTags h.mem a (p.join (b.join n)), lastBp := a }, a) := by
  obtain ⟨f, hf, hfa⟩ := ha.prevAlloc
  have hlo := ha.lo
  have hhi := hn.hi
  have hlt := ha.lt
  have hb8 := b.eight_le
  have hn8 := n.eight_le
  have hp8 := p.eight_le
  have hadd : add32 b.size (add32 n.size p.size) = b.size + (n.size + p.size) := by
    rw [add32_eq (show n.size + p.size < 2 ^ 32 by omega), add32_eq (by omega)]
  have hdsize : sub32 (a + p.size) dsize = a + p.size - 8 :=
    sub32_eq (show 8 ≤ _ by omega) (by omega)
  have hhead : headerP a = a - 4 := headerP_eq (by omega) (by omega)
  have hsize : getSize h (a - 4) = some p.size := hhead ▸ ha.prevHeader hp
  have hheadb : headerP (a + p.size) = a + p.size - 4 := headerP_eq (by omega) (by omega)
  have hheadn : headerP (a + p.size + b.size) = a + p.size + b.size - 4 :=
    headerP_eq (by omega) (by omega)
  have hheader : h.put (a - 4) (b.size + (n.size + p.size)) =
      some { h with mem := putWord h.mem (a - 4) (b.size + (n.size + p.size)) } :=
    put_eq (by omega) (by omega)
  -- The new header leaves the tags of `b` and `n` and the footer of `p` readable.
  have hnext : nextBlockBp { h with mem := putWord h.mem (a - 4) (b.size + (n.size + p.size)) }
      (a + p.size) = some (a + p.size + b.size) := by
    rw [← ha.nextBlockBp_eq]
    simp only [nextBlockBp, hheadb]
    rw [getSize_with_mem (word_putWord_of_disjoint (by omega))]
  have hfootn : footerP { h with mem := putWord h.mem (a - 4) (b.size + (n.size + p.size)) }
      (a + p.size + b.size) = some (a + p.size + b.size + n.size - 8) := by
    rw [← NextFitBlocks.footerP_eq hn.size (show 8 ≤ _ by omega) (by omega)]
    simp only [footerP, hheadn]
    rw [getSize_with_mem (word_putWord_of_disjoint (by omega))]
  have hfooter : Heap.put
      { h with mem := putWord h.mem (a - 4) (b.size + (n.size + p.size)) }
      (a + p.size + b.size + n.size - 8) (b.size + (n.size + p.size)) =
      some { h with mem := writeTags h.mem a (p.join (b.join n)) } := by
    rw [put_eq (by simp only; omega) (by simp only; omega)]
    simp only [writeTags, Block.tag, Block.join_size, Block.join_alloc, Bool.toNat_false,
      Nat.add_zero]
    rw [show b.size + (n.size + p.size) = p.size + (b.size + n.size) by omega,
      show a + p.size + b.size + n.size - 8 = a + (p.size + (b.size + n.size)) - 8 by omega]
  have hprev : prevBlockBp { h with mem := writeTags h.mem a (p.join (b.join n)) }
      (a + p.size) = some a := by
    rw [← ha.prevBlockBp_eq]
    simp only [prevBlockBp, hdsize, writeTags, Block.join_size]
    rw [getSize_with_mem]
    rw [word_putWord_of_disjoint (by omega), word_putWord_of_disjoint (by omega)]
  simp only [coalesce, ha.prevBlockBp_eq, hf, hfa, ha.nextBlockBp_eq, ha.header, hn.alloc,
    hn.size, hhead, hsize, hp, Option.bind_eq_bind, Option.bind_some, hadd, pack_zero,
    Bool.toNat_false, hheader, hnext, hfootn, hfooter, hprev]
  simp

end Cases

section Reading

variable {h : Heap} {l l₁ l₂ : List Block} {a : ℕ} {p b n : Block}

theorem around_of_cut (hl : Laid h l) (hc : Cut h l a l₁ (p :: b :: l₂)) : Around h a p b where
  lo := (hl.bounds hc).1
  hi := by
    have hbrk := (hl.block_bounds hc).2.1
    rw [span_cons] at hbrk
    omega
  lt := (hl.bounds hc).2.2
  prevSize := by
    simp only [getSize, hl.get_footer hc, Option.pure_def, Option.bind_eq_bind,
      Option.bind_some, tag_size_bits (hl.tag_lt hc)]
  prevAlloc := ⟨_, hl.footerP_cut hc, hl.isItAlloc_footer hc⟩
  prevHeader := fun _ => hl.getSize_header hc
  header := hl.getSize_header hc.next

theorem freeAt_of_cut (hl : Laid h l) (hc : Cut h l a l₁ (n :: l₂)) (hn : n.alloc = false) :
    FreeAt h a n.size where
  hi := by
    have hbrk := (hl.block_bounds hc).2.1
    omega
  alloc := by rw [hl.isItAlloc_header hc, hn]; rfl
  size := hl.getSize_header hc

end Reading

/-- Merging with the right neighbour leaves one free block in front. -/
theorem joinNext_cons {b : Block} (hb : b.alloc = false) (r : List Block) :
    ∃ c r', joinNext b r = c :: r' ∧ c.alloc = false ∧ c.size + span r' = b.size + span r ∧
      b.size ≤ c.size ∧ (∀ d ∈ r', d ∈ r) ∧
      (∀ a, liveBlocks (a + c.size) r' = liveBlocks (a + b.size) r) ∧
      (Coalesced r → Coalesced (c :: r')) := by
  cases r with
  | nil => exact ⟨b, [], rfl, hb, rfl, le_rfl, by simp, fun _ => rfl,
      fun _ => List.isChain_singleton b⟩
  | cons n r =>
    rw [joinNext]
    cases hn : n.alloc with
    | true =>
      exact ⟨b, n :: r, rfl, hb, rfl, le_rfl, fun _ h => h, fun _ => rfl,
        fun h => List.isChain_cons_cons.mpr ⟨Or.inr hn, h⟩⟩
    | false =>
      refine ⟨b.join n, r, rfl, rfl, ?_, by simp, fun d hd => List.mem_cons_of_mem n hd, ?_, ?_⟩
      · simp [Nat.add_assoc]
      · intro a
        rw [liveBlocks_cons_free hn, Block.join_size, Nat.add_assoc]
      · intro h
        cases r with
        | nil => exact List.isChain_singleton _
        | cons d r =>
          obtain ⟨hnd, hr⟩ := List.isChain_cons_cons.mp h
          refine List.isChain_cons_cons.mpr ⟨Or.inr ?_, hr⟩
          simpa [hn] using hnd

theorem coalesced_joinPrev {l : List Block} {p c : Block} {r : List Block}
    (hc : c.alloc = false) (hl : Coalesced (l ++ [p])) (hr : Coalesced (c :: r)) :
    Coalesced (l ++ joinPrev p (c :: r)) := by
  unfold Coalesced at *
  rw [joinPrev]
  cases hp : p.alloc with
  | true =>
    rw [if_pos rfl, ← List.singleton_append (l := c :: r), ← List.append_assoc,
      List.isChain_append]
    refine ⟨hl, hr, ?_⟩
    simp [hp]
  | false =>
    rw [if_neg (by simp), List.isChain_append]
    rw [List.isChain_append] at hl
    refine ⟨hl.1, ?_, ?_⟩
    · cases r with
      | nil => exact List.isChain_singleton _
      | cons d r =>
        obtain ⟨hcd, hdr⟩ := List.isChain_cons_cons.mp hr
        exact List.isChain_cons_cons.mpr ⟨Or.inr (by simpa [hc] using hcd), hdr⟩
    · intro x hx y hy
      have := hl.2.2 x hx p (by simp)
      simpa [hp] using Or.inl this

/-- What merging leaves: the same client blocks, their payloads, and one free
block over the old extent. -/
structure Merged (h : Heap) (l : List Block) (h' : Heap) (l' : List Block) (q : ℕ) : Prop where
  laid : Laid h' l'
  fields : h' = { h with mem := h'.mem, lastBp := q }
  live : clientBlocks h' l' = clientBlocks h l
  keeps : Keeps (clientBlocks h l) h.mem h'.mem

section Merge

variable {h : Heap} {l l₁ l₂ : List Block} {a : ℕ} {p b : Block}

/-- Free neighbours replaced by one free block over their extent. -/
theorem merged_writeTags {old : List Block} {M : Block} (hl : Laid h l)
    (hc : Cut h l a l₁ (old ++ l₂)) (hne : l₁ ≠ []) (hsize : M.size = span old)
    (h16 : 16 ≤ M.size) (hM : M.alloc = false) (hold : ∀ d ∈ old, d.alloc = false) :
    ∃ l', prologue :: l' = l₁ ++ M :: l₂ ∧
      Merged h l { h with mem := writeTags h.mem a M, lastBp := a } l' a := by
  obtain ⟨k, rfl, rfl⟩ := hc.tail hne
  obtain ⟨hlo, hbrk, hlt⟩ := hl.bounds hc
  have ha := hc.addr
  rw [span_cons, prologue_size] at ha
  rw [span_append] at hbrk
  have hout : SameOutside h.mem (writeTags h.mem a M) (a - 4) (a + span old - 4) := by
    rw [← hsize]
    exact writeTags_sameOutside (by omega)
  have htag : M.tag < 2 ^ 32 := by
    rw [Block.tag_of_free hM]
    omega
  have hspan : span [M] = span old := by simpa using hsize
  have hlive : liveBlocks (h.startBp + 8) (k ++ M :: l₂) =
      liveBlocks (h.startBp + 8) (k ++ (old ++ l₂)) := by
    rw [liveBlocks_append, liveBlocks_append, liveBlocks_append, liveBlocks_eq_nil hold,
      liveBlocks_cons_free hM, hsize, List.nil_append]
  refine ⟨k ++ M :: l₂, rfl, ?_, rfl, hlive, ?_⟩
  · refine (hl.replace hc hspan hout (tagged_writeTags (by omega) htag)
      (by simp) ?_).setLast a
    exact Laid.sixteen_le_replace old [M] hl.sixteen_le (List.forall_mem_singleton.mpr h16)
  · rw [clientBlocks, liveBlocks_append, liveBlocks_append, liveBlocks_eq_nil hold,
      List.nil_append]
    exact Keeps.of_parts hout (by omega) (by omega)

/-- `coalesce` on a free block: all four cases at once. -/
theorem coalesce_laid (hl : Laid h l) (hc : Cut h l a l₁ (p :: b :: l₂))
    (hb : b.alloc = false) (h16 : 16 ≤ b.size) :
    ∃ h' l', coalesce h (a + p.size) = some (h', if p.alloc then a + p.size else a) ∧
      prologue :: l' = l₁ ++ joinPrev p (joinNext b l₂) ∧
      Merged h l h' l' (if p.alloc then a + p.size else a) := by
  have hpne : p.alloc = false → l₁ ≠ [] := by
    rintro hp rfl
    have hpro := (List.cons.inj hc.split).1
    subst hpro
    simp at hp
  have ha := around_of_cut hl hc
  have hnextAlloc : (∀ n r, l₂ = n :: r → n.alloc = true) →
      isItAlloc h (headerP (a + p.size + b.size)) = some 1 := by
    intro hn
    cases l₂ with
    | nil => exact hl.isItAlloc_epilogue hc.next.next
    | cons n r =>
      rw [hl.isItAlloc_header hc.next.next, hn n r rfl]
      rfl
  cases hp : p.alloc with
  | true =>
    by_cases hn : ∃ n r, l₂ = n :: r ∧ n.alloc = false
    · obtain ⟨n, r, rfl, hn⟩ := hn
      have hc' : Cut h l (a + p.size) (l₁ ++ [p]) ([b, n] ++ r) := hc.next
      obtain ⟨l', hl', hm⟩ := merged_writeTags (M := b.join n) hl hc' (by simp) (by simp)
        (by rw [Block.join_size]; omega) rfl (by simp [hb, hn])
      refine ⟨_, l', coalesce_alloc_free ha hp (freeAt_of_cut hl hc.next.next hn), ?_, hm⟩
      rw [hl', joinNext, if_neg (by simp [hn]), joinPrev, if_pos hp]
      simp
    · have hno : ∀ n r, l₂ = n :: r → n.alloc = true := by
        intro n r hnr
        by_contra hf
        exact hn ⟨n, r, hnr, by simpa using hf⟩
      refine ⟨_, l, coalesce_alloc_alloc ha hp (hnextAlloc hno), ?_, hl.setLast _, rfl, rfl,
        Keeps.refl _ _⟩
      have hj : joinNext b l₂ = b :: l₂ := by
        cases l₂ with
        | nil => rfl
        | cons n r => rw [joinNext, if_pos (hno n r rfl)]
      rw [hj, joinPrev, if_pos hp, hc.split]
  | false =>
    by_cases hn : ∃ n r, l₂ = n :: r ∧ n.alloc = false
    · obtain ⟨n, r, rfl, hn⟩ := hn
      have hc' : Cut h l a l₁ ([p, b, n] ++ r) := hc
      obtain ⟨l', hl', hm⟩ := merged_writeTags (M := p.join (b.join n)) hl hc' (hpne hp)
        (by simp) (by simp only [Block.join_size]; omega) rfl (by simp [hb, hn, hp])
      refine ⟨_, l', coalesce_free_free ha hp (freeAt_of_cut hl hc.next.next hn), ?_, hm⟩
      rw [hl', joinNext, if_neg (by simp [hn]), joinPrev, if_neg (by simp [hp])]
    · have hno : ∀ n r, l₂ = n :: r → n.alloc = true := by
        intro n r hnr
        by_contra hf
        exact hn ⟨n, r, hnr, by simpa using hf⟩
      have hc' : Cut h l a l₁ ([p, b] ++ l₂) := hc
      obtain ⟨l', hl', hm⟩ := merged_writeTags (M := p.join b) hl hc' (hpne hp)
        (by simp) (by simp only [Block.join_size]; omega) rfl (by simp [hb, hp])
      refine ⟨_, l', coalesce_free_alloc ha hp (hnextAlloc hno), ?_, hm⟩
      have hj : joinNext b l₂ = b :: l₂ := by
        cases l₂ with
        | nil => rfl
        | cons n r => rw [joinNext, if_pos (hno n r rfl)]
      rw [hl', hj, joinPrev, if_neg (by simp [hp])]

end Merge

end SystemSoftware.NextFitCoalesce
