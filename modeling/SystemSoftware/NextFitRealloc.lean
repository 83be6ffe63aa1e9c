import SystemSoftware.NextFitRuns

/-!
`mm_realloc` of the next-fit allocator. A block that is long enough stays as it
is; one with a long enough free right neighbour absorbs it without looking at
`last_bp`; any other is moved, and the new block is marked a second time with
the size that was not rounded up.
-/
namespace SystemSoftware.NextFitRealloc

open ByteMemory BoundaryTags NextFitHeap NextFitBlocks NextFitCoalesce NextFitSearch
  NextFitAllocate NextFitRuns Transitions

def grown (b n : Block) : Block := (b.join n).used

@[simp] theorem grown_size (b n : Block) : (grown b n).size = b.size + n.size := rfl

section Cases

variable {h : Heap} {l l₁ l₂ : List Block} {p size : ℕ} {b n : Block}

theorem newSize_eq (hlt : size + 8 < 2 ^ 32) : add32 size (wsize <<< 1) = size + 8 :=
  add32_eq hlt

theorem realloc_enough (hl : Laid h l) (hc : Cut h l p l₁ (b :: l₂)) (hlt : size + 8 < 2 ^ 32)
    (hfit : size + 8 ≤ b.size) : mmRealloc h p size = some (h, p) := by
  simp only [mmRealloc, hl.getSize_header hc, newSize_eq hlt, if_pos hfit, Option.bind_eq_bind,
    Option.bind_some]

theorem realloc_grows (hl : Laid h l) (hc : Cut h l p l₁ (b :: n :: l₂)) (hn : n.alloc = false)
    (hlt : size + 8 < 2 ^ 32) (hgt : b.size < size + 8) (hfit : size + 8 ≤ b.size + n.size) :
    mmRealloc h p size = some ({ h with mem := writeTags h.mem p (grown b n) }, p) := by
  obtain ⟨hlo, hbrk, hbrklt, h8⟩ := hl.block_bounds hc
  rw [span_cons] at hbrk
  have hmerged : add32 b.size n.size = b.size + n.size := add32_eq (by omega)
  have hput := put_tags (h := h) (a := p) (b := grown b n) (k := fun h => some (h, p))
    (show pack (b.size + n.size) 1 = _ from pack_one (b.join n).size_dvd)
    (by omega) (by rw [grown_size]; omega) (by rw [grown_size]; omega)
  simp only [Option.bind_eq_bind] at hput
  simp only [mmRealloc, hl.getSize_header hc, newSize_eq hlt, hl.nextBlockBp_eq hc,
    hl.isItAlloc_header hc.next, hl.getSize_header hc.next, hn, hmerged, Option.bind_eq_bind,
    Option.bind_some, Bool.toNat_false]
  rw [if_neg (by omega), if_pos ⟨trivial, hfit⟩, hput]

/-- Neither in-place case applies: what follows is the moving branch. -/
theorem realloc_moving (hl : Laid h l) (hc : Cut h l p l₁ (b :: l₂)) (hlt : size + 8 < 2 ^ 32)
    (hgt : b.size < size + 8)
    (hno : ∀ n r, l₂ = n :: r → n.alloc = false → b.size + n.size < size + 8) :
    mmRealloc h p size = (do
      let (h, q) ← mmMalloc h (size + 8)
      let h ← mark h q (size + 8)
      let h ← memcpy h q p b.size
      let h ← mmFree h p
      some (h, q)) := by
  obtain ⟨hlo, hbrk, hbrklt, h8⟩ := hl.block_bounds hc
  simp only [mmRealloc, hl.getSize_header hc, newSize_eq hlt, hl.nextBlockBp_eq hc,
    Option.bind_eq_bind, Option.bind_some]
  rw [if_neg (by omega)]
  cases l₂ with
  | nil =>
    simp only [hl.isItAlloc_epilogue hc.next, hl.getSize_epilogue hc.next, Option.bind_some]
    rw [if_neg (by simp)]
  | cons n r =>
    rw [span_cons] at hbrk
    have hmerged : add32 b.size n.size = b.size + n.size := add32_eq (by omega)
    simp only [hl.isItAlloc_header hc.next, hl.getSize_header hc.next, hmerged,
      Option.bind_some]
    rw [if_neg ?_]
    rintro ⟨hfree, hfit⟩
    have hshort := hno n r rfl (by simpa using hfree)
    omega

/-- `realloc_moving` for a listed block, by the block behind it. -/
theorem realloc_moving_listed (hl : Laid h l) (hp : (p, b) ∈ placed (h.startBp + 8) l)
    (hlt : size + 8 < 2 ^ 32) (hgt : b.size < size + 8)
    (hno : ∀ c, (p + b.size, c) ∈ placed (h.startBp + 8) l → c.alloc = false →
      b.size + c.size < size + 8) :
    mmRealloc h p size = (do
      let (h, q) ← mmMalloc h (size + 8)
      let h ← mark h q (size + 8)
      let h ← memcpy h q p b.size
      let h ← mmFree h p
      some (h, q)) := by
  obtain ⟨k, r, hsplit, hc⟩ := Cut.of_listed hp
  refine realloc_moving hl hc hlt hgt ?_
  rintro c r' rfl hfree
  refine hno c (mem_placed.mpr ⟨k ++ [b], r', by simp [hsplit], ?_⟩) hfree
  have haddr := hc.addr
  rw [span_cons, prologue_size] at haddr
  rw [span_append, span_cons, span_nil]
  omega

/-- `mark` reads the size of what it is given. -/
theorem mark_null (hl : Laid h l) (size : ℕ) : mark h null size = none := by
  simp [mark, getSize, hl.get_null]

end Cases

section InPlace

variable {h : Heap} {l l₁ l₂ : List Block} {p : ℕ} {b n : Block}

theorem grown_laid (hl : Laid h l) (hc : Cut h l p l₁ (b :: n :: l₂)) (hne : l₁ ≠ [])
    (h16 : 16 ≤ b.size) :
    ∃ l', prologue :: l' = l₁ ++ grown b n :: l₂ ∧
      Laid { h with mem := writeTags h.mem p (grown b n) } l' := by
  obtain ⟨k, rfl, rfl⟩ := hc.tail hne
  obtain ⟨hlo, hbrk, hlt, h8⟩ := hl.block_bounds hc
  rw [span_cons] at hbrk
  have htag := (grown b n).tag_le
  rw [grown_size] at htag
  have hc' : Cut h (k ++ b :: n :: l₂) p (prologue :: k) ([b, n] ++ l₂) := hc
  have hspan : span [grown b n] = span [b, n] := by simp
  have hout : SameOutside h.mem (writeTags h.mem p (grown b n)) (p - 4)
      (p + span [b, n] - 4) := by
    rw [← hspan, span_cons, span_nil, Nat.add_zero]
    exact writeTags_sameOutside (by omega)
  refine ⟨k ++ grown b n :: l₂, rfl, hl.replace hc' hspan hout
    (tagged_writeTags (by omega) (by omega)) (by simp) ?_⟩
  refine Laid.sixteen_le_replace [b, n] [grown b n] hl.sixteen_le
    (List.forall_mem_singleton.mpr ?_)
  rw [grown_size]
  omega

theorem grown_coalesced (hco : Coalesced (l₁ ++ b :: n :: l₂)) :
    Coalesced (l₁ ++ grown b n :: l₂) := by
  unfold Coalesced at *
  rw [List.isChain_append] at hco ⊢
  obtain ⟨hfront, hback, -⟩ := hco
  refine ⟨hfront, List.isChain_cons.mpr ⟨fun _ _ => Or.inl rfl, hback.tail.tail⟩, ?_⟩
  intro x _ y hy
  obtain rfl : grown b n = y := by simpa using hy
  exact Or.inr rfl

/-- The one boundary that growth removes is that of the absorbed block. -/
theorem grown_boundary {l' : List Block} {q : ℕ} (hc : Cut h l p l₁ (b :: n :: l₂))
    (hl' : prologue :: l' = l₁ ++ grown b n :: l₂) (hq : OnBoundary h l q) :
    OnBoundary { h with mem := writeTags h.mem p (grown b n) } l' q ↔ q ≠ p + b.size := by
  have hp : p = h.startBp + span l₁ := hc.addr
  constructor
  · rintro ⟨c, hin⟩ rfl
    have hmid : (p, grown b n) ∈ placed h.startBp (prologue :: l') := by
      rw [hl']
      exact mem_placed.mpr ⟨l₁, l₂, rfl, hp⟩
    have hb := b.size_pos
    have hn := n.size_pos
    have hcpos := c.size_pos
    rcases placed_disjoint hmid hin with ⟨hpq, -⟩ | hpq | hpq
    · omega
    · rw [grown_size] at hpq
      omega
    · omega
  · intro hne
    obtain ⟨c, hin⟩ := hq
    rw [hc.split, placed_append, placed_cons, placed_cons, List.mem_append, List.mem_cons,
      List.mem_cons, ← hp] at hin
    have hplaced : placed h.startBp (prologue :: l') =
        placed h.startBp l₁ ++ (p, grown b n) :: placed (p + b.size + n.size) l₂ := by
      rw [hl', placed_append, placed_cons, ← hp, grown_size, Nat.add_assoc p]
    rcases hin with hin | hin | hin | hin
    · exact ⟨c, hplaced ▸ List.mem_append_left _ hin⟩
    · obtain rfl := (Prod.mk.inj hin).1
      exact ⟨grown b n, hplaced ▸ List.mem_append_right _ List.mem_cons_self⟩
    · exact absurd (Prod.mk.inj hin).1 hne
    · exact ⟨c, hplaced ▸ List.mem_append_right _ (List.mem_cons_of_mem _ hin)⟩

/-- The block list of a heap is determined by its bytes. -/
theorem laid_unique {r : List Block} (hl : Laid h l) (hr : Laid h r) : l = r := by
  have hspan : span (prologue :: l) = span (prologue :: r) := by
    have hlb := hl.brk_eq
    have hrb := hr.brk_eq
    omega
  exact (List.cons.inj (hl.tagged.unique hr.tagged hspan)).2

theorem grown_wellFormed_iff (hw : WellFormed h l) (hc : Cut h l p l₁ (b :: n :: l₂))
    (hne : l₁ ≠ []) (h16 : 16 ≤ b.size) :
    (∃ l', WellFormed { h with mem := writeTags h.mem p (grown b n) } l') ↔
      h.lastBp ≠ p + b.size := by
  obtain ⟨l', hl', hlaid⟩ := grown_laid hw.toLaid hc hne h16
  have hrover := grown_boundary hc hl' hw.rover
  constructor
  · rintro ⟨r, hr⟩
    obtain rfl := laid_unique hlaid hr.toLaid
    exact hrover.mp hr.rover
  · intro hlast
    refine ⟨l', hlaid, ?_, hrover.mpr hlast⟩
    rw [hl']
    exact grown_coalesced (hc.split ▸ hw.coalesced)

end InPlace

/-- `mm_realloc` has moved the block `b` at `p`, of which `n` bytes were asked
for, to the new block `M` at `q`. -/
structure Moved (h : Heap) (l : List Block) (p : ℕ) (b : Block) (n size : ℕ) (h' : Heap)
    (l' : List Block) (q : ℕ) (M : Block) : Prop where
  wellFormed : WellFormed h' l'
  returned : (q, M) ∈ clientBlocks h' l'
  room : size + 8 ≤ M.size
  copied : ∀ i, i < n → i < size → h'.mem (q + i) = h.mem (p + i)
  freed : ∃ a c, (a, c) ∈ placed (h'.startBp + 8) l' ∧ c.alloc = false ∧ a ≤ p ∧
    p + b.size ≤ a + c.size
  others : ∀ r c, (r, c) ∈ clientBlocks h l → r ≠ p →
    (r, c) ∈ clientBlocks h' l' ∧ SameOn h.mem h'.mem r (r + c.size - 8)

section Remark

variable {h h₁ : Heap} {l l₁ k r : List Block} {q n size : ℕ} {b M : Block}

/-- Marking an allocated block again with about its own size changes nothing. -/
theorem mark_again (hl : Laid h l) (hc : Cut h l q k (M :: r)) (hM : M.alloc = true)
    (hfit : n ≤ M.size) (hroom : M.size < n + 16) : mark h q n = some h := by
  have hused : M.used = M := Block.ext rfl hM.symm
  obtain ⟨hhead, hfoot, -⟩ := hl.tagged_cut hc
  have hsame : writeTags h.mem q M = h.mem := by
    rw [writeTags, ← hhead, putWord_word, hhead, ← hfoot, putWord_word]
  rw [mark_whole_stores hl hc hfit hroom, hused, hsame]

/-- A block marked whole with sixteen bytes to spare: the second `mark` cuts them off. -/
theorem mark_trims (hs : Selected h l h₁ l₁ q b) (hdvd : 8 ∣ size) (hpos : 1 ≤ size)
    (hsize : b.size = size + 24) :
    ∃ m₂ l₂ M, mark { h₁ with mem := writeTags h₁.mem q b.used, lastBp := q } q (size + 8) =
        some { h₁ with mem := m₂, lastBp := q } ∧
      Allocated h l { h₁ with mem := m₂, lastBp := q } l₂ q M ∧ size + 8 ≤ M.size := by
  obtain ⟨k, r, hc, hne⟩ := hs.cut
  obtain ⟨hlo, hbrk, hlt, h8⟩ := hs.laid.block_bounds hc
  obtain ⟨kt, -, hl, -⟩ := clientBlocks_cut hc hne
  have hfit : size + 16 ≤ b.size := by omega
  have hroom : b.size < size + 16 + 16 := by omega
  obtain ⟨h₂, l₂, hmark, hl₂, hm⟩ := mark_whole hs.laid hc hne (by rw [hl]; simp) hfit hroom
  rw [mark_whole_stores hs.laid hc hfit hroom, Option.some.injEq] at hmark
  subst hmark
  have hc₂ : Cut { h₁ with mem := writeTags h₁.mem q b.used, lastBp := q } l₂ q k
      (b.used :: r) := ⟨by rw [hl₂]; simp, hc.addr⟩
  let M : Block := ⟨size + 8, true, by omega, by omega⟩
  let R : Block := ⟨16, false, by norm_num, by norm_num⟩
  have hsum : M.size + R.size = b.size := hsize.symm
  have hstores := mark_stores (M := M) (R := R) (hm.laid.setLast q) hc₂ rfl rfl le_rfl hsum
  obtain ⟨hout, htag⟩ := split_tagged (m := writeTags h₁.mem q b.used) (a := q) (M := M) (R := R)
    (by omega) (by omega)
  rw [hsum] at hout
  have hfirst : SameOutside h₁.mem (writeTags h₁.mem q b.used) (q - 4) (q + b.size - 4) :=
    writeTags_sameOutside (show 4 ≤ q by omega)
  have hrest : ∀ d ∈ [R], d.alloc = false := by simp [R]
  have hsizes : ∀ d ∈ M :: [R], 16 ≤ d.size := by
    simp [M, R]
    omega
  obtain ⟨l₃, hl₃, hm₃⟩ := marked_of_tagged hs.laid hc hne rfl hrest (by simpa using hsum)
    hsizes (hfirst.trans hout) htag
  exact ⟨_, l₃, M, hstores, allocated_of_marked hs hc hm₃ hl₃ (Or.inr ⟨R, rfl⟩), le_rfl⟩

/-- The block of the inner call, unless the second `mark` cuts it too short. -/
theorem remarked_block (hw : WellFormed h l) (hpos : 1 ≤ size) (hlt : size + 23 < 2 ^ 32)
    (hmal : mmMalloc h (size + 8) = some (h₁, q)) (hq : q ≠ null)
    (hok : 8 ∣ size ∨ selectedSize h l (adjustedSize (size + 8)) ≠ adjustedSize (size + 8) + 8) :
    ∃ h₂ l₂ M, mark h₁ q (size + 8) = some h₂ ∧ Allocated h l h₂ l₂ q M ∧
      size + 8 ≤ M.size := by
  have hadj : adjustedSize (size + 8) = 8 * ((size + 8 + 15) / 8) :=
    adjustedSize_of_lt (by omega) (by omega)
  have hover := not_overruns hw (by omega) hmal
  rcases mmMalloc_cases hw (show 1 ≤ size + 8 by omega) (by omega) hover with
    ⟨-, hno⟩ | ⟨hs₁, ls, q', b, hs, hb, hfit, heq⟩
  · rw [hno, Option.some.injEq, Prod.mk.injEq] at hmal
    exact absurd hmal.2.symm hq
  rw [← hb] at hok
  rw [heq, hadj] at hmal
  rw [hadj] at hok hfit
  obtain ⟨k, r, hc, hne⟩ := hs.cut
  by_cases hslack : b.size = 8 * ((size + 8 + 15) / 8) + 8
  · have hdvd : 8 ∣ size := hok.resolve_right (fun hne' => hne' hslack)
    rw [mark_whole_stores hs.laid hc hfit (by omega), Option.map_some, Option.some.injEq,
      Prod.mk.injEq] at hmal
    obtain ⟨rfl, rfl⟩ := hmal
    obtain ⟨m₂, l₂, M, hmark, hall, hsize⟩ := mark_trims hs hdvd hpos (by omega)
    exact ⟨_, l₂, M, hmark, hall, hsize⟩
  · obtain ⟨h', l', M, hmark, hall, hM⟩ := mark_selected hs (Dvd.intro _ rfl) (by omega) hfit
    rw [hmark, Option.some.injEq, Prod.mk.injEq] at hmal
    obtain ⟨rfl, rfl⟩ := hmal
    have hb8 := b.size_dvd
    have hsize : M.size = 8 * ((size + 8 + 15) / 8) := by
      rw [hM]
      split <;> omega
    obtain ⟨hin, -⟩ := mem_liveBlocks.mp (hall.mem_iff.mpr (Or.inl rfl))
    obtain ⟨k', r', hc'⟩ := Cut.of_placed (h := h') (l := l') (List.mem_cons_of_mem _ hin)
    have hagain := mark_again hall.wellFormed.toLaid hc' hall.alloc
      (show size + 8 ≤ M.size by omega) (by omega)
    exact ⟨h', l', M, hagain, hall, by omega⟩

end Remark

section Move

variable {h h₁ h₂ : Heap} {l l₂ : List Block} {p q n size : ℕ} {b M : Block}

/-- The copy and the release of the old block, once the new one is long enough. -/
theorem moved_of_allocated (hp : (p, b) ∈ clientBlocks h l) (hn : n + 8 ≤ b.size)
    (ha : Allocated h l h₂ l₂ q M) (hfit : b.size + 8 ≤ M.size) (hsize : size + 8 ≤ M.size) :
    ∃ h₃ h₄ l₄, memcpy h₂ q p b.size = some h₃ ∧ mmFree h₃ p = some h₄ ∧
      Moved h l p b n size h₄ l₄ q M := by
  have hp₂ : (p, b) ∈ clientBlocks h₂ l₂ := ha.mem_iff.mpr (Or.inr hp)
  have hq₂ : (q, M) ∈ clientBlocks h₂ l₂ := ha.mem_iff.mpr (Or.inl rfl)
  obtain ⟨hpin, -⟩ := mem_liveBlocks.mp hp₂
  obtain ⟨hqin, -⟩ := mem_liveBlocks.mp hq₂
  have hw₂ := ha.wellFormed
  have hfresh : ∀ r c, (r, c) ∈ clientBlocks h l → r ≠ q := by
    rintro r c hr rfl
    exact ha.fresh (List.mem_map.mpr ⟨_, hr, rfl⟩)
  have hpb := placed_bounds hpin
  have hqb := placed_bounds hqin
  have hbrk := hw₂.brk_eq
  have hst := hw₂.start_eq
  rw [span_cons, prologue_size] at hbrk
  have hcopy : memcpy h₂ q p b.size =
      some { h₂ with mem := copyBytes h₂.mem q p b.size } := if_pos (by omega)
  have hpay : SameOutside h₂.mem (copyBytes h₂.mem q p b.size) q (q + M.size - 8) :=
    fun x hx => if_neg (by omega)
  have hlaid := hw₂.payload hqin hpay
  obtain ⟨h₄, l₄, hfree, hf⟩ := mmFree_spec (b := b) hlaid hw₂.coalesced hp₂
  have hq₄ : (q, M) ∈ clientBlocks h₄ l₄ := hf.mem_iff.mpr ⟨(hfresh p b hp).symm, hq₂⟩
  refine ⟨_, h₄, l₄, hcopy, hfree, hf.wellFormed, hq₄, hsize, ?_, hf.inside, ?_⟩
  · intro i hin hisize
    have hkept : h₄.mem (q + i) = copyBytes h₂.mem q p b.size (q + i) :=
      hf.keeps q M hq₄ _ (by omega) (by omega)
    have hold : h₂.mem (p + i) = h.mem (p + i) := ha.keeps p b hp _ (by omega) (by omega)
    rw [hkept, copyBytes_apply (by omega), hold]
  · intro r c hr hne
    have hr₂ : (r, c) ∈ clientBlocks h₂ l₂ := ha.mem_iff.mpr (Or.inr hr)
    have hr₄ : (r, c) ∈ clientBlocks h₄ l₄ := hf.mem_iff.mpr ⟨hne, hr₂⟩
    have hapart : r + c.size ≤ q ∨ q + M.size ≤ r := by
      rcases placed_disjoint (mem_liveBlocks.mp hr₂).1 hqin with hrq | hrq | hrq
      · exact absurd hrq.1 (hfresh r c hr)
      · exact Or.inl hrq
      · exact Or.inr hrq
    have hmid : SameOn h₂.mem (copyBytes h₂.mem q p b.size) r (r + c.size - 8) :=
      copyBytes_sameOn (by omega)
    exact ⟨hr₄, ((ha.keeps r c hr).trans hmid).trans (hf.keeps r c hr₄)⟩

end Move

theorem pack_one_alloc (n : ℕ) : pack n 1 &&& 1 = 1 := by
  rw [pack, Nat.and_one_is_mod, Nat.or_mod_two_pow (n := 1)]
  rcases Nat.mod_two_eq_zero_or_one n with h | h <;> simp [h]

/-- The size bits of a header that was packed from a size not rounded up. -/
theorem pack_one_size {n : ℕ} (hn : n < 2 ^ 32) : pack n 1 &&& notSeven = n - n % 8 := by
  have hlt : pack n 1 < 2 ^ 32 := Nat.or_lt_two_pow hn (by norm_num)
  have hdiv : pack n 1 / 8 = n / 8 := by
    have h := Nat.or_div_two_pow (a := n) (b := 1) (n := 3)
    simpa [pack] using h
  rw [size_bits hlt]
  omega

section Frame

variable {h : Heap} {a lo hi : ℕ} {p b : Block}

/-- `coalesce` writes nothing outside the blocks it merges. -/
theorem coalesce_frame (ha : Around h a p b) (hlo : lo ≤ a + p.size)
    (hprev : p.alloc = false → lo ≤ a)
    (hnext : (isItAlloc h (headerP (a + p.size + b.size)) = some 1 ∧
        a + p.size + b.size ≤ hi) ∨
      ∃ n : Block, FreeAt h (a + p.size + b.size) n.size ∧
        a + p.size + b.size + n.size ≤ hi) :
    ∃ h' q, coalesce h (a + p.size) = some (h', q) ∧ h'.memStartBrk = h.memStartBrk ∧
      h'.memBrk = h.memBrk ∧ SameOutside h.mem h'.mem (lo - 4) (hi - 4) := by
  have hbase := ha.lo
  have hwrite : ∀ (x : ℕ) (c : Block), 4 ≤ x → lo ≤ x → x + c.size ≤ hi →
      SameOutside h.mem (writeTags h.mem x c) (lo - 4) (hi - 4) := fun x c h4 hx hc =>
    (writeTags_sameOutside h4).mono (by omega) (by omega)
  cases hp : p.alloc with
  | true =>
    rcases hnext with ⟨hn, -⟩ | ⟨n, hn, hle⟩
    · exact ⟨_, _, coalesce_alloc_alloc ha hp hn, rfl, rfl, fun _ _ => rfl⟩
    · exact ⟨_, _, coalesce_alloc_free ha hp hn, rfl, rfl,
        hwrite _ (b.join n) (by omega) hlo (by rw [Block.join_size]; omega)⟩
  | false =>
    have hloa := hprev hp
    rcases hnext with ⟨hn, hle⟩ | ⟨n, hn, hle⟩
    · exact ⟨_, _, coalesce_free_alloc ha hp hn, rfl, rfl,
        hwrite _ (p.join b) (by omega) hloa (by rw [Block.join_size]; omega)⟩
    · exact ⟨_, _, coalesce_free_free ha hp hn, rfl, rfl,
        hwrite _ (p.join (b.join n)) (by omega) hloa (by simp only [Block.join_size]; omega)⟩

end Frame

/-- Bytes `g` that differ from `m` only inside the allocated block of `T + 24`
bytes at `q`, whose header and the footer it leads to now say `T` bytes. -/
structure Damaged (m g : Memory) (q T v : ℕ) : Prop where
  outside : SameOutside m g (q - 4) (q + T + 16)
  header : word g (q - 4) = v
  size : v &&& notSeven = T
  alloc : v &&& 1 = 1
  footer : word g (q + T - 8) &&& 1 = 1

section Damage

variable {h : Heap} {l k r : List Block} {a q T v : ℕ} {b d M : Block} {g : Memory}

theorem isItAlloc_of_word {m : Memory} {x w : ℕ} (hlo : h.memStartBrk ≤ x)
    (hhi : x + 4 ≤ h.memBrk) (hw : word m x = w) :
    isItAlloc { h with mem := m } x = some (w &&& 1) := by
  have hget : Heap.get { h with mem := m } x = some (word m x) := if_pos ⟨hlo, hhi⟩
  simp only [isItAlloc, hget, hw, Option.pure_def, Option.bind_eq_bind, Option.bind_some]

/-- The blocks other than the damaged one lie beside it. -/
theorem beside_damage (hqM : (q, M) ∈ placed h.startBp (prologue :: l)) {x : ℕ} {c : Block}
    {l₁ l₂ : List Block} (hc : Cut h l x l₁ (c :: l₂)) (hne : x ≠ q) :
    x + c.size ≤ q ∨ q + M.size ≤ x := by
  rcases placed_disjoint hc.mem_placed hqM with hxq | hxq | hxq
  · exact absurd hxq.1 hne
  · exact Or.inl hxq
  · exact Or.inr hxq

/-- What `mm_free` stores before it coalesces: the two tags of `b`, after which
every other word outside the damage is as it was. -/
theorem damaged_word (hd : Damaged h.mem g q T v) {p w : ℕ} (h4 : 4 ≤ p)
    (hq : w + 4 ≤ q - 4 ∨ q + T + 16 ≤ w) (hp : w + 4 ≤ p - 4 ∨ p + b.size - 4 ≤ w) :
    word (writeTags g p b.free) w = word h.mem w := by
  have htags : SameOutside g (writeTags g p b.free) (p - 4) (p + b.size - 4) :=
    writeTags_sameOutside h4
  have h₁ : SameOn h.mem g w (w + 4) := hd.outside.sameOn hq
  have h₂ : SameOn g (writeTags g p b.free) w (w + 4) := htags.sameOn hp
  exact word_congr (h₁.trans h₂) le_rfl le_rfl

/-- The words inside the damage are not touched by the tags of `b`. -/
theorem damaged_inner {p w : ℕ} (h4 : 4 ≤ p) (hp : w + 4 ≤ p - 4 ∨ p + b.size - 4 ≤ w) :
    word (writeTags g p b.free) w = word g w := by
  have htags : SameOutside g (writeTags g p b.free) (p - 4) (p + b.size - 4) :=
    writeTags_sameOutside h4
  have hs : SameOn g (writeTags g p b.free) w (w + 4) := htags.sameOn hp
  exact word_congr hs le_rfl le_rfl

theorem damaged_around (hl : Laid h l) (hd : Damaged h.mem g q T v) (hM : M.size = T + 24)
    (hMa : M.alloc = true) (hT : 16 ≤ T) (hqM : (q, M) ∈ placed h.startBp (prologue :: l))
    (hc : Cut h l a k (d :: b :: r)) (hpq : a + d.size ≠ q) :
    Around { h with mem := writeTags g (a + d.size) b.free } a d b.free := by
  obtain ⟨halo, habrk, hlt, hd8⟩ := hl.block_bounds hc
  have hb8 := b.eight_le
  have hbtag := b.free.tag_le
  obtain ⟨kq, rq, hcq⟩ := Cut.of_placed hqM
  obtain ⟨hqlo, hqbrk, -, -⟩ := hl.block_bounds hcq
  have hbapart := beside_damage hqM hc.next hpq
  have hdapart : a ≠ q → a + d.size ≤ q ∨ q + M.size ≤ a := beside_damage hqM hc
  have hheada : headerP a = a - 4 := headerP_eq (by omega) (by omega)
  rw [span_cons] at habrk
  rw [b.free_size] at hbtag
  have hheader : a ≠ q → getSize { h with mem := writeTags g (a + d.size) b.free } (headerP a) =
      some d.size := by
    intro haq
    have hda := hdapart haq
    rw [hheada, getSize_with_mem (damaged_word hd (by omega) (by omega) (by omega)), ← hheada]
    exact hl.getSize_header hc
  have hdM : a = q → d = M := by
    rintro rfl
    exact placed_unique hc.mem_placed hqM
  refine {
    lo := halo
    hi := by rw [b.free_size]; simp only; omega
    lt := hlt
    prevSize := ?_
    prevAlloc := ?_
    prevHeader := ?_
    header := ?_ }
  · have hend : a = q → d.size = M.size := fun haq => congrArg Block.size (hdM haq)
    rw [getSize_with_mem (damaged_word hd (by omega) (by omega) (by omega))]
    exact (around_of_cut hl hc).prevSize
  · by_cases haq : a = q
    · obtain rfl := hdM haq
      subst haq
      have hw : word (writeTags g (a + d.size) b.free) (a - 4) = v := by
        rw [damaged_inner (by omega) (by omega), hd.header]
      have hsize : getSize { h with mem := writeTags g (a + d.size) b.free } (headerP a) =
          some T := getSize_stored hw hd.size (by omega) (by omega) (by omega)
      refine ⟨a + T - 8, footerP_eq hsize (by omega) (by omega), ?_⟩
      rw [isItAlloc_of_word (by omega) (by omega) (damaged_inner (by omega) (by omega)),
        hd.footer, hMa]
      rfl
    · have hda := hdapart haq
      refine ⟨a + d.size - 8, footerP_eq (hheader haq) (by omega) (by omega), ?_⟩
      rw [isItAlloc, get_with_mem (damaged_word hd (by omega) (by omega) (by omega))]
      exact hl.isItAlloc_footer hc
  · intro hdfree
    refine hheader fun haq => ?_
    rw [hdM haq, hMa] at hdfree
    simp at hdfree
  · have htag := (tagged_writeTags (m := g) (a := a + d.size) (b := b.free) (by omega)
      (by omega)).1
    exact getSize_stored htag (tag_size_bits (by omega)) (by omega) (by omega) (by omega)

/-- Behind `b` there is a free block that is not the damaged one, or no free block. -/
theorem damaged_next (hl : Laid h l) (hd : Damaged h.mem g q T v) (hM : M.size = T + 24)
    (hqM : (q, M) ∈ placed h.startBp (prologue :: l)) {p : ℕ} (hc : Cut h l p k (b :: r))
    (hpq : p ≠ q) :
    ∃ hi, ((isItAlloc { h with mem := writeTags g p b.free } (headerP (p + b.size)) = some 1 ∧
          p + b.size ≤ hi) ∨
        ∃ n : Block, FreeAt { h with mem := writeTags g p b.free } (p + b.size) n.size ∧
          p + b.size + n.size ≤ hi) ∧
      (q + M.size ≤ p ∨ hi ≤ q) := by
  obtain ⟨hplo, hpbrk, hlt, hb8⟩ := hl.block_bounds hc
  obtain ⟨kq, rq, hcq⟩ := Cut.of_placed hqM
  obtain ⟨hqlo, hqbrk, -, -⟩ := hl.block_bounds hcq
  have hbapart := beside_damage hqM hc hpq
  have hheade : headerP (p + b.size) = p + b.size - 4 := headerP_eq (by omega) (by omega)
  by_cases hr : ∃ n r', r = n :: r' ∧ p + b.size ≠ q ∧ n.alloc = false
  · obtain ⟨n, r', rfl, hne, hn⟩ := hr
    have hnapart := beside_damage hqM hc.next hne
    have hn8 := n.eight_le
    have hfree := freeAt_of_cut hl hc.next hn
    refine ⟨p + b.size + n.size, Or.inr ⟨n, ⟨hfree.hi, ?_, ?_⟩, le_rfl⟩, by omega⟩
    · rw [hheade, isItAlloc, get_with_mem (damaged_word hd (by omega) (by omega) (by omega)),
        ← hheade]
      exact hfree.alloc
    · rw [hheade, getSize_with_mem (damaged_word hd (by omega) (by omega) (by omega)), ← hheade]
      exact hfree.size
  · refine ⟨p + b.size, Or.inl ⟨?_, le_rfl⟩, by omega⟩
    by_cases heq : p + b.size = q
    · have hw : word (writeTags g p b.free) (q - 4) = v := by
        rw [damaged_inner (by omega) (by omega), hd.header]
      rw [hheade, heq, isItAlloc_of_word (by omega) (by omega) hw, hd.alloc]
    · cases r with
      | nil =>
        rw [span_nil] at hpbrk
        rw [hheade, isItAlloc,
          get_with_mem (damaged_word hd (by omega) (by omega) (by omega)), ← hheade]
        exact hl.isItAlloc_epilogue hc.next
      | cons n r' =>
        have hnapart := beside_damage hqM hc.next heq
        have hn8 := n.eight_le
        have hn : n.alloc = true := by
          by_contra hfalse
          exact hr ⟨n, r', rfl, heq, by simpa using hfalse⟩
        have halloc := hl.isItAlloc_header hc.next
        rw [hn] at halloc
        rw [hheade, isItAlloc,
          get_with_mem (damaged_word hd (by omega) (by omega) (by omega)), ← hheade]
        exact halloc

/-- `coalesce` on the block `b` keeps the damaged header. -/
theorem coalesce_damaged (hl : Laid h l) (hd : Damaged h.mem g q T v) (hM : M.size = T + 24)
    (hMa : M.alloc = true) (hT : 16 ≤ T) (hqM : (q, M) ∈ placed h.startBp (prologue :: l))
    (hc : Cut h l a k (d :: b :: r)) (hpq : a + d.size ≠ q) :
    ∃ h' x, coalesce { h with mem := writeTags g (a + d.size) b.free } (a + d.size) =
      some (h', x) ∧ getSize h' (headerP q) = some T := by
  obtain ⟨halo, habrk, hlt, hd8⟩ := hl.block_bounds hc
  obtain ⟨kq, rq, hcq⟩ := Cut.of_placed hqM
  obtain ⟨hqlo, hqbrk, -, -⟩ := hl.block_bounds hcq
  have hb8 := b.eight_le
  have hbapart := beside_damage hqM hc.next hpq
  -- The merged blocks lie on one side of the damaged one.
  obtain ⟨lo, hlo, hlod, hloq⟩ : ∃ lo, lo ≤ a + d.size ∧ (d.alloc = false → lo ≤ a) ∧
      (q + M.size ≤ a + d.size → q + M.size ≤ lo) := by
    cases hda : d.alloc with
    | true => exact ⟨a + d.size, le_rfl, by simp, id⟩
    | false =>
      have haq : a ≠ q := by
        rintro rfl
        rw [placed_unique hc.mem_placed hqM, hMa] at hda
        simp at hda
      have hdapart := beside_damage hqM hc haq
      exact ⟨a, by omega, fun _ => le_rfl, by omega⟩
  obtain ⟨hi, hnext, hhiq⟩ := damaged_next hl hd hM hqM hc.next hpq
  obtain ⟨h', x, hcall, hstart, hbrk, hout⟩ :=
    coalesce_frame (damaged_around hl hd hM hMa hT hqM hc hpq) hlo hlod hnext
  clear hnext
  refine ⟨h', x, hcall, ?_⟩
  have hs : SameOn (writeTags g (a + d.size) b.free) h'.mem (q - 4) q := hout.sameOn (by omega)
  have hw : word h'.mem (q - 4) = v := by
    rw [word_congr hs le_rfl (by omega), damaged_inner (by omega) (by omega), hd.header]
  have hget : h'.get (q - 4) = some v := by
    rw [Heap.get, hw, hstart, hbrk]
    exact if_pos ⟨show h.memStartBrk ≤ q - 4 by omega, show q - 4 + 4 ≤ h.memBrk by omega⟩
  have hheadq : headerP q = q - 4 := headerP_eq (by omega) (by omega)
  simp only [getSize, hheadq, hget, hd.size, Option.pure_def, Option.bind_eq_bind,
    Option.bind_some]

/-- `mm_free` of another block still ends and leaves the damaged header as it is. -/
theorem free_damaged {p : ℕ} (hl : Laid h l) (hd : Damaged h.mem g q T v) (hM : M.size = T + 24)
    (hMa : M.alloc = true) (hT : 16 ≤ T) (hq : (q, M) ∈ placed (h.startBp + 8) l)
    (hp : (p, b) ∈ placed (h.startBp + 8) l) (hpq : p ≠ q) :
    ∃ h', mmFree { h with mem := g } p = some h' ∧ getSize h' (headerP q) = some T := by
  have hqM : (q, M) ∈ placed h.startBp (prologue :: l) := List.mem_cons_of_mem _ hq
  obtain ⟨k, r, rfl, hc⟩ := Cut.of_listed hp
  obtain ⟨hplo, hpbrk, hlt, hb8⟩ := hl.block_bounds hc
  -- The block in front of `b`, possibly the prologue or the damaged one.
  obtain ⟨k', d, hkd⟩ : ∃ k' d, prologue :: k = k' ++ [d] :=
    ⟨_, _, (List.dropLast_append_getLast (List.cons_ne_nil prologue k)).symm⟩
  have hpd : p = h.startBp + span k' + d.size := by
    rw [hc.addr, hkd, span_append, span_cons, span_nil]
    omega
  have hcd : Cut h (k ++ b :: r) (h.startBp + span k') k' (d :: b :: r) :=
    ⟨by rw [← List.cons_append, hkd]; simp, rfl⟩
  obtain ⟨h', x, hcall, hsizeq⟩ := coalesce_damaged hl hd hM hMa hT hqM hcd (hpd ▸ hpq)
  rw [← hpd] at hcall
  refine ⟨h', ?_, hsizeq⟩
  have hbapart := beside_damage hqM hc hpq
  have hstores := put_tags (h := { h with mem := g }) (a := p) (b := b.free)
    (k := fun h => do let (h, _) ← coalesce h p; some h)
    (show pack b.size 0 = b.free.tag by rw [pack_zero, Block.tag_of_free b.free_alloc]; rfl)
    (show h.memStartBrk + 4 ≤ p by omega) (show p + b.size ≤ h.memBrk + 4 by omega)
    (show p + b.size < _ by omega)
  simp only [Option.bind_eq_bind, hcall, Option.bind_some] at hstores
  have hsize : getSize { h with mem := g } (headerP p) = some b.size := by
    have hs : SameOn h.mem g (p - 4) (p - 4 + 4) := hd.outside.sameOn (by omega)
    rw [← hl.getSize_header hc, headerP_eq (show 4 ≤ p by omega) (by omega)]
    exact getSize_with_mem (word_congr hs le_rfl le_rfl)
  simp only [mmFree, hsize, Option.bind_eq_bind, Option.bind_some]
  exact hstores

/-- The bytes after `mark` with a size `n` that is not a multiple of eight, when
`d` bytes are left: two tags of `n` and two of `d` around a boundary at `n` rounded down. -/
def shortMem (m : Memory) (q n d : ℕ) : Memory :=
  putWord (putWord (putWord (putWord m (q - 4) (pack n 1)) (q + (n - n % 8) - 8) (pack n 1))
    (q + (n - n % 8) - 4) d) (q + (n - n % 8) + 16 - 8) d

theorem mark_short {n : ℕ} (hl : Laid h l) (hc : Cut h l q k (M :: r)) (h16 : 16 ≤ n)
    (hmod : n % 8 ≠ 0) (hM : M.size = n - n % 8 + 24) :
    mark h q n = some { h with mem := shortMem h.mem q n (M.size - n) } := by
  obtain ⟨hqlo, hqbrk, hlt, -⟩ := hl.block_bounds hc
  have hn : n < 2 ^ 32 := by omega
  have hv : pack n 1 < 2 ^ 32 := Nat.or_lt_two_pow hn (by norm_num)
  have hsub : sub32 M.size n = M.size - n := sub32_eq (by omega) (by omega)
  have hrest : (M.size - n) &&& notSeven = 16 := by
    rw [size_bits (by omega)]
    omega
  have hnext : ∀ m, word m (q - 4) = pack n 1 →
      nextBlockBp { h with mem := m } q = some (q + (n - n % 8)) := by
    intro m hm
    have hsize : getSize { h with mem := m } (headerP q) = some (n - n % 8) :=
      getSize_stored hm (pack_one_size hn) (by omega) (by omega) (by omega)
    simp only [nextBlockBp, hsize, Option.pure_def, Option.bind_eq_bind, Option.bind_some,
      add32_eq (show q + (n - n % 8) < 2 ^ 32 by omega)]
  have h₁ := put_header_footer (h := h) (a := q) (v := pack n 1)
    (k := fun h => do
      let bp ← nextBlockBp h q
      let h ← h.put (headerP bp) (pack (M.size - n) 0)
      h.put (← footerP h bp) (pack (M.size - n) 0))
    (pack_one_size hn) hv (by omega) (by omega) (by omega) (by omega)
  unfold shortMem
  generalize hm₁ : putWord (putWord h.mem (q - 4) (pack n 1)) (q + (n - n % 8) - 8)
    (pack n 1) = m₁ at h₁ ⊢
  have hnext₁ := hnext m₁ (by
    rw [← hm₁, word_putWord_of_disjoint (by omega), word_putWord_self hv])
  have h₂ := put_header_footer (h := { h with mem := m₁ }) (a := q + (n - n % 8))
    (v := M.size - n) (k := some) hrest (by omega) (by omega)
    (show h.memStartBrk + 4 ≤ _ by omega) (show _ ≤ h.memBrk + 4 by omega) (by omega)
  simp only [Option.bind_eq_bind, hnext₁, Option.bind_some, Option.bind_fun_some, pack_zero]
    at h₁ h₂
  simp only [mark, hl.getSize_header hc, hsub, Option.bind_eq_bind, Option.bind_some, pack_zero]
  rw [if_pos (show dsize <<< 1 ≤ M.size - n from show 16 ≤ M.size - n by omega), h₁, h₂]

/-- The copy of the old block leaves the short header and an allocation bit in
the footer it leads to: the footer is either untouched or a copy of `b`'s. -/
theorem damaged_copy {n p : ℕ} (hl : Laid h l) (hn : n < 2 ^ 32) (h16 : 16 ≤ n)
    (hM : M.size = n - n % 8 + 24)
    (hqM : (q, M) ∈ placed h.startBp (prologue :: l)) (hc : Cut h l p k (b :: r))
    (hb : b.alloc = true) (hpq : p ≠ q) (hgt : b.size < n) :
    Damaged h.mem (copyBytes (shortMem h.mem q n (M.size - n)) q p b.size) q (n - n % 8)
      (pack n 1) := by
  have hbapart := beside_damage hqM hc hpq
  obtain ⟨hplo, hpbrk, hlt, hb8⟩ := hl.block_bounds hc
  obtain ⟨kq, rq, hcq⟩ := Cut.of_placed hqM
  obtain ⟨hqlo, hqbrk, -, -⟩ := hl.block_bounds hcq
  have hbdvd := b.size_dvd
  have hv : pack n 1 < 2 ^ 32 := Nat.or_lt_two_pow hn (by norm_num)
  have hshort : SameOutside h.mem (shortMem h.mem q n (M.size - n)) (q - 4)
      (q + (n - n % 8) + 16) := by
    intro x hx
    simp only [shortMem]
    rw [putWord_apply (by omega), putWord_apply (by omega), putWord_apply (by omega),
      putWord_apply (by omega)]
  have hcopy : SameOutside (shortMem h.mem q n (M.size - n))
      (copyBytes (shortMem h.mem q n (M.size - n)) q p b.size) (q - 4)
      (q + (n - n % 8) + 16) := fun x hx => if_neg (by omega)
  refine ⟨hshort.trans hcopy, ?_, pack_one_size hn, pack_one_alloc n, ?_⟩
  · have hs : SameOn (shortMem h.mem q n (M.size - n))
        (copyBytes (shortMem h.mem q n (M.size - n)) q p b.size) (q - 4) q :=
      copyBytes_sameOn (Or.inl le_rfl)
    rw [word_congr hs le_rfl (by omega), shortMem, word_putWord_of_disjoint (by omega),
      word_putWord_of_disjoint (by omega), word_putWord_of_disjoint (by omega),
      word_putWord_self hv]
  · by_cases hfull : b.size = n - n % 8
    · have hold : SameOn h.mem (shortMem h.mem q n (M.size - n)) (p + b.size - 8)
          (p + b.size - 4) := hshort.sameOn (by omega)
      rw [word_copyBytes (by omega) (by omega),
        show p + (q + (n - n % 8) - 8 - q) = p + b.size - 8 by omega,
        word_congr hold le_rfl (by omega), (hl.tagged_cut hc).2.1, tag_alloc_bit, hb]
      rfl
    · have hs : SameOn (shortMem h.mem q n (M.size - n))
          (copyBytes (shortMem h.mem q n (M.size - n)) q p b.size) (q + (n - n % 8) - 8)
          (q + (n - n % 8) - 4) := copyBytes_sameOn (by omega)
      rw [word_congr hs le_rfl (by omega), shortMem, word_putWord_of_disjoint (by omega),
        word_putWord_of_disjoint (by omega), word_putWord_self hv, pack_one_alloc]

end Damage

section Moving

variable {h h₁ : Heap} {l : List Block} {p q n size : ℕ} {b : Block}

/-- Eight bytes too many for the rounded request and a size that is not a
multiple of eight: the call ends with a block that is shorter than `size`. -/
theorem short_block (hw : WellFormed h l) (hp : (p, b) ∈ clientBlocks h l) (hpos : 1 ≤ size)
    (hlt : size + 23 < 2 ^ 32) (hgt : b.size < size + 8)
    (hmal : mmMalloc h (size + 8) = some (h₁, q)) (hq : q ≠ null) (hmod : ¬ 8 ∣ size)
    (hsel : selectedSize h l (adjustedSize (size + 8)) = adjustedSize (size + 8) + 8) :
    ∃ h₂ h₃ h₄ s, mark h₁ q (size + 8) = some h₂ ∧ memcpy h₂ q p b.size = some h₃ ∧
      mmFree h₃ p = some h₄ ∧ getSize h₄ (headerP q) = some s ∧ s < size + 8 := by
  have hadj : adjustedSize (size + 8) = 8 * ((size + 8 + 15) / 8) :=
    adjustedSize_of_lt (by omega) (by omega)
  have hover := not_overruns hw (by omega) hmal
  rcases mmMalloc_spec hw (show 1 ≤ size + 8 by omega) (by omega) hover with
    ⟨-, hno⟩ | ⟨h', l', q', M, heq, -, ha, hM, -⟩
  · rw [hno, Option.some.injEq, Prod.mk.injEq] at hmal
    exact absurd hmal.2.symm hq
  rw [heq, Option.some.injEq, Prod.mk.injEq] at hmal
  obtain ⟨rfl, rfl⟩ := hmal
  rw [hsel, markedSize, if_neg (by omega), hadj] at hM
  obtain ⟨hqin, -⟩ := mem_liveBlocks.mp (ha.mem_iff.mpr (Or.inl rfl))
  obtain ⟨hpin, hpa⟩ := mem_liveBlocks.mp (ha.mem_iff.mpr (Or.inr hp))
  have hl := ha.wellFormed.toLaid
  have hqM : (q', M) ∈ placed h'.startBp (prologue :: l') := List.mem_cons_of_mem _ hqin
  obtain ⟨kq, rq, hcq⟩ := Cut.of_placed hqM
  obtain ⟨k, r, hc⟩ := Cut.of_placed (h := h') (l := l') (List.mem_cons_of_mem _ hpin)
  obtain ⟨hqlo, hqbrk, hltq, -⟩ := hl.block_bounds hcq
  obtain ⟨hplo, hpbrk, -, -⟩ := hl.block_bounds hc
  have hpq : p ≠ q' := by
    rintro rfl
    exact ha.fresh (List.mem_map.mpr ⟨_, hp, rfl⟩)
  have h16 : 16 ≤ b.size := by
    obtain ⟨l₁, l₂, rfl, -⟩ := mem_placed.mp hpin
    exact hl.sixteen_le b (by simp)
  have hsize : M.size = size + 8 - (size + 8) % 8 + 24 := by omega
  have hmark := mark_short hl hcq (show 16 ≤ size + 8 by omega) (by omega) hsize
  have hdam := damaged_copy hl (show size + 8 < 2 ^ 32 by omega) (by omega) hsize hqM
    hc hpa hpq hgt
  obtain ⟨h₄, hfree, hhead⟩ :=
    free_damaged hl hdam hsize ha.alloc (by omega) hqin hpin hpq
  have hbdvd := b.size_dvd
  exact ⟨_, _, h₄, _, hmark, if_pos (by simp only; omega), hfree, hhead, by omega⟩

/-- A call that has to move the block and gets memory for it keeps its contract
exactly when the size is a multiple of eight or the free block that the inner
`mm_malloc` cuts from is not eight bytes longer than the rounded request. -/
theorem realloc_moved_iff (hw : WellFormed h l) (hp : (p, b) ∈ clientBlocks h l)
    (hn : n + 8 ≤ b.size) (hpos : 1 ≤ size) (hlt : size ≤ 2 ^ 31 - 16)
    (hgt : b.size < size + 8)
    (hno : ∀ c, (p + b.size, c) ∈ placed (h.startBp + 8) l → c.alloc = false →
      b.size + c.size < size + 8)
    (hmal : mmMalloc h (size + 8) = some (h₁, q)) (hq : q ≠ null) :
    (∃ h' l' M, mmRealloc h p size = some (h', q) ∧ Moved h l p b n size h' l' q M) ↔
      8 ∣ size ∨ selectedSize h l (adjustedSize (size + 8)) ≠ adjustedSize (size + 8) + 8 := by
  obtain ⟨hpin, hpa⟩ := mem_liveBlocks.mp hp
  have hmove := realloc_moving_listed hw.toLaid hpin (by omega) hgt hno
  rw [hmal] at hmove
  simp only [Option.bind_eq_bind, Option.bind_some] at hmove
  constructor
  · rintro ⟨h', l', M, hcall, hmoved⟩
    by_contra hbad
    rw [not_or, not_not] at hbad
    obtain ⟨h₂, h₃, h₄, s, hmark, hcopy, hfree, hs, hshort⟩ :=
      short_block hw hp hpos (by omega) hgt hmal hq hbad.1 hbad.2
    simp only [hmark, hcopy, hfree, Option.bind_some] at hmove
    rw [hmove, Option.some.injEq, Prod.mk.injEq] at hcall
    obtain rfl := hcall.1
    obtain ⟨hqin, -⟩ := mem_liveBlocks.mp hmoved.returned
    obtain ⟨kq, rq, hcq⟩ := Cut.of_placed (h := h₄) (l := l') (List.mem_cons_of_mem _ hqin)
    have hsize := hmoved.wellFormed.getSize_header hcq
    rw [hs, Option.some.injEq] at hsize
    have hroom := hmoved.room
    omega
  · intro hok
    obtain ⟨h₂, l₂, M, hmark, ha, hsize⟩ := remarked_block hw hpos (by omega) hmal hq hok
    have hbdvd := b.size_dvd
    have hMdvd := M.size_dvd
    obtain ⟨h₃, h₄, l₄, hcopy, hfree, hmoved⟩ :=
      moved_of_allocated hp hn ha (show b.size + 8 ≤ M.size by omega) hsize
    refine ⟨h₄, l₄, M, ?_, hmoved⟩
    rw [hmove, hmark]
    simp only [hcopy, hfree, Option.bind_some]

end Moving

theorem twoBlocks_first : ∃ l b, WellFormed twoBlocks.heap l ∧
    (4112, b) ∈ clientBlocks twoBlocks.heap l ∧ b.size = 16 ∧
    ∀ c, (4112 + b.size, c) ∈ placed (twoBlocks.heap.startBp + 8) l → c.alloc ≠ false := by
  obtain ⟨l, hc⟩ := reachable_consistent twoBlocks_reachable
  have hlive : twoBlocks.live = [(4128, 1), (4112, 1)] := by decide
  have hbits : getSize twoBlocks.heap (headerP 4112) = some 16 ∧
      isItAlloc twoBlocks.heap (headerP 4128) = some 1 := by decide
  obtain ⟨b, hb, -⟩ := hc.serves.block (p := 4112) (n := 1) (by simp [hlive])
  obtain ⟨k, r, hcut⟩ := Cut.of_placed (h := twoBlocks.heap) (l := l)
    (List.mem_cons_of_mem _ (mem_liveBlocks.mp hb).1)
  have hsize := hc.wellFormed.getSize_header hcut
  rw [hbits.1, Option.some.injEq] at hsize
  refine ⟨l, b, hc.wellFormed, hb, hsize.symm, ?_⟩
  intro c hcin hfree
  rw [← hsize] at hcin
  obtain ⟨k', r', hcut'⟩ := Cut.of_placed (h := twoBlocks.heap) (l := l)
    (List.mem_cons_of_mem _ hcin)
  have halloc := hc.wellFormed.isItAlloc_header hcut'
  rw [hbits.2, hfree] at halloc
  simp at halloc

theorem realloc_moved_aligned : ∃ l b h' l' M, WellFormed twoBlocks.heap l ∧
    mmRealloc twoBlocks.heap 4112 104 = some (h', 4144) ∧
    Moved twoBlocks.heap l 4112 b 1 104 h' l' 4144 M := by
  obtain ⟨l, b, hw, hb, hsize, hnext⟩ := twoBlocks_first
  have hmal := eq_some_getD (twoBlocks.heap, 0)
    (show (mmMalloc twoBlocks.heap (104 + 8)).map Prod.snd = some 4144 by decide)
  obtain ⟨h', l', M, hcall, hmoved⟩ := (realloc_moved_iff hw hb (n := 1) (by omega)
    (by norm_num) (by norm_num) (by omega) (fun c hc hfree => absurd hfree (hnext c hc)) hmal
    (by decide)).mpr (Or.inl (by decide))
  exact ⟨l, b, h', l', M, hw, hcall, hmoved⟩

/-- Moving the first of two small blocks to 4033 bytes, for which the rest of
the first page of heap is eight bytes too long, returns a block of 4032. -/
theorem realloc_moved_short : ∃ l b h₁, WellFormed twoBlocks.heap l ∧
    (4112, b) ∈ clientBlocks twoBlocks.heap l ∧ 1 + 8 ≤ b.size ∧ b.size < 4033 + 8 ∧
    (∀ c, (4112 + b.size, c) ∈ placed (twoBlocks.heap.startBp + 8) l → c.alloc ≠ false) ∧
    mmMalloc twoBlocks.heap (4033 + 8) = some (h₁, 4144) ∧
    ¬ ∃ h' l' M, mmRealloc twoBlocks.heap 4112 4033 = some (h', 4144) ∧
      Moved twoBlocks.heap l 4112 b 1 4033 h' l' 4144 M := by
  obtain ⟨l, b, hw, hb, hsize, hnext⟩ := twoBlocks_first
  have hmal := eq_some_getD (twoBlocks.heap, 0)
    (show (mmMalloc twoBlocks.heap (4033 + 8)).map Prod.snd = some 4144 by decide)
  refine ⟨l, b, _, hw, hb, by omega, by omega, hnext, hmal, ?_⟩
  rintro ⟨h', l', M, hcall, hmoved⟩
  have hshort : (mmRealloc twoBlocks.heap 4112 4033).bind
      (fun r => getSize r.1 (headerP 4144)) = some 4040 := by decide
  rw [hcall, Option.bind_some] at hshort
  obtain ⟨k, r, hc⟩ := Cut.of_placed (h := h') (l := l')
    (List.mem_cons_of_mem _ (mem_liveBlocks.mp hmoved.returned).1)
  have hM := hmoved.wellFormed.getSize_header hc
  have hroom := hmoved.room
  rw [hshort, Option.some.injEq] at hM
  omega

theorem in_place_iff {h h' : Heap} {live : List (ℕ × ℕ)} {l : List Block} {p n size : ℕ}
    (hc : Consistent h live l) (hp : (p, n) ∈ live) (hpos : 1 ≤ size)
    (hlt : size ≤ 2 ^ 31 - 16) (hcall : mmRealloc h p size = some (h', p)) :
    (∃ l', WellFormed h' l') ↔
      ∃ cur, getSize h (headerP p) = some cur ∧ (size + 8 ≤ cur ∨ h.lastBp ≠ p + cur) := by
  have hw := hc.wellFormed
  obtain ⟨b, hb, -⟩ := hc.serves.block hp
  obtain ⟨hin, -⟩ := mem_liveBlocks.mp hb
  obtain ⟨k, r, rfl, hcut⟩ := Cut.of_listed hin
  have hsize := hw.getSize_header hcut
  simp only [hsize, Option.some.injEq, exists_eq_left']
  by_cases hfit : size + 8 ≤ b.size
  · rw [realloc_enough hw.toLaid hcut (by omega) hfit, Option.some.injEq, Prod.mk.injEq] at hcall
    obtain rfl := hcall.1
    exact ⟨fun _ => Or.inl hfit, fun _ => ⟨_, hw⟩⟩
  by_cases hgrow : ∃ c r', r = c :: r' ∧ c.alloc = false ∧ size + 8 ≤ b.size + c.size
  · obtain ⟨c, r', rfl, hfree, hlong⟩ := hgrow
    rw [realloc_grows hw.toLaid hcut hfree (by omega) (by omega) hlong, Option.some.injEq,
      Prod.mk.injEq] at hcall
    obtain rfl := hcall.1
    rw [grown_wellFormed_iff hw hcut (by simp) (hw.sixteen_le b (by simp))]
    exact ⟨Or.inr, fun hor => hor.resolve_left hfit⟩
  -- Otherwise the block would be moved, and never to where it was.
  · exfalso
    rw [realloc_moving hw.toLaid hcut (by omega) (by omega) (by
      rintro c r' rfl hfree
      by_contra hlong
      exact hgrow ⟨c, r', rfl, hfree, by omega⟩)] at hcall
    have hover : ¬ Overruns h (size + 8) := fun hover => by
      rw [mmMalloc_overruns hw (by omega) hover] at hcall
      cases hcall
    rcases mmMalloc_spec hw (show 1 ≤ size + 8 by omega) (by omega) hover with
      ⟨-, hno⟩ | ⟨h₁, l₁, q, M, heq, -, ha, -⟩
    · simp [hno, mark_null hw.toLaid] at hcall
    · have hq : q = p := by
        simp only [heq, Option.bind_eq_bind, Option.bind_some, Option.bind_eq_some_iff,
          Option.some.injEq, Prod.mk.injEq] at hcall
        obtain ⟨h₂, -, h₃, -, h₄, -, -, hq⟩ := hcall
        exact hq
      exact ha.fresh (List.mem_map.mpr ⟨_, hb, hq.symm⟩)

/-- When `mm_realloc` returns the pointer it was given, the heap is well formed
exactly when the block was long enough or `last_bp` was not the block behind it. -/
theorem realloc_in_place_iff {s : Client} (hs : runs.Reachable s) {p n size : ℕ} {h' : Heap}
    (hp : (p, n) ∈ s.live) (hpos : 1 ≤ size) (hlt : size ≤ 2 ^ 31 - 16)
    (hcall : mmRealloc s.heap p size = some (h', p)) :
    (∃ l', WellFormed h' l') ↔
      ∃ cur, getSize s.heap (headerP p) = some cur ∧
        (size + 8 ≤ cur ∨ s.heap.lastBp ≠ p + cur) := by
  obtain ⟨l, hc⟩ := reachable_consistent hs
  exact in_place_iff hc hp hpos hlt hcall

/-- The free block behind the second of two blocks is absorbed while `last_bp` is elsewhere. -/
theorem realloc_in_place_last : ∃ h', mmRealloc twoBlocks.heap 4128 100 = some (h', 4128) ∧
    ∃ l', WellFormed h' l' := by
  have hcall := eq_some_getD (twoBlocks.heap, 0)
    (show (mmRealloc twoBlocks.heap 4128 100).map Prod.snd = some 4128 by decide)
  refine ⟨_, hcall, ?_⟩
  refine (realloc_in_place_iff twoBlocks_reachable (n := 1) ?_ (by norm_num) (by norm_num)
    hcall).mpr ⟨16, ?_, Or.inr ?_⟩ <;> decide

/-- Growing the first block over the freed one leaves `last_bp` inside it. -/
theorem realloc_in_place_gap : runs.Reachable gapClient ∧ (4112, 1) ∈ gapClient.live ∧
    ∃ h', mmRealloc gapClient.heap 4112 10 = some (h', 4112) ∧ ¬ ∃ l', WellFormed h' l' := by
  have hlive : (4112, 1) ∈ gapClient.live := by decide
  have hcall := eq_some_getD (gapClient.heap, 0)
    (show (mmRealloc gapClient.heap 4112 10).map Prod.snd = some 4112 by decide)
  refine ⟨gapClient_reachable, hlive, _, hcall, ?_⟩
  obtain ⟨l, hc⟩ := reachable_consistent gapClient_reachable
  rw [in_place_iff hc hlive (by norm_num) (by norm_num) hcall]
  have hbits : getSize gapClient.heap (headerP 4112) = some 16 ∧
      gapClient.heap.lastBp = 4128 := by decide
  rintro ⟨cur, hcur, hor⟩
  rw [hbits.1, Option.some.injEq] at hcur
  rw [hbits.2] at hor
  omega

end SystemSoftware.NextFitRealloc
