import SystemSoftware.BuddyLists

/-!
The pieces of physical memory: the blocks on the free lists and the blocks that
are out. `Cover` says that they make up every page once; taking, halving, joining
and putting back a block keep it. `Pieces` adds the links and whatever is known
of the bits. `expand` cuts a block down, and `alloc_pages` takes the first block
of the smallest sufficient order.
-/
namespace SystemSoftware.BuddyPieces

open ByteMemory LinkedRing BinaryBlocks BuddyPages BuddyBitmap BuddyLists

structure Cover (F : ℕ → List ℕ) (O : List Block) : Prop where
  exact : Exact phyPageN (freeBlocks F maxOrder ++ O)
  aligned : ∀ b ∈ freeBlocks F maxOrder ++ O, Aligned b

theorem freeBlocks_cons {F : ℕ → List ℕ} {k p : ℕ} (hk : k < maxOrder) :
    (freeBlocks (Function.update F k (p :: F k)) maxOrder).Perm
      ((p, k) :: freeBlocks F maxOrder) := by
  have h := freeBlocks_update (F := Function.update F k (p :: F k)) (l := F k) hk
    (by rw [Function.update_self])
  rwa [Function.update_idem, Function.update_eq_self] at h

namespace Cover

variable {F : ℕ → List ℕ} {O O' : List Block} {k p q : ℕ} {l r : List ℕ}

theorem perm (h : Cover F O) (hp : O.Perm O') : Cover F O' where
  exact := h.exact.perm (hp.append_left _)
  aligned := fun b hb => h.aligned b (((hp.append_left _).mem_iff).mpr hb)

theorem hand_first (F : ℕ → List ℕ) (b : Block) (O : List Block) :
    (freeBlocks F maxOrder ++ b :: O).Perm (b :: (freeBlocks F maxOrder ++ O)) :=
  List.perm_middle

theorem hand_aligned (h : Cover F ((p, k) :: O)) : Aligned (p, k) :=
  h.aligned _ (by simp)

theorem hand_lt (h : Cover F ((p, k) :: O)) : p < phyPageN :=
  h.exact.lt_of_mem (b := (p, k)) (by simp) (covers_self _)

/-- No page of a block in hand is on a list. -/
theorem not_listed (h : Cover F ((p, k) :: O)) (hq : covers q (p, k) = true) :
    ∀ j < maxOrder, q ∉ F j := by
  intro j hj hqj
  have hmem : (q, j) ∈ freeBlocks F maxOrder ++ O :=
    List.mem_append_left _ (mem_freeBlocks.mpr ⟨hj, hqj⟩)
  have hno := (h.exact.perm (hand_first F (p, k) O)).not_covers hq hmem
  rw [covers_self (q, j)] at hno
  simp at hno

theorem take (h : Cover F O) (hk : k < maxOrder) (hF : F k = p :: r) :
    Cover (Function.update F k r) ((p, k) :: O) := by
  have hperm : (freeBlocks F maxOrder ++ O).Perm
      (freeBlocks (Function.update F k r) maxOrder ++ (p, k) :: O) :=
    ((freeBlocks_update hk (by rw [hF])).append_right O).trans List.perm_middle.symm
  exact ⟨h.exact.perm hperm, fun b hb => h.aligned b (hperm.mem_iff.mpr hb)⟩

/-- The buddy of the lower half of a block in hand is not on a list. -/
theorem upper_not_listed (h : Cover F ((p, k + 1) :: O)) : ∀ j < maxOrder, p ^^^ 2 ^ k ∉ F j := by
  have hpos := Nat.two_pow_pos k
  have hpow : 2 ^ (k + 1) = 2 ^ k + 2 ^ k := by ring
  obtain ⟨c, hc⟩ := h.hand_aligned
  simp only at hc
  have hlow : p = 2 * (c * 2 ^ k) := by rw [hc]; ring
  rw [hlow, buddy_lower, ← hlow]
  refine h.not_listed ?_
  rw [covers_iff]
  simp only [hpow]
  omega

theorem halve (h : Cover F ((p, k + 1) :: O)) (hk : k < maxOrder) :
    Cover (Function.update F k (p :: F k)) ((p + 2 ^ k, k) :: O) := by
  have hal := h.hand_aligned
  have hperm : (freeBlocks (Function.update F k (p :: F k)) maxOrder ++ (p + 2 ^ k, k) :: O).Perm
      ((p, k) :: (p + 2 ^ k, k) :: (freeBlocks F maxOrder ++ O)) :=
    ((freeBlocks_cons hk).append_right _).trans (List.perm_middle.cons _)
  refine ⟨?_, ?_⟩
  · exact (Exact.split_iff.mp (h.exact.perm (hand_first F _ O))).perm hperm.symm
  · intro b hb
    rw [hperm.mem_iff, List.mem_cons, List.mem_cons] at hb
    rcases hb with rfl | rfl | hb
    · exact (aligned_upper hal).1
    · exact (aligned_upper hal).2
    · exact h.aligned b ((hand_first F _ O).mem_iff.mpr (List.mem_cons_of_mem _ hb))

theorem join (h : Cover F ((p, k) :: O)) (hk : k < maxOrder)
    (hF : F k = l ++ (p ^^^ 2 ^ k) :: r) :
    Cover (Function.update F k (l ++ r)) ((p - p % 2 ^ (k + 1), k + 1) :: O) := by
  have hfree : (freeBlocks F maxOrder).Perm
      ((p ^^^ 2 ^ k, k) :: freeBlocks (Function.update F k (l ++ r)) maxOrder) :=
    freeBlocks_update hk (by rw [hF]; exact List.perm_middle)
  have hperm := (hand_first F (p, k) O).trans ((hfree.append_right O).cons (p, k))
  have hjoin := (h.exact.perm hperm).join h.hand_aligned
  refine ⟨hjoin.perm (hand_first _ _ O).symm, ?_⟩
  intro b hb
  rw [(hand_first _ _ O).mem_iff, List.mem_cons] at hb
  rcases hb with rfl | hb
  · exact aligned_parent p k
  · exact h.aligned b (hperm.mem_iff.mpr (List.mem_cons_of_mem _ (List.mem_cons_of_mem _ hb)))

theorem put (h : Cover F ((p, k) :: O)) (hk : k < maxOrder) :
    Cover (Function.update F k (p :: F k)) O := by
  have hperm : (freeBlocks (Function.update F k (p :: F k)) maxOrder ++ O).Perm
      (freeBlocks F maxOrder ++ (p, k) :: O) :=
    ((freeBlocks_cons hk).append_right O).trans (hand_first F _ O).symm
  exact ⟨h.exact.perm hperm.symm, fun b hb => h.aligned b (hperm.mem_iff.mp hb)⟩

end Cover

/-- A relation between bits and lists that cutting a block down keeps: switching
the bit of a block put on its list or taken off it, and taking one of order 15. -/
structure Rider (R : Memory → (ℕ → List ℕ) → Prop) : Prop where
  put : ∀ {m F k p}, R m F → k < 15 → p < phyPageN → Aligned (p, k) → p ∉ F k →
    p ^^^ 2 ^ k ∉ F k →
    R (bitmapSwitch m (bitmapOffset k) (p / 2 ^ (k + 1))).1 (Function.update F k (p :: F k))
  take : ∀ {m F k p r}, R m F → k < 15 → p < phyPageN → Aligned (p, k) → F k = p :: r →
    (F k).Nodup →
    R (bitmapSwitch m (bitmapOffset k) (p / 2 ^ (k + 1))).1 (Function.update F k r)
  take_top : ∀ {m F p r}, R m F → F 15 = p :: r → R m (Function.update F 15 r)

theorem rider_true : Rider (fun _ _ => True) :=
  ⟨fun _ _ _ _ _ _ => trivial, fun _ _ _ _ _ _ => trivial, fun _ _ => trivial⟩

theorem Rider.and {R S : Memory → (ℕ → List ℕ) → Prop} (hR : Rider R) (hS : Rider S) :
    Rider (fun m F => R m F ∧ S m F) where
  put := fun h hk hp hal hnew hb => ⟨hR.put h.1 hk hp hal hnew hb, hS.put h.2 hk hp hal hnew hb⟩
  take := fun h hk hp hal hF hnd => ⟨hR.take h.1 hk hp hal hF hnd, hS.take h.2 hk hp hal hF hnd⟩
  take_top := fun h hF => ⟨hR.take_top h.1 hF, hS.take_top h.2 hF⟩

section Pages

variable {s : Pages} {F : ℕ → List ℕ} {k p : ℕ}

theorem getPageN_physicalAddr (hle : s.physicalMemoryArea + physicalMemorySize ≤ 2 ^ 32)
    (hp : p < phyPageN) : getPageN s (physicalAddr s p) = p := by
  have hp' : p < 65536 := hp
  have hle' : s.physicalMemoryArea + 16777216 ≤ 2 ^ 32 := hle
  have hsub : sub32 (physicalAddr s p) s.physicalMemoryArea = p * 256 := by
    unfold physicalAddr
    have hlt : s.physicalMemoryArea + p * pageSize < 2 ^ 32 := by
      change s.physicalMemoryArea + p * 256 < 2 ^ 32
      omega
    rw [sub32_eq (Nat.le_add_right ..) hlt, Nat.add_sub_cancel_left]
    rfl
  rw [getPageN, hsub, Nat.shiftRight_eq_div_pow]
  exact Nat.mul_div_cancel p (by norm_num)

theorem markUsed_eq (hk : k < maxOrder) (index : ℕ) : markUsed s index k =
    some { s with bitmaps :=
      (bitmapSwitch s.bitmaps (bitmapOffset k) (index / 2 ^ (k + 1))).1 } := by
  simp only [markUsed, areaBitmap, if_pos hk, Option.bind_eq_bind, Option.bind_some,
    Nat.shiftRight_eq_div_pow, Nat.add_comm 1 k]

theorem pair_lt (hp : p < phyPageN) (hk : k < 15) : p / 2 ^ (k + 1) < 2 ^ (15 - k) := by
  refine Nat.div_lt_of_lt_mul ?_
  rw [← pow_add, show k + 1 + (15 - k) = 16 by omega]
  exact hp

theorem freeList_eq (hk : k < maxOrder) : freeList k = some (.area k) := if_pos hk

/-- Putting a block on a list and switching its bit, as `expand` does. -/
theorem bits_cons {m : Memory} (hb : Bits m F) (hk : k < 15) (hp : p < phyPageN)
    (hal : Aligned (p, k)) (hnew : p ∉ F k) :
    Bits (bitmapSwitch m (bitmapOffset k) (p / 2 ^ (k + 1))).1
      (Function.update F k (p :: F k)) := by
  refine hb.switch hk (pair_lt hp hk) (fun j => ?_) (fun j hj => Function.update_of_ne hj ..)
  rw [Function.update_self]
  exact half_cons hnew hal j

/-- Taking a block off a list and switching its bit. -/
theorem bits_erase {m : Memory} {l r : List ℕ} (hb : Bits m F) (hk : k < 15)
    (hp : p < phyPageN) (hal : Aligned (p, k)) (hF : F k = l ++ p :: r) (hnd : (F k).Nodup) :
    Bits (bitmapSwitch m (bitmapOffset k) (p / 2 ^ (k + 1))).1
      (Function.update F k (l ++ r)) := by
  refine hb.switch hk (pair_lt hp hk) (fun j => ?_) (fun j hj => Function.update_of_ne hj ..)
  rw [hF, List.nodup_middle, List.nodup_cons] at hnd
  have hmem : ∀ q, q ∈ F k ↔ q ∈ p :: (l ++ r) := by
    intro q
    rw [hF, List.mem_append, List.mem_cons, List.mem_cons, List.mem_append]
    tauto
  rw [Function.update_self, half_congr hmem, half_cons hnd.1 hal, Bool.xor_assoc, Bool.xor_self,
    Bool.xor_false]

theorem rider_bits : Rider Bits where
  put := fun hb hk hp hal hnew _ => bits_cons hb hk hp hal hnew
  take := fun hb hk hp hal hF hnd => bits_erase hb hk hp hal (l := []) hF hnd
  take_top := by
    intro m F p r hb _ j hj i hi
    rw [Function.update_of_ne (Nat.ne_of_lt hj)]
    exact hb j hj i hi

end Pages

/-- The state of the allocator: the links hold the lists, the pages are made up
of blocks, and `R` relates the bits to the lists. -/
structure Pieces (R : Memory → (ℕ → List ℕ) → Prop) (s : Pages) (F : ℕ → List ℕ)
    (O : List Block) : Prop where
  rings : Rings s.links F
  cover : Cover F O
  rider : R s.bitmaps F
  area_pos : 0 < s.physicalMemoryArea
  area_le : s.physicalMemoryArea + physicalMemorySize ≤ 2 ^ 32

theorem Rings.list_nodup {links : Links ListHead} {F : ℕ → List ℕ} {k : ℕ} (hr : Rings links F)
    (hk : k < maxOrder) : (F k).Nodup :=
  List.Nodup.of_map _ (List.nodup_cons.mp (hr.ring k hk).nodup).2

section Alloc

variable {R : Memory → (ℕ → List ℕ) → Prop} {s : Pages} {F : ℕ → List ℕ} {O : List Block}
  {o k p : ℕ} {r : List ℕ}

/-- One round of `expand`: the lower half of the block in hand is put on its list. -/
theorem cut_step (hR : Rider R) (hs : Pieces R s F ((p, k + 1) :: O)) (hk15 : k < 15) :
    ∃ links, listAdd s (.area k) (.page p) = some { s with links := links } ∧
      Rings links (Function.update F k (p :: F k)) ∧
      Pieces R { s with
        links := links
        bitmaps := (bitmapSwitch s.bitmaps (bitmapOffset k) (p / 2 ^ (k + 1))).1 }
        (Function.update F k (p :: F k)) ((p + 2 ^ k, k) :: O) := by
  have hk : k < maxOrder := Nat.lt_trans hk15 (by decide)
  have hfresh := hs.cover.not_listed (covers_self (p, k + 1))
  obtain ⟨links, hadd, hrings⟩ := listAdd_spec hs.rings hk hfresh
  have hal := (aligned_upper hs.cover.hand_aligned).1
  exact ⟨links, hadd, hrings, hrings, hs.cover.halve hk, hR.put hs.rider hk15 hs.cover.hand_lt hal
    (hfresh k hk) (hs.cover.upper_not_listed k hk), hs.area_pos, hs.area_le⟩

/-- `expand` cuts the block in hand down to order `o`. -/
theorem expand_spec (hR : Rider R) (n : ℕ) : ∀ (s : Pages) (F : ℕ → List ℕ) (p : ℕ),
    Pieces R s F ((p, o + n) :: O) → o + n ≤ 15 →
    ∃ s' F' q, expand s p p o n = some (s', q) ∧ Pieces R s' F' ((q, o) :: O) ∧
      p ≤ q ∧ q + 2 ^ o ≤ p + 2 ^ (o + n) ∧
      s' = { s with links := s'.links, bitmaps := s'.bitmaps } := by
  induction n with
  | zero => exact fun s F p hs _ => ⟨s, F, p, rfl, hs, le_rfl, le_rfl, rfl⟩
  | succ n ih =>
    intro s F p hs hle
    have hk : o + n < maxOrder := by
      change o + n < 16
      omega
    obtain ⟨links, hadd, -, hpieces⟩ := cut_step hR (k := o + n) hs (by omega)
    obtain ⟨s', F', q, hrec, hs', hlo, hhi, hsame⟩ := ih _ _ _ hpieces (by omega)
    have hpow : 2 ^ (o + (n + 1)) = 2 ^ (o + n) + 2 ^ (o + n) := by
      rw [← Nat.add_assoc]
      ring
    refine ⟨s', F', q, ?_, hs', Nat.le_of_add_right_le hlo, by omega, hsame⟩
    simp only [expand, freeList_eq hk, hadd, markUsed_eq hk, Nat.one_shiftLeft,
      Option.bind_eq_bind, Option.bind_some]
    exact hrec

theorem next_head (hs : Pieces R s F O) (hk : k < maxOrder) :
    s.links.next (.area k) = some (((F k).map .page).head?.getD (.area k)) :=
  (hs.rings.ring k hk).next_head

theorem allocFrom_empty (hs : Pieces R s F O) (hk : k < maxOrder) (hF : F k = []) :
    allocFrom s o k = some none := by
  have hnext := next_head hs hk
  simp only [hF, List.map_nil, List.head?_nil, Option.getD_none] at hnext
  simp [allocFrom, freeList_eq hk, hnext]

/-- Taking the first block of a list, its bit included; order 15 keeps its bit. -/
theorem take_spec (hR : Rider R) (hs : Pieces R s F O) (hk : k < maxOrder) (hF : F k = p :: r) :
    ∃ links bitmaps, listDel s (.page p) = some { s with links := links } ∧
      (k ≠ maxOrder - 1 → markUsed { s with links := links } p k =
        some { s with links := links, bitmaps := bitmaps }) ∧
      (k = maxOrder - 1 → bitmaps = s.bitmaps) ∧
      Pieces R { s with links := links, bitmaps := bitmaps } (Function.update F k r)
        ((p, k) :: O) := by
  obtain ⟨links, hdel, hrings⟩ := listDel_spec hs.rings hk (l := []) hF
  have hcover := hs.cover.take hk hF
  by_cases htop : k = 15
  · subst htop
    exact ⟨links, s.bitmaps, hdel, fun hne => absurd rfl hne, fun _ => rfl, hrings, hcover,
      hR.take_top hs.rider hF, hs.area_pos, hs.area_le⟩
  · have hk15 : k < 15 := by
      have hk' : k < 16 := hk
      omega
    exact ⟨links, _, hdel, fun _ => markUsed_eq hk _, fun heq => absurd heq htop, hrings, hcover,
      hR.take hs.rider hk15 hcover.hand_lt hcover.hand_aligned hF (Rings.list_nodup hs.rings hk),
      hs.area_pos, hs.area_le⟩

/-- The state after a block of order `o` from page `q` on has been handed out,
cut from the block of order `k` at `p`. -/
structure HandedOut (R : Memory → (ℕ → List ℕ) → Prop) (s : Pages) (O : List Block)
    (o k p : ℕ) (s' : Pages) (F' : ℕ → List ℕ) (q : ℕ) : Prop where
  pieces : Pieces R s' F' ((q, o) :: O)
  lower : p ≤ q
  upper : q + 2 ^ o ≤ p + 2 ^ k
  order : s'.order = Function.update s.order q o
  area : s'.physicalMemoryArea = s.physicalMemoryArea

theorem HandedOut.addr_ne_null {s' : Pages} {F' : ℕ → List ℕ} {q : ℕ}
    (h : HandedOut R s O o k p s' F' q) : physicalAddr s q ≠ null := by
  have hpos := h.pieces.area_pos
  rw [h.area] at hpos
  rw [physicalAddr]
  exact Nat.ne_of_gt (Nat.add_pos_left hpos _)

/-- The block that has been taken, as the state in which it is cut: the counter and the orders
of the pages do not matter. -/
theorem Pieces.cut (h : Pieces R s F ((p, k) :: O)) (hok : o ≤ k) (n : ℕ) (order : ℕ → ℕ) :
    Pieces R { s with freePhyPageN := n, order := order } F ((p, o + (k - o)) :: O) := by
  rw [Nat.add_sub_cancel' hok]
  exact ⟨h.rings, h.cover, h.rider, h.area_pos, h.area_le⟩

theorem allocFrom_take (hR : Rider R) (hs : Pieces R s F O) (hok : o ≤ k) (hk : k < maxOrder)
    (hF : F k = p :: r) : ∃ s' F' q, allocFrom s o k = some (some (s', physicalAddr s q)) ∧
      HandedOut R s O o k p s' F' q := by
  obtain ⟨links, bitmaps, hdel, hmark, hkeep, hpieces⟩ := take_spec hR hs hk hF
  have hnext := next_head hs hk
  simp only [hF, List.map_cons, List.head?_cons, Option.getD_some] at hnext
  have hpn : getPageN { s with links := links } (physicalAddr { s with links := links } p) = p :=
    getPageN_physicalAddr (s := { s with links := links }) hs.area_le hpieces.cover.hand_lt
  have hdown := hpieces.cut hok (sub32 s.freePhyPageN (1 <<< o)) s.order
  obtain ⟨s', F', q, hexp, hs', hlo, hhi, hsame⟩ := expand_spec hR (k - o) _ _ _ hdown (by
    have hk' : k < 16 := hk
    omega)
  rw [Nat.add_sub_cancel' hok] at hhi
  have harea : s'.physicalMemoryArea = s.physicalMemoryArea := by rw [hsame]
  refine ⟨{ s' with
    order := Function.update s'.order q o
    freePhyPageN := sub32 s'.freePhyPageN (1 <<< o) }, F', q, ?_,
    ⟨⟨hs'.rings, hs'.cover, hs'.rider, hs'.area_pos, hs'.area_le⟩, hlo, hhi, ?_, harea⟩⟩
  · simp only [allocFrom, freeList_eq hk, hnext, Option.bind_eq_bind, Option.bind_some]
    rw [if_pos (by simp)]
    by_cases htop : k = maxOrder - 1
    · rw [hkeep htop] at hexp
      simp only [hdel, Option.bind_some, hpn, if_neg (not_not.mpr htop), hexp]
      simp only [physicalAddr, harea]
    · simp only [hdel, Option.bind_some, hpn, if_pos htop, hmark htop, hexp]
      simp only [physicalAddr, harea]
  · rw [hsame]

/-- The loop of `alloc_pages` finds all lists from `k` on empty and leaves the state
as it is, or hands out a part of the first block of the first list that is not. -/
theorem allocLoop_spec (hR : Rider R) (hs : Pieces R s F O) (n : ℕ) : ∀ k, o ≤ k →
    k + n = maxOrder →
    (allocLoop s o n k = some (s, null) ∧ ∀ j, k ≤ j → j < maxOrder → F j = []) ∨
      ∃ k' p r s' F' q, allocLoop s o n k = some (s', physicalAddr s q) ∧ k ≤ k' ∧
        k' < maxOrder ∧ (∀ j, k ≤ j → j < k' → F j = []) ∧ F k' = p :: r ∧
        HandedOut R s O o k' p s' F' q := by
  induction n with
  | zero =>
    intro k _ hkn
    exact Or.inl ⟨rfl, fun j hkj hj => by omega⟩
  | succ n ih =>
    intro k hok hkn
    have hk : k < maxOrder := by omega
    cases hF : F k with
    | nil =>
      have hrest : ∀ {m}, (∀ j, k + 1 ≤ j → j < m → F j = []) → ∀ j, k ≤ j → j < m → F j = [] := by
        intro m hall j hkj hj
        rcases hkj.eq_or_lt with rfl | hlt
        · exact hF
        · exact hall j hlt hj
      simp only [allocLoop, allocFrom_empty hs hk hF, Option.bind_eq_bind, Option.bind_some]
      rcases ih (k + 1) (by omega) (by omega) with
        ⟨hnull, hall⟩ | ⟨k', p, r, s', F', q, heq, hk', hlt, hall, hp, hout⟩
      · exact Or.inl ⟨hnull, hrest hall⟩
      · exact Or.inr ⟨k', p, r, s', F', q, heq, by omega, hlt, hrest hall, hp, hout⟩
    | cons p r =>
      obtain ⟨s', F', q, hfrom, hout⟩ := allocFrom_take hR hs hok hk hF
      refine Or.inr ⟨k, p, r, s', F', q, ?_, le_rfl, hk, fun j hkj hj => by omega, hF, hout⟩
      simp only [allocLoop, hfrom, Option.bind_eq_bind, Option.bind_some]

/-- Sizes up to 2^23 have an order with a free area. -/
theorem memsizeToOrder_spec {size : ℕ} (h : size ≤ 2 ^ 23) :
    ∃ o, memsizeToOrder size = some o ∧ o < maxOrder := by
  have hsome : (memsizeToOrder size).isSome := by
    rw [memsizeToOrder, List.find?_isSome]
    exact ⟨15, by decide, decide_eq_true h⟩
  obtain ⟨o, ho⟩ := Option.isSome_iff_exists.mp hsome
  refine ⟨o, ho, ?_⟩
  have hmem := List.mem_range.mp (List.mem_of_find?_eq_some ho)
  rcases Nat.lt_succ_iff_lt_or_eq.mp hmem with hlt | rfl
  · exact hlt
  · -- Order 15 comes first in the search.
    rw [memsizeToOrder, List.range_succ, List.find?_append, Option.or_eq_some_iff] at ho
    rcases ho with hfirst | ⟨hnone, -⟩
    · exact List.mem_range.mp (List.mem_of_find?_eq_some hfirst)
    · have h15 := List.find?_eq_none.mp hnone 15 (by decide)
      exact absurd (decide_eq_true h) h15

theorem mmMalloc_eq {size : ℕ} (ho : memsizeToOrder size = some o) (hlt : o < maxOrder) :
    mmMalloc s size = allocLoop s o (maxOrder - o) o := by
  rw [mmMalloc, ho, allocPages, show max 1 (maxOrder - o) = maxOrder - o by omega]

theorem mmMalloc_spec (hR : Rider R) (hs : Pieces R s F O) {size : ℕ} (hsize : size ≤ 2 ^ 23) :
    ∃ o, memsizeToOrder size = some o ∧ o < maxOrder ∧
      ((mmMalloc s size = some (s, null) ∧ ∀ j, o ≤ j → j < maxOrder → F j = []) ∨
        ∃ k p r s' F' q, mmMalloc s size = some (s', physicalAddr s q) ∧ o ≤ k ∧ k < maxOrder ∧
          (∀ j, o ≤ j → j < k → F j = []) ∧ F k = p :: r ∧ HandedOut R s O o k p s' F' q) := by
  obtain ⟨o, ho, hlt⟩ := memsizeToOrder_spec hsize
  refine ⟨o, ho, hlt, ?_⟩
  rw [mmMalloc_eq ho hlt]
  exact allocLoop_spec hR hs (maxOrder - o) o le_rfl (by omega)

end Alloc

end SystemSoftware.BuddyPieces
