import SystemSoftware.BuddyPieces

/-!
The merging of `mm_free` on the free lists. `mergeEnd` follows it: at every order
the freed block comes to, its bit is set when exactly one of its pair and of the
pair that shares the bit is half free. Where the bit is set the buddy has to be
on its list. When the merging stops below order 15, `mm_free` returns and the
merged block is the first one on the list of its order.
-/
namespace SystemSoftware.BuddyMerge

open ByteMemory LinkedRing BinaryBlocks BuddyPages BuddyBitmap BuddyLists BuddyPieces

def pairBit (F : ℕ → List ℕ) (order pair : ℕ) : Bool :=
  xor (half (F order) order pair) (half (F order) order (pair ^^^ 32))

/-- The block that a freed one of order `order` from page `pageN` on ends up in:
`none` when a bit is wrong about the buddy or the merging reaches order 15. -/
def mergeEnd (F : ℕ → List ℕ) : ℕ → ℕ → ℕ → Option Block
  | 0, _, _ => none
  | orders + 1, order, pageN =>
    if pairBit F order (pageN >>> (1 + order)) then
      if pageN ^^^ 2 ^ order ∈ F order then
        mergeEnd F orders (order + 1) (pageN - pageN % 2 ^ (order + 1))
      else none
    else some (pageN, order)

/-- Only the lists of the orders still to come matter. -/
theorem mergeEnd_congr {F G : ℕ → List ℕ} (n : ℕ) : ∀ k p,
    (∀ j, k ≤ j → j < k + n → F j = G j) → mergeEnd F n k p = mergeEnd G n k p := by
  induction n with
  | zero => exact fun _ _ _ => rfl
  | succ n ih =>
    intro k p h
    have hk := h k le_rfl (by omega)
    have hrec := ih (k + 1) (p - p % 2 ^ (k + 1)) fun j hj hjn => h j (by omega) (by omega)
    by_cases hbuddy : p ^^^ 2 ^ k ∈ G k
    · simp only [mergeEnd, pairBit, hk, hrec, if_pos hbuddy]
    · simp only [mergeEnd, pairBit, hk, hrec, if_neg hbuddy]

theorem mergeEnd_update (F : ℕ → List ℕ) (n k p : ℕ) (l : List ℕ) :
    mergeEnd (Function.update F k l) n (k + 1) p = mergeEnd F n (k + 1) p :=
  mergeEnd_congr n (k + 1) p fun _ hj _ => Function.update_of_ne (by omega) ..

section Steps

variable {s : Pages} {F : ℕ → List ℕ} {O : List Block} {k p : ℕ} {l r : List ℕ}

theorem parent_pair (p k : ℕ) :
    p / 2 ^ (k + 1) / 2 = (p - p % 2 ^ (k + 1)) / 2 ^ (k + 1 + 1) := by
  have hdm := Nat.div_add_mod p (2 ^ (k + 1))
  have hlow : p - p % 2 ^ (k + 1) = 2 ^ (k + 1) * (p / 2 ^ (k + 1)) := by omega
  rw [hlow, pow_succ 2 (k + 1), Nat.mul_div_mul_left _ _ (Nat.two_pow_pos _)]

theorem pair_eq (p k : ℕ) : p >>> (1 + k) = p / 2 ^ (k + 1) := by
  rw [Nat.shiftRight_eq_div_pow, Nat.add_comm]

/-- The first page of both buddies, as the loop of `mm_free` computes it. -/
theorem parent_page (hp : p < phyPageN) (hk : k < 15) :
    p &&& (2 ^ 32 - 2 ^ (k + 1)) = p - p % 2 ^ (k + 1) :=
  and_high_bits (Nat.lt_trans hp (by decide)) (by omega)

/-- The number of their pair, as the loop computes it. -/
theorem parent_index (p k : ℕ) :
    (p >>> (1 + k)) >>> 1 = (p - p % 2 ^ (k + 1)) >>> (1 + (k + 1)) := by
  rw [pair_eq (p - p % 2 ^ (k + 1)), ← parent_pair, ← pair_eq, Nat.shiftRight_one]

/-- The block of both buddies holds either of them. -/
theorem parent_holds (hal : Aligned (p, k)) :
    p - p % 2 ^ (k + 1) ≤ p ∧ p + 2 ^ k ≤ p - p % 2 ^ (k + 1) + 2 ^ (k + 1) := by
  have hpow : 2 ^ (k + 1) = 2 ^ k + 2 ^ k := by ring
  obtain ⟨i, -, hpar, hcase⟩ := aligned_cases hal
  rw [hpar, hpow]
  rcases hcase with rfl | rfl <;> omega

/-- What `bitmap_switch` returns for the freed block. -/
theorem prev_bit (hb : Bits s.bitmaps F) (hk : k < 15) (hp : p < phyPageN) :
    (bitmapSwitch s.bitmaps (bitmapOffset k) (p >>> (1 + k))).2 = pairBit F k (p >>> (1 + k)) := by
  rw [pair_eq, bitmapSwitch_prev, hb k hk _ (pair_lt hp hk), pairBit]

/-- Unlinking the buddy and switching the bit of the pair. -/
theorem merge_step (hs : Pieces Bits s F ((p, k) :: O)) (hk : k < 15)
    (hF : F k = l ++ (p ^^^ 2 ^ k) :: r) {m : Memory}
    (hm : (bitmapSwitch s.bitmaps (bitmapOffset k) (p >>> (1 + k))).1 = m) :
    ∃ links, listDelCopy { s with bitmaps := m } (.page (p ^^^ 2 ^ k)) =
        some { s with links := links, bitmaps := m } ∧
      Pieces Bits { s with links := links, bitmaps := m } (Function.update F k (l ++ r))
        ((p - p % 2 ^ (k + 1), k + 1) :: O) := by
  have hk16 : k < maxOrder := Nat.lt_trans hk (by decide)
  have hp := hs.cover.hand_lt
  have hbuddy : p ^^^ 2 ^ k < phyPageN := Nat.xor_lt_two_pow (n := 16) hp
    (Nat.pow_lt_pow_right (by norm_num) (by omega))
  have hpair : (p ^^^ 2 ^ k) / 2 ^ (k + 1) = p / 2 ^ (k + 1) := by
    rw [Nat.xor_div_two_pow, Nat.div_eq_of_lt (Nat.pow_lt_pow_right (by norm_num)
      (Nat.lt_succ_self k)), Nat.xor_zero]
  have hbits := bits_erase hs.rider hk hbuddy (aligned_buddy hs.cover.hand_aligned) hF
    (Rings.list_nodup hs.rings hk16)
  rw [hpair, ← pair_eq, hm] at hbits
  obtain ⟨links, hdel, hrings⟩ :=
    listDelCopy_spec (s := { s with bitmaps := m }) hs.rings hk16 hF
  exact ⟨links, hdel, hrings, hs.cover.join hk16 hF, hbits, hs.area_pos, hs.area_le⟩

/-- A round that unlinks the buddy goes on with the block of both. -/
theorem mergeLoop_merges {t : Pages} (hp : p < phyPageN) (hk : k < 15)
    (hprev : (bitmapSwitch s.bitmaps (bitmapOffset k) (p >>> (1 + k))).2 = true)
    (hdel : listDelCopy
      { s with bitmaps := (bitmapSwitch s.bitmaps (bitmapOffset k) (p >>> (1 + k))).1 }
      (.page (p ^^^ 2 ^ k)) = some t) (n : ℕ) :
    mergeLoop s (n + 1) k p (p >>> (1 + k)) =
      mergeLoop t n (k + 1) (p - p % 2 ^ (k + 1))
        ((p - p % 2 ^ (k + 1)) >>> (1 + (k + 1))) := by
  have hk16 : k < maxOrder := Nat.lt_trans hk (by decide)
  rw [mergeLoop, ← parent_index]
  simp only [areaBitmap, if_pos hk16, hprev, parent_page hp hk, Nat.one_shiftLeft, hdel,
    Option.bind_eq_bind, Option.bind_some, Bool.true_eq_false, if_false]

/-- A round that finds the bit of the pair clear is the last one. -/
theorem mergeLoop_stops (hk : k < maxOrder)
    (hprev : (bitmapSwitch s.bitmaps (bitmapOffset k) (p >>> (1 + k))).2 = false) (n : ℕ) :
    mergeLoop s (n + 1) k p (p >>> (1 + k)) =
      some ({ s with bitmaps := (bitmapSwitch s.bitmaps (bitmapOffset k) (p >>> (1 + k))).1 },
        k, p) := by
  rw [mergeLoop]
  simp only [areaBitmap, if_pos hk, hprev, Option.bind_eq_bind, Option.bind_some, if_true]

end Steps

/-- The loop of `mm_free` has stopped with the block `b`, which is not on its list yet. -/
structure Merged (s : Pages) (F : ℕ → List ℕ) (O : List Block) (k p : ℕ) (b : Block)
    (s' : Pages) (F' : ℕ → List ℕ) : Prop where
  rings : Rings s'.links F'
  cover : Cover F' (b :: O)
  bits : Bits s'.bitmaps (Function.update F' b.2 (b.1 :: F' b.2))
  same : s' = { s with links := s'.links, bitmaps := s'.bitmaps }
  above : ∀ j, b.2 ≤ j → F' j = F j
  subset : ∀ j, ∀ q ∈ F' j, q ∈ F j
  order_lt : b.2 < 15
  lower : b.1 ≤ p
  upper : p + 2 ^ k ≤ b.1 + 2 ^ b.2

section Free

variable {O : List Block}

theorem update_subset {F : ℕ → List ℕ} {k b : ℕ} {l r : List ℕ} (hF : F k = l ++ b :: r) :
    ∀ j, ∀ q ∈ Function.update F k (l ++ r) j, q ∈ F j := by
  intro j q hq
  by_cases hjk : j = k
  · subst hjk
    rw [Function.update_self, List.mem_append] at hq
    rw [hF, List.mem_append, List.mem_cons]
    tauto
  · rwa [Function.update_of_ne hjk] at hq

theorem mergeEnd_order {F : ℕ → List ℕ} {b : Block} (n : ℕ) : ∀ k p,
    mergeEnd F n k p = some b → k ≤ b.2 := by
  induction n with
  | zero =>
    intro k p hend
    cases hend
  | succ n ih =>
    intro k p hend
    simp only [mergeEnd] at hend
    split_ifs at hend
    · exact Nat.le_of_succ_le (ih (k + 1) _ hend)
    · obtain rfl := Option.some.inj hend
      exact le_rfl

/-- The loop of `mm_free` follows `mergeEnd`. -/
theorem mergeLoop_spec {b : Block} (n : ℕ) : ∀ (s : Pages) (F : ℕ → List ℕ) (k p : ℕ), k + n = 15 →
    Pieces Bits s F ((p, k) :: O) → mergeEnd F n k p = some b →
    ∃ s' F', mergeLoop s (n + 1) k p (p >>> (1 + k)) = some (s', b.2, b.1) ∧
      Merged s F O k p b s' F' := by
  induction n with
  | zero =>
    intro s F k p _ _ hend
    cases hend
  | succ n ih =>
    intro s F k p hkn hs hend
    have hk15 : k < 15 := by omega
    have hk : k < maxOrder := Nat.lt_trans hk15 (by decide)
    have hp := hs.cover.hand_lt
    have hfresh := hs.cover.not_listed (covers_self (p, k))
    have hal := hs.cover.hand_aligned
    have hprev := prev_bit hs.rider hk15 hp
    simp only [mergeEnd] at hend
    split_ifs at hend with hbit hbuddy
    · obtain ⟨l, r, hF⟩ := List.append_of_mem hbuddy
      rw [hbit] at hprev
      obtain ⟨links, hdel, hpieces⟩ := merge_step hs hk15 hF rfl
      have habove : ∀ j, k + 1 ≤ j → Function.update F k (l ++ r) j = F j :=
        fun j hj => Function.update_of_ne (by omega) ..
      rw [← mergeEnd_update F n k _ (l ++ r)] at hend
      obtain ⟨s', F', hrec, hmerged⟩ := ih _ _ (k + 1) _ (by omega) hpieces hend
      have hle := mergeEnd_order n _ _ hend
      have hparent := parent_holds hal
      have hupper := hmerged.upper
      refine ⟨s', F', ?_, {
        rings := hmerged.rings
        cover := hmerged.cover
        bits := hmerged.bits
        same := hmerged.same
        above := fun j hj => (hmerged.above j hj).trans (habove j (hle.trans hj))
        subset := fun j q hq => update_subset hF j q (hmerged.subset j q hq)
        order_lt := hmerged.order_lt
        lower := hmerged.lower.trans hparent.1
        upper := by omega }⟩
      exact (mergeLoop_merges hp hk15 hprev hdel (n + 1)).trans hrec
    · obtain rfl := Option.some.inj hend
      rw [Bool.not_eq_true] at hbit
      rw [hbit] at hprev
      refine ⟨{ s with bitmaps :=
        (bitmapSwitch s.bitmaps (bitmapOffset k) (p >>> (1 + k))).1 }, F,
        mergeLoop_stops hk hprev (n + 1), {
        rings := hs.rings
        cover := hs.cover
        bits := pair_eq p k ▸ bits_cons hs.rider hk15 hp hal (hfresh k hk)
        same := rfl
        above := fun _ _ => rfl
        subset := fun _ _ hq => hq
        order_lt := hk15
        lower := le_rfl
        upper := le_rfl }⟩

/-- After `mm_free` of the block of order `k` at `p`: it lies in `b`, the first block
on the list of its order. -/
structure Freed (s : Pages) (F : ℕ → List ℕ) (O : List Block) (k p : ℕ) (b : Block)
    (s' : Pages) (F' : ℕ → List ℕ) : Prop where
  pieces : Pieces Bits s' F' O
  first : F' b.2 = b.1 :: F b.2
  others : ∀ j, j ≠ b.2 → ∀ q ∈ F' j, q ∈ F j
  order_lt : b.2 < 15
  lower : b.1 ≤ p
  upper : p + 2 ^ k ≤ b.1 + 2 ^ b.2
  order : s'.order = s.order
  area : s'.physicalMemoryArea = s.physicalMemoryArea

theorem mmFree_spec {s : Pages} {F : ℕ → List ℕ} {k p : ℕ} {b : Block}
    (hs : Pieces Bits s F ((p, k) :: O)) (hk : k ≤ 15) (horder : s.order p = k)
    (hend : mergeEnd F (15 - k) k p = some b) :
    ∃ s' F', mmFree s (physicalAddr s p) = some s' ∧ Freed s F O k p b s' F' := by
  have hpn := getPageN_physicalAddr hs.area_le hs.cover.hand_lt
  obtain ⟨s', F', hloop, hm⟩ := mergeLoop_spec (15 - k) s F k p (by omega) hs hend
  have hk16 : b.2 < maxOrder := Nat.lt_trans hm.order_lt (by decide)
  obtain ⟨links, hadd, hrings⟩ :=
    listAdd_spec hm.rings hk16 (hm.cover.not_listed (covers_self b))
  have hrounds : maxOrder - k = 15 - k + 1 := by
    change 16 - k = 15 - k + 1
    omega
  have harea : s'.physicalMemoryArea = s.physicalMemoryArea := by rw [hm.same]
  refine ⟨{ s' with links := links }, Function.update F' b.2 (b.1 :: F' b.2), ?_, {
    pieces := ⟨hrings, hm.cover.put hk16, hm.bits, ?_, ?_⟩
    first := by rw [Function.update_self, hm.above b.2 le_rfl]
    others := ?_
    order_lt := hm.order_lt
    lower := hm.lower
    upper := hm.upper
    order := by rw [hm.same]
    area := harea }⟩
  · simp only [mmFree, hpn, horder, hrounds, hloop, freeList_eq hk16, hadd,
      Option.bind_eq_bind, Option.bind_some]
  · rw [harea]
    exact hs.area_pos
  · rw [harea]
    exact hs.area_le
  · intro j hj q hq
    rw [Function.update_of_ne hj] at hq
    exact hm.subset j q hq

end Free

end SystemSoftware.BuddyMerge
