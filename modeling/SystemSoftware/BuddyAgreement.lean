import SystemSoftware.BuddyRuns

/-!
Whether the bits of the buddy allocator agree with its free lists. Below order
10 `BITMAP_INDEX` gives every pair of buddies the bit of another pair as well, and
a free block there sets the bit of both. So the bits agree with the lists
exactly while the lists below order 10 are empty: in the runs in which no
allocation up to 2^17 bytes cuts up a block and no free merges beyond order 14.
-/
namespace SystemSoftware.BuddyAgreement

open BinaryBlocks BuddyPages BuddyBitmap BuddyLists BuddyPieces BuddyMerge BuddyShape BuddyCalls
open BuddyRuns Transitions

def BitsAgree (s : Pages) : Prop :=
  ∀ k ≤ 14, ∀ i < 2 ^ (15 - k), bitmapGet s.bitmaps (bitmapOffset k) i = true ↔
    Xor (i * 2 ^ (k + 1) ∈ freePages s k) (i * 2 ^ (k + 1) + 2 ^ k ∈ freePages s k)

/-- The merging of a freed block of order `order` from page `pageN` on, followed
on the lists `F`: at some order below 15 the buddy is not free. -/
def mergeStops (F : ℕ → List ℕ) : ℕ → ℕ → ℕ → Bool
  | 0, _, _ => false
  | orders + 1, order, pageN =>
    !decide (pageN ^^^ 2 ^ order ∈ F order) ||
      mergeStops F orders (order + 1) (pageN - pageN % 2 ^ (order + 1))

/-- An allocation gets an order of 10 or above or finds nothing free, and a free
does not merge beyond order 14. -/
def Coarse (c : Client) : Call → Prop
  | .malloc size => 2 ^ 17 < size ∨ ∀ k < maxOrder, freePages c.pages k = []
  | .free p => mergeStops (freePages c.pages) (15 - (blockAt c.pages p).2)
      (blockAt c.pages p).2 (blockAt c.pages p).1 = true

section Bits

variable {s : Pages} {F : ℕ → List ℕ} {O : List Block} {k i p : ℕ}

theorem half_iff (l : List ℕ) (k i : ℕ) : half l k i = true ↔
    Xor (i * 2 ^ (k + 1) ∈ l) (i * 2 ^ (k + 1) + 2 ^ k ∈ l) := by
  have hpair : 2 * (i * 2 ^ k) = i * 2 ^ (k + 1) := by ring
  rw [half, hpair, Bool.xor_iff_ne, Xor]
  by_cases hlo : i * 2 ^ (k + 1) ∈ l <;> by_cases hhi : i * 2 ^ (k + 1) + 2 ^ k ∈ l <;>
    simp [hlo, hhi]

/-- The bits agree with the lists when no pair that shares its bit is half free. -/
theorem bitsAgree_iff (hs : Shape s F O) :
    BitsAgree s ↔ ∀ k ≤ 14, ∀ i < 2 ^ (15 - k), half (F k) k (i ^^^ 32) = false := by
  refine forall_congr' fun k => forall_congr' fun hk => forall_congr' fun i =>
    forall_congr' fun hi => ?_
  have hk15 : k < 15 := Nat.lt_succ_of_le hk
  rw [← half_iff, freePages_eq hs.pieces (Nat.lt_trans hk15 (by decide)), bitmapGet_eq,
    hs.bits k hk15 i hi]
  cases half (F k) k i <;> cases half (F k) k (i ^^^ 32) <;> simp

theorem mem_blocks (O : List Block) (hk : k < 15) (hmem : p ∈ F k) :
    (p, k) ∈ freeBlocks F maxOrder ++ O :=
  List.mem_append_left _ (mem_freeBlocks.mpr ⟨Nat.lt_trans hk (by decide), hmem⟩)

theorem page_lt (hp : Partition F O) (hk : k < 15) (hmem : p ∈ F k) : p < phyPageN :=
  hp.exact.lt_of_mem (mem_blocks O hk hmem) (covers_self (p, k))

/-- From order 10 on the pair that shares the bit lies behind the memory. -/
theorem half_shared (hp : Partition F O) (hk : 10 ≤ k) (hk15 : k < 15) (hi : i < 2 ^ (15 - k)) :
    half (F k) k (i ^^^ 32) = false := by
  have hpow : 2 ^ (15 - k) ≤ 2 ^ 5 := Nat.pow_le_pow_right (by norm_num) (by omega)
  have hout : i ^^^ 32 = i + 32 := by
    rw [xor_32, if_pos (by omega)]
  have hsize : 2 ^ 10 ≤ 2 ^ k := Nat.pow_le_pow_right (by norm_num) hk
  have hfar : 65536 ≤ 2 * ((i + 32) * 2 ^ k) := by
    have h := Nat.mul_le_mul (Nat.le_add_left 32 i) hsize
    omega
  have hin : ∀ x ∈ F k, x < 65536 := fun x hx => page_lt hp hk15 hx
  have hlo : 2 * ((i + 32) * 2 ^ k) ∉ F k := fun h => by
    have hlt := hin _ h
    omega
  have hhi : 2 * ((i + 32) * 2 ^ k) + 2 ^ k ∉ F k := fun h => by
    have hlt := hin _ h
    omega
  simp [hout, half, hlo, hhi]

/-- A pair with a free block is half free, because buddies are not both free. -/
theorem half_of_mem (hp : Partition F O) (hk : k < 15) (hmem : p ∈ F k) :
    half (F k) k (p / 2 ^ (k + 1)) = true := by
  have hlone := hp.lone k hk p hmem
  have hal : Aligned (p, k) := hp.aligned _ (mem_blocks O hk hmem)
  obtain ⟨i, hi, -, hcase⟩ := aligned_cases hal
  rw [hi, half]
  rcases hcase with rfl | rfl
  · rw [buddy_lower] at hlone
    simp [hmem, hlone]
  · rw [buddy_upper] at hlone
    simp [hmem, hlone]

/-- The bits agree with the lists exactly when the lists below order 10 are empty. -/
theorem bitsAgree_iff_nil (hs : Shape s F O) : BitsAgree s ↔ ∀ k < 10, F k = [] := by
  have hpart := hs.partition
  rw [bitsAgree_iff hs]
  constructor
  · intro hclear k hk
    rw [List.eq_nil_iff_forall_not_mem]
    intro p hmem
    have hk15 : k < 15 := Nat.lt_trans hk (by norm_num)
    have hshare : p / 2 ^ (k + 1) ^^^ 32 < 2 ^ (15 - k) :=
      Nat.xor_lt_two_pow (pair_lt (page_lt hpart hk15 hmem) hk15)
        (Nat.pow_lt_pow_right (by norm_num : 1 < 2) (by omega : 5 < 15 - k))
    have hfalse := hclear k (Nat.le_of_lt_succ hk15) _ hshare
    rw [Nat.xor_xor_cancel_right, half_of_mem hpart hk15 hmem] at hfalse
    exact Bool.noConfusion hfalse
  · intro hnil k hk i hi
    rcases Nat.lt_or_ge k 10 with hlt | hge
    · simp [half, hnil k hlt]
    · exact half_shared hpart hge (Nat.lt_succ_of_le hk) hi

/-- On blocks of order 10 and above the bits on the way of a merging are right. -/
theorem mergesSafely_eq (hp : Partition F O) (n : ℕ) : ∀ k p, k + n = 15 → 10 ≤ k →
    p < phyPageN → mergesSafely F n k p = mergeStops F n k p := by
  induction n with
  | zero => exact fun _ _ _ _ _ => rfl
  | succ n ih =>
    intro k p hkn hk hlt
    have hk15 : k < 15 := by omega
    have hpair : p >>> (1 + k) = p / 2 ^ (k + 1) := by
      rw [Nat.shiftRight_eq_div_pow, Nat.add_comm]
    have hparent : p - p % 2 ^ (k + 1) < phyPageN := Nat.lt_of_le_of_lt (Nat.sub_le ..) hlt
    rw [mergesSafely, mergeStops, hpair, half_shared hp hk hk15 (pair_lt hlt hk15),
      ih (k + 1) _ (by omega) (by omega) hparent, Bool.not_false, Bool.true_and]

end Bits

section Coarse

variable {F : ℕ → List ℕ} {O : List Block} {q o : ℕ}

/-- When every live block has order 10 or above, so has every free one. -/
theorem nil_of_coarse (hp : Partition F O) (hO : ∀ b ∈ O, 10 ≤ b.2) : ∀ k < 10, F k = [] := by
  have hfree : ∀ b ∈ freeBlocks F maxOrder ++ O, b.2 < 10 → b.1 ∈ F b.2 := by
    intro b hb hlt
    rcases List.mem_append.mp hb with hb | hb
    · exact (mem_freeBlocks.mp hb).2
    · have hge := hO b hb
      omega
  have hall := hp.exact.le_of_lone (m := 16) (d := 10) hp.aligned (by norm_num)
    fun b hb hlt hbuddy => hp.lone b.2 (Nat.lt_trans hlt (by norm_num)) b.1 (hfree b hb hlt)
      (hfree _ hbuddy hlt)
  intro k hk
  rw [List.eq_nil_iff_forall_not_mem]
  intro p hmem
  have hge : 10 ≤ k := hall _ (mem_blocks O (Nat.lt_trans hk (by norm_num)) hmem)
  omega

/-- A first live block of a smaller order leaves a free one of a smaller order. -/
theorem not_nil_of_fine (hp : Partition F ((q, o) :: O)) (hO : ∀ b ∈ O, 10 ≤ b.2) (ho : o < 10) :
    ¬ ∀ k < 10, F k = [] := by
  intro hnil
  have honly : ∀ b ∈ freeBlocks F maxOrder ++ (q, o) :: O, b.2 < 10 → b = (q, o) := by
    intro b hb hlt
    rcases List.mem_append.mp hb with hb | hb
    · have hmem := (mem_freeBlocks.mp hb).2
      rw [hnil b.2 hlt] at hmem
      cases hmem
    · rcases List.mem_cons.mp hb with heq | hb
      · exact heq
      · have hge := hO b hb
        omega
  have hall := hp.exact.le_of_lone (m := 16) (d := 10) hp.aligned (by norm_num) ?_ (q, o)
    (List.mem_append_right _ List.mem_cons_self)
  · exact Nat.not_lt_of_le hall ho
  · intro b hb hlt hbuddy
    have hpage := congrArg Prod.fst (honly _ hbuddy hlt)
    rw [honly b hb hlt] at hpage
    exact buddy_ne q o hpage

/-- Sizes up to 2^17 are those of the orders below 10. -/
theorem order_lt_iff {size : ℕ} (h : memsizeToOrder size = some o) : o < 10 ↔ size ≤ 2 ^ 17 := by
  rw [memsizeToOrder, List.find?_range_eq_some] at h
  obtain ⟨hfits, -, hleast⟩ := h
  have hfits' := of_decide_eq_true hfits
  constructor
  · intro ho
    have hle : pageSize <<< o ≤ pageSize <<< 9 := by
      rw [Nat.shiftLeft_eq, Nat.shiftLeft_eq]
      exact Nat.mul_le_mul_left _ (Nat.pow_le_pow_right (by norm_num) (by omega))
    exact hfits'.trans hle
  · intro hsize
    by_contra ho
    have hno := hleast 9 (by omega)
    rw [Bool.not_eq_true', decide_eq_false_iff_not] at hno
    exact hno hsize

end Coarse

structure CoarseClient (c : Client) (F : ℕ → List ℕ) : Prop where
  consistent : Consistent c F
  live_ge : ∀ b ∈ liveBlocks c, 10 ≤ b.2

section Runs

variable {s s' : Pages} {F F' : ℕ → List ℕ} {live : List ℕ} {p q o size : ℕ}

theorem CoarseClient.nil {c : Client} (hc : CoarseClient c F) : ∀ k < 10, F k = [] :=
  nil_of_coarse hc.consistent.shape.partition hc.live_ge

theorem CoarseClient.agree {c : Client} (hc : CoarseClient c F) : BitsAgree c.pages :=
  (bitsAgree_iff_nil hc.consistent.shape).mpr hc.nil

theorem partition_freePages {O : List Block} (hs : Shape s F O) : Partition (freePages s) O where
  exact := by
    rw [freeBlocks_congr fun k hk => freePages_eq hs.pieces hk]
    exact hs.partition.exact
  aligned := by
    rw [freeBlocks_congr fun k hk => freePages_eq hs.pieces hk]
    exact hs.partition.aligned
  lone := by
    intro k hk
    rw [freePages_eq hs.pieces (Nat.lt_trans hk (by decide))]
    exact hs.partition.lone k hk

theorem CoarseClient.safeFree (hc : CoarseClient ⟨s, live⟩ F) (hp : p ∈ live)
    (hcoarse : Coarse ⟨s, live⟩ (.free p)) : SafeFree ⟨s, live⟩ (.free p) := by
  have hmem : blockAt s p ∈ liveBlocks ⟨s, live⟩ := List.mem_map_of_mem hp
  have hle : (blockAt s p).2 ≤ 15 := Nat.le_of_lt_succ (hc.consistent.order_lt p hp)
  have hlt : (blockAt s p).1 < phyPageN := hc.consistent.shape.partition.exact.lt_of_mem
    (List.mem_append_right _ hmem) (covers_self _)
  have heq := mergesSafely_eq (partition_freePages hc.consistent.shape) (15 - (blockAt s p).2) _ _
    (by omega) (hc.live_ge _ hmem) hlt
  exact heq.trans hcoarse

/-- `mm_malloc` finds nothing exactly when all lists from its order on are empty. -/
theorem mmMalloc_null_iff {O : List Block} (hs : Shape s F O) (hsize : size ≤ 2 ^ 23)
    (ho : memsizeToOrder size = some o) :
    mmMalloc s size = some (s, null) ↔ ∀ j, o ≤ j → j < maxOrder → F j = [] := by
  obtain ⟨o', ho', -, hcase⟩ := mmMalloc_spec rider_bits hs.pieces hsize
  obtain rfl : o = o' := Option.some.inj (ho.symm.trans ho')
  rcases hcase with ⟨hnull, hall⟩ | ⟨k, p, r, s', F', q, heq, hk, hlt, -, hF, hout⟩
  · exact iff_of_true hnull hall
  · refine iff_of_false (fun hnull => ?_) fun hall => ?_
    · rw [heq, Option.some.injEq, Prod.mk.injEq] at hnull
      exact hout.addr_ne_null hnull.2
    · have hnil := hall k hk hlt
      rw [hF] at hnil
      cases hnil

theorem coarse_malloc (hc : CoarseClient ⟨s, live⟩ F) (hsize : size ≤ 2 ^ 23)
    (hcoarse : Coarse ⟨s, live⟩ (.malloc size)) (hcall : mmMalloc s size = some (s', q))
    (hne : q ≠ null) : ∃ F', CoarseClient ⟨s', q :: live⟩ F' := by
  have hshape := hc.consistent.shape
  rcases malloc_returns hc.consistent hsize with hnull | ⟨s₁, F₁, n, o, heq, hn, ho, hc', hblocks⟩
  · rw [hnull, Option.some.injEq, Prod.mk.injEq] at hcall
    exact absurd hcall.2.symm hne
  have hge : 10 ≤ o := by
    rcases hcoarse with hbig | hempty
    · have hiff := order_lt_iff ho
      omega
    -- With nothing free the call would have been refused.
    · have hrefused := (mmMalloc_null_iff hshape hsize ho).mpr fun j _ hj =>
        (freePages_eq hshape.pieces hj).symm.trans (hempty j hj)
      rw [heq, Option.some.injEq, Prod.mk.injEq] at hrefused
      exact absurd hrefused.2 hn
  rw [heq, Option.some.injEq, Prod.mk.injEq] at hcall
  obtain ⟨rfl, rfl⟩ := hcall
  refine ⟨F₁, hc', ?_⟩
  rw [hblocks]
  exact List.forall_mem_cons.mpr ⟨hge, hc.live_ge⟩

theorem coarse_free (hc : CoarseClient ⟨s, live⟩ F) (hp : p ∈ live)
    (hcoarse : Coarse ⟨s, live⟩ (.free p)) (hcall : mmFree s p = some s') :
    ∃ F', CoarseClient ⟨s', live.erase p⟩ F' := by
  obtain ⟨s₁, F₁, heq, hc', hblock⟩ := free_returns hc.consistent hp (hc.safeFree hp hcoarse)
  rw [heq, Option.some.injEq] at hcall
  subst hcall
  refine ⟨F₁, hc', fun b hb => ?_⟩
  rw [liveBlocks, hblock] at hb
  obtain ⟨a, ha, rfl⟩ := List.mem_map.mp hb
  exact hc.live_ge _ (List.mem_map_of_mem (List.mem_of_mem_erase ha))

end Runs

theorem coarse_started {c : Client} (hc : Started c) : CoarseClient c initialLists where
  consistent := consistent_started hc
  live_ge := by
    rw [liveBlocks, hc.1]
    exact fun _ hb => absurd hb List.not_mem_nil

theorem coarse_step {c c' : Client} {a : Call} (hc : ∃ F, CoarseClient c F)
    (hstep : Step c a c') (hcoarse : Coarse c a) : ∃ F, CoarseClient c' F := by
  obtain ⟨F, hc⟩ := hc
  cases hstep with
  | malloc hsize hcall hne => exact coarse_malloc hc hsize hcoarse hcall hne
  | refused hsize hcall =>
    rcases malloc_returns hc.consistent hsize with hnull | ⟨s₁, F₁, n, o, heq, hn, -⟩
    · rw [hnull, Option.some.injEq, Prod.mk.injEq] at hcall
      exact ⟨F, hcall.1 ▸ hc⟩
    · rw [heq, Option.some.injEq, Prod.mk.injEq] at hcall
      exact absurd hcall.2 hn
  | free hp hcall => exact coarse_free hc hp hcoarse hcall

theorem reachable_coarse {c : Client} (hc : (runs.guarded Coarse).Reachable c) :
    ∃ F, CoarseClient c F := by
  apply hc.invariant
  · intro s hs
    exact ⟨_, coarse_started hs⟩
  · intro s a s' hs hstep
    exact coarse_step hs hstep.1 hstep.2

/-- An allocation that cuts up a block for an order below 10 sets a wrong bit. -/
theorem disagree_of_fine {c : Client} {F : ℕ → List ℕ} {size : ℕ} (hc : CoarseClient c F)
    (hsize : size ≤ 2 ^ 17) (hfree : ∃ k < maxOrder, freePages c.pages k ≠ []) :
    ¬ BitsAgree (c.malloc size).pages := by
  obtain ⟨s, live⟩ := c
  obtain ⟨k, hk, hne⟩ := hfree
  have hshape := hc.consistent.shape
  rw [freePages_eq hshape.pieces hk] at hne
  have hle : size ≤ 2 ^ 23 := hsize.trans (by norm_num)
  obtain ⟨o, ho, -⟩ := memsizeToOrder_spec hle
  have hlt : o < 10 := (order_lt_iff ho).mpr hsize
  rcases malloc_returns hc.consistent hle with hnull | ⟨s', F', q, o', heq, hq, ho', hc', hblocks⟩
  · have hge : ¬ k < 10 := fun h => hne (hc.nil k h)
    exact absurd ((mmMalloc_null_iff hshape hle ho).mp hnull k (by omega) hk) hne
  · obtain rfl : o = o' := Option.some.inj (ho.symm.trans ho')
    have hnew : (Client.malloc ⟨s, live⟩ size).pages = s' := by
      rw [Client.malloc, heq]
      simp only [if_neg hq]
    have hs' : Shape s' F' ((q, o) :: liveBlocks ⟨s, live⟩) := hblocks ▸ hc'.shape
    rw [hnew, bitsAgree_iff_nil hs']
    exact not_nil_of_fine hs'.partition hc.live_ge hlt

/-- While allocations get orders from 10 on and frees stop merging below order
15 the bits agree with the lists; an allocation of a smaller order that finds a
block ends the agreement. -/
theorem bits_agree {c : Client} (hc : (runs.guarded Coarse).Reachable c) :
    BitsAgree c.pages ∧ ∀ size ≤ 2 ^ 23,
      (BitsAgree (c.malloc size).pages ↔ Coarse c (.malloc size)) := by
  obtain ⟨F, hF⟩ := reachable_coarse hc
  refine ⟨hF.agree, fun size hsize => ⟨fun hagree => ?_, fun hcoarse => ?_⟩⟩
  · by_contra hfine
    rw [Coarse, not_or, Nat.not_lt] at hfine
    push Not at hfine
    exact disagree_of_fine hF hfine.1 hfine.2 hagree
  · obtain ⟨F', hF'⟩ := reachable_coarse (reachable_malloc hc hsize hcoarse)
    exact hF'.agree

/-- Two blocks of order 14 are allocated and the second is freed again, its buddy
still in use. -/
theorem bits_agree_once :
    BitsAgree (((startedClient.malloc (2 ^ 22)).malloc (2 ^ 22)).free 9449672).pages := by
  have hsize : 2 ^ 22 ≤ 2 ^ 23 := by norm_num
  have hbig : ∀ c, Coarse c (.malloc (2 ^ 22)) := fun _ => Or.inl (by norm_num)
  have hc := reachable_malloc (reachable_malloc startedClient_reachable hsize (hbig _)) hsize
    (hbig _)
  have hcoarse : Coarse ((startedClient.malloc (2 ^ 22)).malloc (2 ^ 22)) (.free 9449672) := by
    change mergeStops _ _ _ _ = true
    decide
  exact (bits_agree (.step hc ⟨free_step (by decide) (by decide), hcoarse⟩)).1

/-- After the first allocation of a page, of the last pair of order 9 one block is
free, and so the bit of the pair that shares its bit is set. -/
theorem bits_disagree_page :
    runs.Reachable (startedClient.malloc 1) ∧ ¬ BitsAgree (startedClient.malloc 1).pages := by
  have hc : runs.Reachable (startedClient.malloc 1) :=
    (reachable_malloc (G := SafeFree) startedClient_reachable (by norm_num) trivial).of_guarded
  refine ⟨hc, fun hagree => ?_⟩
  have hpair := (hagree 9 (by norm_num) 31 (by norm_num)).mp (by decide +kernel)
  have hlo : 31 * 2 ^ 10 ∉ freePages (startedClient.malloc 1).pages 9 := by decide
  have hhi : 31 * 2 ^ 10 + 2 ^ 9 ∉ freePages (startedClient.malloc 1).pages 9 := by decide
  exact hpair.elim (fun h => hlo h.1) fun h => hhi h.1

end SystemSoftware.BuddyAgreement
