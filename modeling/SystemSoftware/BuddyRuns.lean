import SystemSoftware.BuddyCalls
import SystemSoftware.Transitions
import Mathlib.Data.List.Perm.Subperm

/-!
Runs of the buddy allocator. A run starts with `mm_init` on memory of any
contents; the client allocates up to 2^23 bytes at a time and frees what it
holds. As long as no free merges by a bit that is wrong about the buddy, the
free lists and the live blocks partition the physical pages.
-/
namespace SystemSoftware.BuddyRuns

open ByteMemory LinkedRing BinaryBlocks BuddyPages BuddyBitmap BuddyLists BuddyPieces BuddyMerge
open BuddyShape BuddyCalls Transitions

structure Client where
  pages : Pages
  live : List ℕ

inductive Call
  | malloc (size : ℕ)
  | free (ptr : ℕ)

inductive Step : Client → Call → Client → Prop
  | malloc {s s' : Pages} {live : List ℕ} {size p : ℕ} (hsize : size ≤ 2 ^ 23)
      (hcall : mmMalloc s size = some (s', p)) (hp : p ≠ null) :
      Step ⟨s, live⟩ (.malloc size) ⟨s', p :: live⟩
  | refused {s s' : Pages} {live : List ℕ} {size : ℕ} (hsize : size ≤ 2 ^ 23)
      (hcall : mmMalloc s size = some (s', null)) :
      Step ⟨s, live⟩ (.malloc size) ⟨s', live⟩
  | free {s s' : Pages} {live : List ℕ} {p : ℕ} (hp : p ∈ live)
      (hcall : mmFree s p = some s') :
      Step ⟨s, live⟩ (.free p) ⟨s', live.erase p⟩

/-- The client after `mm_init`, with the 20 MB of memlib.c anywhere below 2^32. -/
def Started (c : Client) : Prop :=
  c.live = [] ∧ ∃ s memStartBrk, memStartBrk + 20 * 2 ^ 20 ≤ 2 ^ 32 ∧
    mmInit s memStartBrk = some c.pages

def runs : System Client Call := ⟨Started, Step⟩

def blockAt (s : Pages) (addr : ℕ) : Block := (getPageN s addr, s.order (getPageN s addr))

def liveBlocks (c : Client) : List Block := c.live.map (blockAt c.pages)

def pageOf : ListHead → Option ℕ
  | .area _ => none
  | .page n => some n

def nodesOf (s : Pages) (order : ℕ) : Option (List ListHead) :=
  walkTo s.links (.area order) (phyPageN + 1) (.area order)

def freePages (s : Pages) (order : ℕ) : List ℕ :=
  ((nodesOf s order).getD []).filterMap pageOf

/-- The free lists and the live blocks partition the pages into aligned blocks,
of which no two free ones are buddies. -/
structure Tiled (c : Client) : Prop where
  lists : ∀ k < maxOrder, nodesOf c.pages k = some ((freePages c.pages k).map .page)
  once : ∀ x < phyPageN,
    (freeBlocks (freePages c.pages) maxOrder ++ liveBlocks c).countP (covers x) = 1
  aligned : ∀ b ∈ freeBlocks (freePages c.pages) maxOrder ++ liveBlocks c,
    2 ^ b.2 ∣ b.1 ∧ b.1 + 2 ^ b.2 ≤ phyPageN
  lone : ∀ k < 15, ∀ p ∈ freePages c.pages k, p ^^^ 2 ^ k ∉ freePages c.pages k
  whole : c.live = [] →
    (freePages c.pages 15).Perm [0, 32768] ∧ ∀ k < 15, freePages c.pages k = []

/-- The merging of a freed block is led by bits that are right about its buddies. -/
def SafeFree (c : Client) : Call → Prop
  | .malloc _ => True
  | .free p => mergesSafely (freePages c.pages) (15 - (blockAt c.pages p).2)
      (blockAt c.pages p).2 (blockAt c.pages p).1 = true

/-- The client holds page addresses, and with its blocks the allocator is in shape. -/
structure Consistent (c : Client) (F : ℕ → List ℕ) : Prop where
  shape : Shape c.pages F (liveBlocks c)
  address : ∀ p ∈ c.live, p = physicalAddr c.pages (getPageN c.pages p)
  order_lt : ∀ p ∈ c.live, (blockAt c.pages p).2 < maxOrder

/-- The client holds page addresses, and with its blocks the allocator is made of
pieces, the bits and lists being related by `R`. -/
structure Holds (R : Memory → (ℕ → List ℕ) → Prop) (c : Client) (F : ℕ → List ℕ) : Prop where
  pieces : Pieces R c.pages F (liveBlocks c)
  address : ∀ p ∈ c.live, p = physicalAddr c.pages (getPageN c.pages p)
  order_lt : ∀ p ∈ c.live, (blockAt c.pages p).2 < maxOrder

theorem consistent_iff {c : Client} {F : ℕ → List ℕ} :
    Consistent c F ↔ Holds (fun m F => Bits m F ∧ Lone F) c F :=
  ⟨fun h => ⟨shape_iff.mp h.shape, h.address, h.order_lt⟩,
    fun h => ⟨shape_iff.mpr h.pieces, h.address, h.order_lt⟩⟩

theorem Consistent.holds {c : Client} {F : ℕ → List ℕ} (h : Consistent c F) : Holds Bits c F :=
  ⟨h.shape.pieces, h.address, h.order_lt⟩

section Lists

variable {R : Memory → (ℕ → List ℕ) → Prop} {s : Pages} {F : ℕ → List ℕ} {O : List Block} {k : ℕ}

theorem length_le (hs : Pieces R s F O) (hk : k < maxOrder) : (F k).length ≤ phyPageN := by
  have hnd := Rings.list_nodup hs.rings hk
  have hsub : F k ⊆ List.range phyPageN := by
    intro p hp
    have hmem : (p, k) ∈ freeBlocks F maxOrder ++ O :=
      List.mem_append_left _ (mem_freeBlocks.mpr ⟨hk, hp⟩)
    exact List.mem_range.mpr (hs.cover.exact.lt_of_mem hmem (covers_self (p, k)))
  have hle := (hnd.subperm hsub).length_le
  rwa [List.length_range] at hle

theorem nodesOf_eq (hs : Pieces R s F O) (hk : k < maxOrder) :
    nodesOf s k = some ((F k).map .page) :=
  (hs.rings.ring k hk).walkTo_eq (by
    rw [List.length_map]
    exact Nat.lt_succ_of_le (length_le hs hk))

theorem freePages_eq (hs : Pieces R s F O) (hk : k < maxOrder) : freePages s k = F k := by
  have hmap : ((F k).map ListHead.page).filterMap pageOf = F k := by
    rw [List.filterMap_map]
    exact List.filterMap_some
  rw [freePages, nodesOf_eq hs hk, Option.getD_some, hmap]

/-- A partition without live blocks and without free buddies is the initial one. -/
theorem whole_of_lone (hs : Shape s F []) :
    (F 15).Perm [0, 32768] ∧ ∀ k < 15, F k = [] := by
  have hp := hs.partition
  have hexact := hp.exact
  have haligned := hp.aligned
  rw [List.append_nil] at hexact haligned
  have htop : ∀ k p, k < maxOrder → p ∈ F k → k = 15 := by
    intro k p hk hpk
    refine Nat.le_antisymm (Nat.le_of_lt_succ hk) ?_
    refine Exact.le_of_lone (m := 16) (d := 15) hexact haligned (by norm_num) ?_ (p, k)
      (mem_freeBlocks.mpr ⟨hk, hpk⟩)
    intro b hb hlt hbuddy
    exact hp.lone b.2 hlt b.1 (mem_freeBlocks.mp hb).2 (mem_freeBlocks.mp hbuddy).2
  have hmem : ∀ p, p ∈ F 15 ↔ p = 0 ∨ p = 32768 := by
    have hform : ∀ p ∈ F 15, p = 0 ∨ p = 32768 := by
      intro p hpk
      have hin := mem_freeBlocks.mpr ⟨show 15 < maxOrder by decide, hpk⟩
      have hlt : p < 65536 := hexact.lt_of_mem hin (covers_self (p, 15))
      obtain ⟨c, hc⟩ := haligned _ hin
      simp only at hc
      omega
    have hcover : ∀ x < 65536, ∃ p ∈ F 15, p ≤ x ∧ x < p + 32768 := by
      intro x hx
      obtain ⟨⟨p, k⟩, hb, hcov⟩ := hexact.exists_covers hx
      obtain ⟨hk, hpk⟩ := mem_freeBlocks.mp hb
      obtain rfl := htop k p hk hpk
      exact ⟨p, hpk, covers_iff.mp hcov⟩
    intro p
    constructor
    · exact hform p
    · intro heq
      obtain ⟨q, hq, hle, hlt⟩ := hcover p (by omega)
      have hq' := hform q hq
      rwa [show p = q by omega]
  have hnd := Rings.list_nodup hs.rings (show 15 < maxOrder by decide)
  constructor
  · apply (List.perm_ext_iff_of_nodup hnd (by decide)).mpr
    intro p
    rw [hmem, List.mem_cons, List.mem_singleton]
  · intro k hk
    rw [List.eq_nil_iff_forall_not_mem]
    intro p hpk
    have h15 := htop k p (Nat.lt_trans hk (by decide)) hpk
    omega

end Lists

section Init

/-- After `mapping_bitmap` every bitmap is clear. -/
theorem mappingBitmap_zero (m : Memory) {k x : ℕ} (hk : k < maxOrder)
    (hlo : bitmapOffset k ≤ x) (hhi : x < bitmapOffset k + bitmapSize k) :
    mappingBitmap m x = 0 := by
  have hgen : ∀ n, k < n → (List.range n).foldl
      (fun m i => memset m (bitmapOffset i) 0 (bitmapSize i ||| 1)) m x = 0 := by
    intro n
    induction n with
    | zero => omega
    | succ n ih =>
      intro hkn
      rw [List.range_succ, List.foldl_append, List.foldl_cons, List.foldl_nil, memset]
      split
      · rfl
      · next hout =>
        rcases Nat.lt_succ_iff_lt_or_eq.mp hkn with hlt | rfl
        · exact ih hlt
        · have hor : bitmapSize k ≤ bitmapSize k ||| 1 := Nat.left_le_or
          omega
  exact hgen maxOrder hk

/-- `init_buddy` makes every list head a ring of its own. -/
theorem initLists_ring (links : Links ListHead) {k : ℕ} (hk : k < maxOrder) :
    Ring (initLists links) (.area k) [] := by
  have hgen : ∀ n, k < n → ((List.range n).foldl (fun links i =>
      (links.setNext (.area i) (some (.area i))).setPrev (.area i) (some (.area i))) links).next
        (.area k) = some (.area k) ∧ ((List.range n).foldl (fun links i =>
      (links.setNext (.area i) (some (.area i))).setPrev (.area i) (some (.area i))) links).prev
        (.area k) = some (.area k) := by
    intro n
    induction n with
    | zero => omega
    | succ n ih =>
      intro hkn
      simp only [List.range_succ, List.foldl_append, List.foldl_cons, List.foldl_nil,
        Links.setPrev_next, Links.setPrev_prev, Links.setNext_next, Links.setNext_prev,
        ListHead.area.injEq]
      by_cases hkn' : k = n
      · simp [hkn']
      · simp only [if_neg hkn']
        exact ih (by omega)
  obtain ⟨hnext, hprev⟩ := hgen maxOrder hk
  exact ⟨⟨hnext, hprev, trivial⟩, List.nodup_singleton _⟩

def initialLists : ℕ → List ℕ := Function.update (fun _ => []) 15 [32768, 0]

theorem initialLists_of_ne {k : ℕ} (hk : k < 15) : initialLists k = [] :=
  Function.update_of_ne (by omega) ..

theorem partition_initial : Partition initialLists [] := by
  have hrest : freeBlocks (Function.update (Function.update initialLists 15 [0]) 15 []) maxOrder =
      [] := by
    rw [List.eq_nil_iff_forall_not_mem]
    rintro ⟨p, k⟩ hp
    rw [mem_freeBlocks, Function.update_idem, initialLists, Function.update_idem] at hp
    by_cases hk : k = 15 <;> simp [hk] at hp
  have hfree : (freeBlocks initialLists maxOrder ++ []).Perm [(32768, 15), (0, 15)] := by
    rw [List.append_nil]
    have h₁ := freeBlocks_update (F := initialLists) (n := maxOrder) (k := 15) (l := [0])
      (by decide) (List.Perm.refl [32768, 0])
    have h₂ := freeBlocks_update (F := Function.update initialLists 15 [0]) (n := maxOrder)
      (k := 15) (l := []) (by decide) (List.Perm.refl [0])
    rw [hrest] at h₂
    exact h₁.trans (h₂.cons _)
  refine ⟨Exact.perm ?_ hfree.symm, ?_, ?_⟩
  · intro x
    change _ = if x < 65536 then 1 else 0
    simp only [List.countP_cons, List.countP_nil, covers_iff]
    split_ifs <;> omega
  · intro b hb
    rw [hfree.mem_iff, List.mem_cons, List.mem_singleton] at hb
    rcases hb with rfl | rfl
    · exact ⟨1, rfl⟩
    · exact ⟨0, rfl⟩
  · intro k hk p hp
    rw [initialLists_of_ne hk] at hp
    cases hp

/-- Below order 15 `init_buddy` leaves every bit clear. -/
theorem bits_initial (m : Memory) :
    Bits (bitmapSet (mappingBitmap m) (bitmapOffset 15) 0 true).1 initialLists := by
  intro k hk i hi
  have hk16 : k < maxOrder := Nat.lt_trans hk (by decide)
  have hcell : bitOf (bitmapOffset k) i ≠ bitOf (bitmapOffset 15) 0 := fun heq =>
    hk.ne ((bitOf_eq_iff hk16 (by decide) hi (by decide)).mp heq).1
  have hbounds := bitOf_bounds hk16 hi
  have hbyte := mappingBitmap_zero m hk16 (x := bitOf (bitmapOffset k) i / 8) (by omega) (by omega)
  rw [bitmapSet_bit, if_neg hcell, bitAt, hbyte, initialLists_of_ne hk]
  simp [half]

theorem initBuddy_spec (s : Pages) : ∃ links, initBuddy s = some { s with
      links := links
      bitmaps := (bitmapSet s.bitmaps (bitmapOffset 15) 0 true).1 } ∧
    Rings links initialLists := by
  have hempty : Rings (initLists s.links) (fun _ => []) :=
    ⟨fun k hk => initLists_ring s.links hk, fun _ _ _ _ p hp => absurd hp List.not_mem_nil⟩
  have h15 : 15 < maxOrder := by decide
  obtain ⟨l₁, h₁, hr₁⟩ := listAdd_spec (s := { s with links := initLists s.links })
    (F := fun _ => []) (p := 0) hempty h15 (fun _ _ => List.not_mem_nil)
  obtain ⟨l₂, h₂, hr₂⟩ := listAdd_spec (s := { s with links := l₁ }) (p := 32768) hr₁ h15 (by
    intro j _
    by_cases hj : j = 15 <;> simp [hj])
  rw [Function.update_idem, Function.update_self] at hr₂
  refine ⟨l₂, ?_, hr₂⟩
  have hpage : 2 <<< (maxOrder - 2) = 32768 := rfl
  have htop : maxOrder - 1 = 15 := rfl
  simp only [initBuddy, hpage, htop, h₁, h₂, areaBitmap, if_pos h15, Option.bind_eq_bind,
    Option.bind_some]

theorem mmInit_spec (s : Pages) {memStartBrk : ℕ} (hle : memStartBrk + 20 * 2 ^ 20 ≤ 2 ^ 32) :
    ∃ s', mmInit s memStartBrk = some s' ∧ Shape s' initialLists [] := by
  obtain ⟨links, hinit, hr⟩ := initBuddy_spec { s with
    freePhyPageN := phyPageN
    physicalMemoryArea := memStartBrk + 12 * maxOrder + 16 * phyPageN + (phyPageN / 8 + 4) +
      ((7 &&& (2 ^ 32 - 1 - ((memStartBrk + 12 * maxOrder + 16 * phyPageN +
        (phyPageN / 8 + 4)) &&& 7))) + 1)
    bitmaps := mappingBitmap s.bitmaps }
  refine ⟨_, hinit, hr, partition_initial, bits_initial s.bitmaps, ?_, ?_⟩
  · exact Nat.lt_of_lt_of_le (Nat.succ_pos _) (Nat.le_add_left ..)
  · have halign : 7 &&& (2 ^ 32 - 1 - ((memStartBrk + 12 * maxOrder + 16 * phyPageN +
        (phyPageN / 8 + 4)) &&& 7)) ≤ 7 := Nat.and_le_left
    change memStartBrk + 192 + 1048576 + 8196 + (_ + 1) + 16777216 ≤ 2 ^ 32
    omega

end Init

theorem consistent_started {c : Client} (hc : Started c) : Consistent c initialLists := by
  obtain ⟨hlive, s, memStartBrk, hle, hinit⟩ := hc
  obtain ⟨s', heq, hs⟩ := mmInit_spec s hle
  rw [hinit, Option.some.injEq] at heq
  subst heq
  refine ⟨?_, ?_, ?_⟩
  · rw [liveBlocks, hlive]
    exact hs
  all_goals
    rw [hlive]
    exact fun _ hp => absurd hp List.not_mem_nil

section Steps

variable {R : Memory → (ℕ → List ℕ) → Prop} {s s' : Pages} {F F' : ℕ → List ℕ}
  {O : List Block} {live : List ℕ} {p q o : ℕ}

theorem getPageN_congr (h : s'.physicalMemoryArea = s.physicalMemoryArea) (p : ℕ) :
    getPageN s' p = getPageN s p := by
  rw [getPageN, getPageN, h]

theorem physicalAddr_congr (h : s'.physicalMemoryArea = s.physicalMemoryArea) (p : ℕ) :
    physicalAddr s' p = physicalAddr s p := by
  rw [physicalAddr, physicalAddr, h]

/-- A new block holds no page of the others, so their orders stay. -/
theorem liveBlocks_malloc (hs : Pieces R s' F' ((q, o) :: liveBlocks ⟨s, live⟩))
    (horder : s'.order = Function.update s.order q o)
    (harea : s'.physicalMemoryArea = s.physicalMemoryArea) :
    liveBlocks ⟨s', physicalAddr s q :: live⟩ = (q, o) :: liveBlocks ⟨s, live⟩ := by
  have hnew : blockAt s' (physicalAddr s q) = (q, o) := by
    rw [← physicalAddr_congr harea, blockAt,
      getPageN_physicalAddr hs.area_le hs.cover.hand_lt, horder, Function.update_self]
  have hold : ∀ a ∈ live, blockAt s' a = blockAt s a := by
    intro a ha
    have hmem : blockAt s a ∈ freeBlocks F' maxOrder ++ liveBlocks ⟨s, live⟩ :=
      List.mem_append_right _ (List.mem_map_of_mem ha)
    have hne : getPageN s a ≠ q := by
      intro heq
      have hno := (hs.cover.exact.perm (Cover.hand_first ..)).not_covers
        (covers_self (q, o)) hmem
      have hself := covers_self (blockAt s a)
      rw [blockAt, heq] at hself hno
      rw [hself] at hno
      simp at hno
    rw [blockAt, blockAt, getPageN_congr harea, horder, Function.update_of_ne hne]
  rw [liveBlocks, List.map_cons, hnew, List.map_congr_left hold]
  rfl

/-- A block that has been handed out is one more of the client's. -/
theorem holds_handedOut (hc : Holds R ⟨s, live⟩ F) {k n : ℕ} (ho : o < maxOrder)
    (hout : HandedOut R s (liveBlocks ⟨s, live⟩) o k n s' F' q) :
    Holds R ⟨s', physicalAddr s q :: live⟩ F' ∧
      liveBlocks ⟨s', physicalAddr s q :: live⟩ = (q, o) :: liveBlocks ⟨s, live⟩ := by
  have hs := hout.pieces
  have harea := hout.area
  have hblocks := liveBlocks_malloc hs hout.order harea
  have haddr : physicalAddr s' q = physicalAddr s q := physicalAddr_congr harea q
  have hpage : getPageN s' (physicalAddr s q) = q := by
    rw [← haddr]
    exact getPageN_physicalAddr hs.area_le hs.cover.hand_lt
  -- The blocks of the addresses are those before the call and the new one.
  have horders : ∀ b ∈ liveBlocks ⟨s', physicalAddr s q :: live⟩, b.2 < maxOrder := by
    rw [hblocks]
    intro b hb
    rcases List.mem_cons.mp hb with rfl | hb
    · exact ho
    · obtain ⟨a, ha, rfl⟩ := List.mem_map.mp hb
      exact hc.order_lt a ha
  refine ⟨⟨hblocks ▸ hs, ?_, fun a ha => horders _ (List.mem_map_of_mem ha)⟩, hblocks⟩
  intro a ha
  rcases List.mem_cons.mp ha with rfl | ha
  · rw [hpage, haddr]
  · rw [getPageN_congr harea, physicalAddr_congr harea]
    exact hc.address a ha

/-- An allocation returns: it is refused, or adds a block of the order of its size. -/
theorem malloc_holds (hR : Rider R) (hc : Holds R ⟨s, live⟩ F) {size : ℕ}
    (hsize : size ≤ 2 ^ 23) :
    mmMalloc s size = some (s, null) ∨
      ∃ s' F' q o, mmMalloc s size = some (s', physicalAddr s q) ∧ physicalAddr s q ≠ null ∧
        memsizeToOrder size = some o ∧ Holds R ⟨s', physicalAddr s q :: live⟩ F' ∧
        liveBlocks ⟨s', physicalAddr s q :: live⟩ = (q, o) :: liveBlocks ⟨s, live⟩ := by
  obtain ⟨o, hfor, ho, hcase⟩ := mmMalloc_spec hR hc.pieces hsize
  rcases hcase with ⟨hnull, -⟩ | ⟨k, n, r, s', F', q, heq, -, -, -, -, hout⟩
  · exact Or.inl hnull
  · exact Or.inr ⟨s', F', q, o, heq, hout.addr_ne_null, hfor, holds_handedOut hc ho hout⟩

theorem holds_malloc_step (hR : Rider R) {c c' : Client} {size : ℕ} (hc : Holds R c F)
    (hstep : Step c (.malloc size) c') : ∃ F', Holds R c' F' := by
  cases hstep with
  | malloc hsize hcall hp =>
    rcases malloc_holds hR hc hsize with hnull | ⟨s', F', q, o, heq, -, -, hc', -⟩
    · rw [hnull, Option.some.injEq, Prod.mk.injEq] at hcall
      exact absurd hcall.2.symm hp
    · rw [heq, Option.some.injEq, Prod.mk.injEq] at hcall
      obtain ⟨rfl, rfl⟩ := hcall
      exact ⟨F', hc'⟩
  | refused hsize hcall =>
    rcases malloc_holds hR hc hsize with hnull | ⟨s', F', q, o, heq, hne, -⟩
    · rw [hnull, Option.some.injEq, Prod.mk.injEq] at hcall
      obtain ⟨rfl, -⟩ := hcall
      exact ⟨F, hc⟩
    · rw [heq, Option.some.injEq, Prod.mk.injEq] at hcall
      exact absurd hcall.2 hne

/-- An allocation from a consistent state. -/
theorem malloc_returns (hc : Consistent ⟨s, live⟩ F) {size : ℕ} (hsize : size ≤ 2 ^ 23) :
    mmMalloc s size = some (s, null) ∨
      ∃ s' F' q o, mmMalloc s size = some (s', physicalAddr s q) ∧ physicalAddr s q ≠ null ∧
        memsizeToOrder size = some o ∧ Consistent ⟨s', physicalAddr s q :: live⟩ F' ∧
        liveBlocks ⟨s', physicalAddr s q :: live⟩ = (q, o) :: liveBlocks ⟨s, live⟩ := by
  simp only [consistent_iff] at hc ⊢
  exact malloc_holds (rider_bits.and rider_lone) hc hsize

theorem freePages_lists (hs : Pieces R s F O) {k : ℕ} (hk : k ≤ 15) :
    ∀ j, k ≤ j → j < k + (15 - k) → freePages s j = F j :=
  fun j _ hj => freePages_eq hs (by
    change j < 16
    omega)

/-- The block of a live address, apart from those of the other ones. -/
theorem Holds.take_live (hc : Holds R ⟨s, live⟩ F) (hp : p ∈ live) :
    Pieces R s F (blockAt s p :: liveBlocks ⟨s, live.erase p⟩) := by
  have hperm : (liveBlocks ⟨s, live⟩).Perm (blockAt s p :: liveBlocks ⟨s, live.erase p⟩) :=
    (List.perm_cons_erase hp).map _
  have hs := hc.pieces
  exact ⟨hs.rings, hs.cover.perm hperm, hs.rider, hs.area_pos, hs.area_le⟩

/-- A free of a live pointer whose merging stops in time returns, and the block that
the freed one has become part of is the first one on its list. -/
theorem free_holds (hc : Holds Bits ⟨s, live⟩ F) (hp : p ∈ live) {b : Block}
    (hend : mergeEnd F (15 - (blockAt s p).2) (blockAt s p).2 (blockAt s p).1 = some b) :
    ∃ s' F', mmFree s p = some s' ∧ Holds Bits ⟨s', live.erase p⟩ F' ∧
      Freed s F (liveBlocks ⟨s, live.erase p⟩) (blockAt s p).2 (blockAt s p).1 b s' F' ∧
      blockAt s' = blockAt s := by
  have hlt : (blockAt s p).2 ≤ 15 := Nat.le_of_lt_succ (hc.order_lt p hp)
  obtain ⟨s', F', hcall, hf⟩ := mmFree_spec (hc.take_live hp) hlt rfl hend
  have hblock : blockAt s' = blockAt s := by
    funext a
    rw [blockAt, blockAt, getPageN_congr hf.area, hf.order]
  refine ⟨s', F', ?_, ⟨?_, ?_, ?_⟩, hf, hblock⟩
  · rw [hc.address p hp]
    exact hcall
  · rw [liveBlocks, hblock]
    exact hf.pieces
  · intro a ha
    rw [getPageN_congr hf.area, physicalAddr_congr hf.area]
    exact hc.address a (List.mem_of_mem_erase ha)
  · intro a ha
    rw [hblock]
    exact hc.order_lt a (List.mem_of_mem_erase ha)

/-- A safe free of a live pointer returns. -/
theorem free_returns (hc : Consistent ⟨s, live⟩ F) (hp : p ∈ live)
    (hsafe : SafeFree ⟨s, live⟩ (.free p)) :
    ∃ s' F', mmFree s p = some s' ∧ Consistent ⟨s', live.erase p⟩ F' ∧
      blockAt s' = blockAt s := by
  have hlt : (blockAt s p).2 ≤ 15 := Nat.le_of_lt_succ (hc.order_lt p hp)
  have hsafe' : mergesSafely F (15 - (blockAt s p).2) (blockAt s p).2 (blockAt s p).1 = true :=
    (mergesSafely_congr _ _ _ (freePages_lists hc.holds.pieces hlt)).symm.trans hsafe
  obtain ⟨b, hend, hbuddy⟩ := mergeEnd_of_safe _ F _ _ (Nat.add_sub_of_le hlt)
    (hc.holds.take_live hp).cover hsafe'
  obtain ⟨s', F', hcall, hc', hf, hblock⟩ := free_holds hc.holds hp hend
  have hlone : Lone F' := lone_gain hc.shape.partition.lone hbuddy hf.first hf.others
  exact ⟨s', F', hcall, ⟨shape_of_pieces hc'.pieces hlone, hc'.address, hc'.order_lt⟩, hblock⟩

end Steps

theorem consistent_step {c c' : Client} {a : Call} (hc : ∃ F, Consistent c F)
    (hstep : Step c a c') (hsafe : SafeFree c a) : ∃ F, Consistent c' F := by
  obtain ⟨F, hc⟩ := hc
  cases a with
  | malloc size =>
    simp only [consistent_iff] at hc ⊢
    exact holds_malloc_step (rider_bits.and rider_lone) hc hstep
  | free p =>
    cases hstep with
    | free hp hcall =>
      obtain ⟨s', F', heq, hc', -⟩ := free_returns hc hp hsafe
      rw [heq, Option.some.injEq] at hcall
      exact ⟨F', hcall ▸ hc'⟩

theorem reachable_consistent {c : Client} (hc : (runs.guarded SafeFree).Reachable c) :
    ∃ F, Consistent c F := by
  apply hc.invariant
  · intro s hs
    exact ⟨_, consistent_started hs⟩
  · intro s a s' hs hstep
    exact consistent_step hs hstep.1 hstep.2

theorem tiled_of_consistent {c : Client} {F : ℕ → List ℕ} (hc : Consistent c F) : Tiled c := by
  have hs := hc.shape
  have hfree : freeBlocks (freePages c.pages) maxOrder = freeBlocks F maxOrder :=
    freeBlocks_congr fun k hk => freePages_eq hs.pieces hk
  have h15 : ∀ {k}, k < 15 → k < maxOrder := fun h => Nat.lt_trans h (by decide)
  refine ⟨?_, ?_, ?_, ?_, ?_⟩
  · intro k hk
    rw [freePages_eq hs.pieces hk]
    exact nodesOf_eq hs.pieces hk
  · intro x hx
    rw [hfree, hs.partition.exact x, if_pos hx]
  · intro b hb
    rw [hfree] at hb
    have hlast : covers (b.1 + (2 ^ b.2 - 1)) b = true := by
      have hpos := Nat.two_pow_pos b.2
      exact covers_iff.mpr ⟨by omega, by omega⟩
    have hlt := hs.partition.exact.lt_of_mem hb hlast
    exact ⟨hs.partition.aligned b hb, by omega⟩
  · intro k hk p hp
    rw [freePages_eq hs.pieces (h15 hk)] at hp ⊢
    exact hs.partition.lone k hk p hp
  · intro hlive
    have hs' : Shape c.pages F [] := by
      rwa [liveBlocks, hlive, List.map_nil] at hs
    obtain ⟨htop, hrest⟩ := whole_of_lone hs'
    refine ⟨?_, fun k hk => ?_⟩
    · rw [freePages_eq hs.pieces (by decide)]
      exact htop
    · rw [freePages_eq hs.pieces (h15 hk)]
      exact hrest k hk

/-- While every free merges by bits that are right, the pages stay partitioned
and every call returns. -/
theorem page_partition {c : Client} (hc : (runs.guarded SafeFree).Reachable c) :
    Tiled c ∧ (∀ size ≤ 2 ^ 23, (mmMalloc c.pages size).isSome) ∧
      (∀ p ∈ c.live, SafeFree c (.free p) → (mmFree c.pages p).isSome) := by
  obtain ⟨F, hF⟩ := reachable_consistent hc
  refine ⟨tiled_of_consistent hF, ?_, ?_⟩
  · intro size hsize
    rcases malloc_returns hF hsize with hnull | ⟨s', F', q, o, heq, -⟩
    · simp [hnull]
    · simp [heq]
  · intro p hp hsafe
    obtain ⟨s', F', heq, -⟩ := free_returns hF hp hsafe
    simp [heq]

def freshPages : Pages := ⟨⟨fun _ => none, fun _ => none⟩, fun _ => 0, fun _ => 0, 0, 0⟩

def startedClient : Client := ⟨(mmInit freshPages 4096).getD freshPages, []⟩

theorem startedClient_started : Started startedClient := by
  obtain ⟨s', heq, -⟩ := mmInit_spec freshPages (show 4096 + 20 * 2 ^ 20 ≤ 2 ^ 32 by norm_num)
  refine ⟨rfl, freshPages, 4096, by norm_num, ?_⟩
  rw [startedClient, heq, Option.getD_some]

theorem startedClient_reachable {G : Client → Call → Prop} :
    (runs.guarded G).Reachable startedClient :=
  .initial startedClient_started

def Client.malloc (c : Client) (size : ℕ) : Client :=
  match mmMalloc c.pages size with
  | some (s, p) => if p = null then ⟨s, c.live⟩ else ⟨s, p :: c.live⟩
  | none => c

def Client.free (c : Client) (p : ℕ) : Client :=
  match mmFree c.pages p with
  | some s => ⟨s, c.live.erase p⟩
  | none => c

theorem reachable_malloc {G : Client → Call → Prop} {c : Client}
    (hc : (runs.guarded G).Reachable c) {size : ℕ} (hsize : size ≤ 2 ^ 23)
    (hok : G c (.malloc size)) : (runs.guarded G).Reachable (c.malloc size) := by
  unfold Client.malloc
  split
  · next s p hcall =>
    split
    · next hp => exact .step hc ⟨.refused hsize (hp ▸ hcall), hok⟩
    · next hp => exact .step hc ⟨.malloc hsize hcall hp, hok⟩
  · exact hc

theorem free_step {c : Client} {p : ℕ} (hp : p ∈ c.live) (hcall : (mmFree c.pages p).isSome) :
    Step c (.free p) (c.free p) := by
  obtain ⟨s, heq⟩ := Option.isSome_iff_exists.mp hcall
  rw [Client.free, heq]
  exact .free hp heq

/-- Two pages are allocated and the second is freed again, its buddy still in use. -/
theorem page_partition_once : Tiled (((startedClient.malloc 1).malloc 1).free 17837768) := by
  have hone : 1 ≤ 2 ^ 23 := by norm_num
  have hc : (runs.guarded SafeFree).Reachable ((startedClient.malloc 1).malloc 1) :=
    reachable_malloc (reachable_malloc startedClient_reachable hone trivial) hone trivial
  have hsafe : SafeFree ((startedClient.malloc 1).malloc 1) (.free 17837768) := by
    change mergesSafely _ _ _ _ = true
    decide
  exact (page_partition (.step hc ⟨free_step (by decide +kernel) (by decide +kernel), hsafe⟩)).1

/-- Freeing the only live pointer merges beyond order 15 and leaves every list empty. -/
theorem page_partition_lost : ∃ c, runs.Reachable c ∧ c.live = [] ∧
    (∀ k < maxOrder, freePages c.pages k = []) ∧ ¬ Tiled c := by
  have hone : 1 ≤ 2 ^ 23 := by norm_num
  have hc : runs.Reachable (startedClient.malloc 1) :=
    (reachable_malloc (G := SafeFree) startedClient_reachable hone trivial).of_guarded
  have hempty : ∀ k < maxOrder, freePages ((startedClient.malloc 1).free 17838024).pages k = [] := by
    decide +kernel
  have hlive : ((startedClient.malloc 1).free 17838024).live = [] := by decide +kernel
  refine ⟨(startedClient.malloc 1).free 17838024,
    .step hc (free_step (by decide +kernel) (by decide +kernel)), hlive, hempty, ?_⟩
  intro htiled
  have hperm := (htiled.whole hlive).1
  rw [hempty 15 (by decide)] at hperm
  exact List.cons_ne_nil _ _ hperm.nil_eq.symm

end SystemSoftware.BuddyRuns
