import SystemSoftware.BuddyCoalescing

/-!
The asserts of mm.c. The functions are written again with every assert condition
tested where the source tests it; a false one ends the call. The conditions of
`mm_init`, `alloc_pages` and `expand` hold in every state of a run. Those of
`mm_free` want the buddy strictly inside its free list: they fail on a buddy that
is the first or the last of its list.
-/
namespace SystemSoftware.BuddyAsserts

open ByteMemory LinkedRing BinaryBlocks BuddyPages BuddyBitmap BuddyLists BuddyPieces BuddyMerge
open BuddyShape BuddyRuns BuddyCoalescing Transitions

inductive Stop
  | assertion
  | pointer
  deriving DecidableEq

abbrev Checked : Type → Type := Except Stop

def assert (p : Prop) [Decidable p] : Checked Unit := if p then .ok () else .error .assertion

def follow {α : Type} : Option α → Checked α
  | some a => .ok a
  | none => .error .pointer

/-- `mem_sbrk` on memory that is large enough: the new end and the old one. -/
def memSbrk (brk incr : ℕ) : ℕ × ℕ := (brk + incr, brk)

/-- The loop of `mapping_physical` over the first pages: where `offset` is then. -/
def mappingPhysical (physicalMemoryArea : ℕ) : ℕ → Checked ℕ
  | 0 => .ok physicalMemoryArea
  | n + 1 => do
    let offset ← mappingPhysical physicalMemoryArea n
    assert (offset ≠ null)
    return offset + pageSize

def assertBitmaps (bitmapArea : ℕ) : Checked Unit :=
  (List.range maxOrder).forM fun i => assert (bitmapArea + bitmapOffset i ≠ null)

def mappingBitmapChecked (m : Memory) (pageStructArea bitmapArea physicalMemoryArea : ℕ) :
    Checked Memory := do
  assert (bitmapArea = pageStructArea + 16 * phyPageN)
  assertBitmaps bitmapArea
  assert (bitmapArea + bitmapOffset maxOrder < physicalMemoryArea)
  return mappingBitmap m

def assertLinked (s : Pages) (page : ℕ) : Checked Unit := do
  assert ((s.links.next (.page page)).isSome = true)
  assert ((s.links.prev (.page page)).isSome = true)

def initBuddyChecked (s : Pages) (bitmapArea : ℕ) : Checked Pages := do
  assertBitmaps bitmapArea
  let s := { s with links := initLists s.links }
  let s ← follow (listAdd s (.area (maxOrder - 1)) (.page 0))
  let s ← follow (listAdd s (.area (maxOrder - 1)) (.page (2 <<< (maxOrder - 2))))
  assertLinked s 0
  assertLinked s (2 <<< (maxOrder - 2))
  assert (s.links.next (.area (maxOrder - 1)) ≠ some (.area (maxOrder - 1)))
  let bitmap ← follow (areaBitmap (maxOrder - 1))
  return { s with bitmaps := (bitmapSet s.bitmaps bitmap 0 true).1 }

def mmInitChecked (s : Pages) (memStartBrk : ℕ) : Checked Pages := do
  let (brk, freeAreaArea) := memSbrk memStartBrk (12 * maxOrder)
  let (brk, pageStructArea) := memSbrk brk (16 * phyPageN)
  let bitmapAreaSize := phyPageN / 8 + 4
  let (brk, bitmapArea) := memSbrk brk bitmapAreaSize
  let align := (7 &&& (2 ^ 32 - 1 - ((bitmapArea + bitmapAreaSize) &&& 7))) + 1
  let (brk, _) := memSbrk brk align
  let (_, physicalMemoryArea) := memSbrk brk physicalMemorySize
  let endpoint := physicalMemoryArea + physicalMemorySize
  assert (freeAreaArea + 12 * maxOrder = pageStructArea)
  assert (pageStructArea + 16 * phyPageN = bitmapArea)
  let offset ← mappingPhysical physicalMemoryArea phyPageN
  assert (offset = endpoint)
  let bitmaps ← mappingBitmapChecked s.bitmaps pageStructArea bitmapArea physicalMemoryArea
  initBuddyChecked { s with
    freePhyPageN := phyPageN
    physicalMemoryArea := physicalMemoryArea
    bitmaps := bitmaps } bitmapArea

def expandChecked (s : Pages) (page pageN lowOrder : ℕ) : ℕ → Checked (Pages × ℕ)
  | 0 => .ok (s, page)
  | n + 1 => do
    let highOrder := lowOrder + n
    let size := 1 <<< highOrder
    let s ← follow (listAdd s (← follow (freeList highOrder)) (.page page))
    assertLinked s page
    let s ← follow (markUsed s pageN highOrder)
    expandChecked s (page + size) (pageN + size) lowOrder n

/-- Heads and areas are never null, and a page struct has the address of its list head. -/
def allocFromChecked (s : Pages) (order currOrder : ℕ) : Checked (Option (Pages × ℕ)) := do
  let head ← follow (freeList currOrder)
  assert ((s.links.next head).isSome = true)
  let curr ← follow (s.links.next head)
  if head ≠ curr then
    match curr with
    | .area _ => .error .pointer
    | .page page => do
      assert (physicalAddr s page ≠ null)
      let s ← follow (listDel s curr)
      assert (s.links.next head ≠ some curr)
      let pageN := getPageN s (physicalAddr s page)
      let s ← if currOrder ≠ maxOrder - 1 then follow (markUsed s pageN currOrder) else .ok s
      let s := { s with freePhyPageN := sub32 s.freePhyPageN (1 <<< order) }
      assert (physicalAddr s page ≠ null)
      let (s, page) ← expandChecked s page pageN order (currOrder - order)
      let s := { s with
        order := Function.update s.order page order
        freePhyPageN := sub32 s.freePhyPageN (1 <<< order) }
      assert (getPageN s (physicalAddr s page) < 65537)
      return some (s, physicalAddr s page)
  else return none

def allocLoopChecked (s : Pages) (order : ℕ) : ℕ → ℕ → Checked (Pages × ℕ)
  | 0, _ => .ok (s, null)
  | rounds + 1, currOrder => do
    match ← allocFromChecked s order currOrder with
    | some r => .ok r
    | none => allocLoopChecked s order rounds (currOrder + 1)

def allocPagesChecked (s : Pages) : Option ℕ → Checked (Pages × ℕ)
  | none => .ok (s, null)
  | some order => allocLoopChecked s order (max 1 (maxOrder - order)) order

def mmMallocChecked (s : Pages) (size : ℕ) : Checked (Pages × ℕ) :=
  allocPagesChecked s (memsizeToOrder size)

def mergeLoopChecked (s : Pages) : ℕ → ℕ → ℕ → ℕ → Checked (Pages × ℕ × ℕ)
  | 0, order, pageN, _ => .ok (s, order, pageN)
  | rounds + 1, order, pageN, bitIndex => do
    let bitmap ← follow (areaBitmap order)
    let (bitmaps, prev) := bitmapSwitch s.bitmaps bitmap bitIndex
    let s := { s with bitmaps := bitmaps }
    if prev = false then .ok (s, order, pageN)
    else
      let buddyIdx := pageN ^^^ (1 <<< order)
      let head ← follow (freeList order)
      assert (some head ≠ s.links.next (.page buddyIdx))
      assert (some head ≠ s.links.prev (.page buddyIdx))
      assertLinked s buddyIdx
      let s ← follow (listDelCopy s (.page buddyIdx))
      mergeLoopChecked s rounds (order + 1) (pageN &&& (2 ^ 32 - 2 ^ (order + 1))) (bitIndex >>> 1)

def mmFreeChecked (s : Pages) (ptr : ℕ) : Checked Pages := do
  let pageN := getPageN s ptr
  let order := s.order pageN
  let (s, order, pageN) ← mergeLoopChecked s (maxOrder - order) order pageN
    (pageN >>> (1 + order))
  let s ← follow (listAdd s (← follow (freeList order)) (.page pageN))
  assertLinked s pageN
  return s

/-- No assert condition is false on the way, and the call returns what it returns without them. -/
def Passes {α : Type} (x : Checked α) (o : Option α) : Prop := ∃ a, x = .ok a ∧ o = some a

theorem ok_bind {α β : Type} (a : α) (f : α → Checked β) : ((.ok a : Checked α) >>= f) = f a := rfl

theorem assert_ok {p : Prop} [Decidable p] (h : p) : assert p = .ok () := if_pos h

theorem assert_bind {α : Type} {p : Prop} [Decidable p] (h : p) (f : Unit → Checked α) :
    (assert p >>= f) = f () := by
  rw [assert_ok h, ok_bind]

theorem assert_fails {p : Prop} [Decidable p] (h : ¬ p) : assert p = .error .assertion := if_neg h

@[simp] theorem follow_some {α : Type} (a : α) : follow (some a) = .ok a := rfl

theorem page_linked {links : Links ListHead} {F : ℕ → List ℕ} {k p : ℕ} (hr : Rings links F)
    (hk : k < maxOrder) (hp : p ∈ F k) :
    (links.next (.page p)).isSome = true ∧ (links.prev (.page p)).isSome = true := by
  obtain ⟨l, r, hF⟩ := List.append_of_mem hp
  have hring := hr.ring k hk
  rw [hF, List.map_append, List.map_cons] at hring
  obtain ⟨hnext, hprev⟩ := hring.neighbours
  rw [hnext, hprev]
  exact ⟨rfl, rfl⟩

theorem assertLinked_ok {s : Pages} {F : ℕ → List ℕ} {k p : ℕ} (hr : Rings s.links F)
    (hk : k < maxOrder) (hp : p ∈ F k) : assertLinked s p = .ok () := by
  obtain ⟨hnext, hprev⟩ := page_linked hr hk hp
  rw [assertLinked, assert_bind hnext, assert_ok hprev]

section Init

theorem assertBitmaps_ok {bitmapArea : ℕ} (hpos : 0 < bitmapArea) :
    assertBitmaps bitmapArea = .ok () := by
  have hall : ∀ l : List ℕ, l.forM (fun i => assert (bitmapArea + bitmapOffset i ≠ null)) =
      (.ok () : Checked Unit) := by
    intro l
    induction l with
    | nil => rfl
    | cons i l ih =>
      rw [List.forM, assert_bind (Nat.ne_of_gt (Nat.add_pos_left hpos _)), ih]
  exact hall _

theorem mappingPhysical_eq {a : ℕ} (hpos : 0 < a) (n : ℕ) :
    mappingPhysical a n = .ok (a + n * pageSize) := by
  induction n with
  | zero => simp [mappingPhysical]
  | succ n ih =>
    rw [mappingPhysical, ih, ok_bind, assert_bind (Nat.ne_of_gt (Nat.add_pos_left hpos _)),
      Nat.add_mul, Nat.one_mul, ← Nat.add_assoc]
    rfl

theorem initBuddy_passes (s : Pages) {bitmapArea : ℕ} (hpos : 0 < bitmapArea) :
    Passes (initBuddyChecked s bitmapArea) (initBuddy s) := by
  obtain ⟨links, heq, hr⟩ := initBuddy_spec s
  have h15 : 15 < maxOrder := by decide
  have hlists : initialLists 15 = [32768, 0] := Function.update_self ..
  have hfirst : 0 ∈ initialLists 15 := by
    rw [hlists]
    decide
  have hsecond : 2 <<< (maxOrder - 2) ∈ initialLists 15 := by
    rw [hlists]
    decide
  refine ⟨_, ?_, heq⟩
  simp only [initBuddy, Option.bind_eq_bind, Option.bind_eq_some_iff] at heq
  obtain ⟨s₁, h₁, s₂, h₂, bitmap, hbitmap, hend⟩ := heq
  have hlinks : s₂.links = links := congrArg Pages.links (Option.some.inj hend)
  rw [← hlinks] at hr
  have hhead : s₂.links.next (.area (maxOrder - 1)) ≠ some (.area (maxOrder - 1)) := by
    have hnext := (hr.ring 15 h15).next_head
    rw [hlists] at hnext
    rw [show maxOrder - 1 = 15 by rfl, hnext]
    exact fun h => by cases h
  simp only [initBuddyChecked, assertBitmaps_ok hpos, h₁, h₂, hbitmap, follow_some, ok_bind,
    assertLinked_ok hr h15 hfirst, assertLinked_ok hr h15 hsecond, assert_ok hhead]
  exact congrArg Except.ok (Option.some.inj hend)

theorem mappingBitmap_passes (m : Memory) {pageStructArea physicalMemoryArea : ℕ}
    (hroom : pageStructArea + 16 * phyPageN + 8196 < physicalMemoryArea) :
    mappingBitmapChecked m pageStructArea (pageStructArea + 16 * phyPageN) physicalMemoryArea =
      .ok (mappingBitmap m) := by
  have hpos : 0 < pageStructArea + 16 * phyPageN := Nat.add_pos_right _ (by decide)
  have hend : pageStructArea + 16 * phyPageN + bitmapOffset maxOrder < physicalMemoryArea := by
    change pageStructArea + 16 * phyPageN + 8194 < physicalMemoryArea
    omega
  rw [mappingBitmapChecked, assert_bind rfl, assertBitmaps_ok hpos, ok_bind, assert_bind hend]
  rfl

/-- The asserts of `mm_init` hold. -/
theorem mmInit_passes (s : Pages) (memStartBrk : ℕ) :
    Passes (mmInitChecked s memStartBrk) (mmInit s memStartBrk) := by
  have hpages : phyPageN * pageSize = physicalMemorySize := rfl
  have hpos : 0 < memStartBrk + 12 * maxOrder + 16 * phyPageN :=
    Nat.add_pos_right _ (by decide)
  unfold mmInitChecked memSbrk mmInit
  dsimp only
  -- The amount of alignment does not matter.
  generalize 7 &&& (2 ^ 32 - 1 - ((memStartBrk + 12 * maxOrder + 16 * phyPageN +
    (phyPageN / 8 + 4)) &&& 7)) = align
  have hroom : memStartBrk + 12 * maxOrder + 16 * phyPageN + 8196 <
      memStartBrk + 12 * maxOrder + 16 * phyPageN + (phyPageN / 8 + 4) + (align + 1) := by
    rw [show phyPageN / 8 + 4 = 8196 by rfl]
    omega
  rw [assert_bind rfl, assert_bind rfl,
    mappingPhysical_eq (Nat.lt_of_le_of_lt (Nat.zero_le _) hroom), ok_bind,
    assert_bind (by rw [hpages]), mappingBitmap_passes s.bitmaps hroom, ok_bind]
  exact initBuddy_passes _ hpos

end Init

theorem Passes.eq_ok {α : Type} {x : Checked α} {o : Option α} {a : α} (h : Passes x o)
    (ho : o = some a) : x = .ok a := by
  obtain ⟨b, hx, hb⟩ := h
  rw [ho, Option.some.injEq] at hb
  rw [hx, hb]

section Malloc

variable {R : Memory → (ℕ → List ℕ) → Prop} {s : Pages} {F : ℕ → List ℕ} {O : List Block}
  {o k p : ℕ} {r : List ℕ}

theorem expand_passes (hR : Rider R) (n : ℕ) : ∀ (s : Pages) (F : ℕ → List ℕ) (p : ℕ),
    Pieces R s F ((p, o + n) :: O) → o + n ≤ 15 →
    Passes (expandChecked s p p o n) (expand s p p o n) := by
  induction n with
  | zero => exact fun s F p _ _ => ⟨_, rfl, rfl⟩
  | succ n ih =>
    intro s F p hs hle
    have hk : o + n < maxOrder := by
      change o + n < 16
      omega
    obtain ⟨links, hadd, hrings, hpieces⟩ := cut_step hR (k := o + n) hs (by omega)
    have hin : p ∈ Function.update F (o + n) (p :: F (o + n)) (o + n) := by
      rw [Function.update_self]
      exact List.mem_cons_self ..
    have hlinked : assertLinked { s with links := links } p = .ok () :=
      assertLinked_ok hrings hk hin
    obtain ⟨x, hchecked, hplain⟩ := ih _ _ _ hpieces (by omega)
    refine ⟨x, ?_, ?_⟩
    · simp only [expandChecked, freeList_eq hk, hadd, hlinked, markUsed_eq hk, follow_some,
        ok_bind, Nat.one_shiftLeft]
      exact hchecked
    · simp only [expand, freeList_eq hk, hadd, markUsed_eq hk, Nat.one_shiftLeft,
        Option.bind_eq_bind, Option.bind_some]
      exact hplain

theorem addr_ne_null (hpos : 0 < s.physicalMemoryArea) (n : ℕ) : physicalAddr s n ≠ null :=
  Nat.ne_of_gt (Nat.add_pos_left hpos _)

theorem allocFrom_passes (hR : Rider R) (hs : Pieces R s F O) (hok : o ≤ k) (hk : k < maxOrder) :
    Passes (allocFromChecked s o k) (allocFrom s o k) := by
  have hnext := next_head hs hk
  have hsome : (s.links.next (.area k)).isSome = true := by
    rw [hnext]
    rfl
  cases hF : F k with
  | nil =>
    refine ⟨none, ?_, allocFrom_empty hs hk hF⟩
    simp only [hF, List.map_nil, List.head?_nil, Option.getD_none] at hnext
    simp only [allocFromChecked, freeList_eq hk, follow_some, ok_bind, hnext, ne_eq,
      not_true_eq_false, if_false]
    rfl
  | cons p r =>
    simp only [hF, List.map_cons, List.head?_cons, Option.getD_some] at hnext
    obtain ⟨links, bitmaps, hdel, hmark, hkeep, hpieces⟩ := take_spec hR hs hk hF
    have hpn : getPageN { s with links := links } (physicalAddr { s with links := links } p) = p :=
      getPageN_physicalAddr (s := { s with links := links }) hs.area_le hpieces.cover.hand_lt
    -- The page is gone from the front of the list.
    have hfront : links.next (.area k) ≠ some (.page p) := by
      have hnd := Rings.list_nodup hs.rings hk
      have hafter : links.next (.area k) = some ((r.map .page).head?.getD (.area k)) := by
        have h := next_head hpieces hk
        rwa [Function.update_self] at h
      rw [hF, List.nodup_cons] at hnd
      rw [hafter]
      cases r with
      | nil => exact fun h => by cases h
      | cons q r =>
        intro h
        obtain rfl : q = p := ListHead.page.inj (Option.some.inj h)
        exact hnd.1 (List.mem_cons_self ..)
    have hdown := hpieces.cut hok (sub32 s.freePhyPageN (1 <<< o)) s.order
    have hle : o + (k - o) ≤ 15 := by
      have hk' : k < 16 := hk
      omega
    obtain ⟨s', F', q, hexp, hs', -, -, hsame⟩ := expand_spec hR (k - o) _ _ _ hdown hle
    have hchecked := (expand_passes hR (k - o) _ _ _ hdown hle).eq_ok hexp
    have hlast : getPageN s' (physicalAddr s' q) < 65537 := by
      rw [getPageN_physicalAddr hs'.area_le hs'.cover.hand_lt]
      exact Nat.lt_trans hs'.cover.hand_lt (by decide)
    have hpage : .area k ≠ ListHead.page p := fun h => by cases h
    have hagain : ∀ b, physicalAddr { s with
        links := links
        bitmaps := b
        freePhyPageN := sub32 s.freePhyPageN (1 <<< o) } p ≠ null :=
      fun _ => addr_ne_null hs.area_pos p
    refine ⟨some ({ s' with
      order := Function.update s'.order q o
      freePhyPageN := sub32 s'.freePhyPageN (1 <<< o) }, physicalAddr s' q), ?_, ?_⟩
    · rw [allocFromChecked]
      simp only [freeList_eq hk, follow_some, ok_bind, assert_ok hsome]
      simp only [hnext, follow_some, ok_bind, if_pos hpage, assert_ok (addr_ne_null hs.area_pos p),
        hdel, assert_ok hfront, hpn]
      by_cases htop : k = maxOrder - 1
      · rw [hkeep htop] at hchecked
        rw [if_neg (not_not.mpr htop), assert_bind (hagain _), hchecked, ok_bind]
        exact assert_bind hlast _
      · rw [if_pos htop, hmark htop, follow_some, ok_bind, assert_bind (hagain _), hchecked,
          ok_bind]
        exact assert_bind hlast _
    · simp only [allocFrom, freeList_eq hk, hnext, Option.bind_eq_bind, Option.bind_some,
        if_pos hpage, hdel, hpn]
      by_cases htop : k = maxOrder - 1
      · rw [hkeep htop] at hexp
        rw [if_neg (not_not.mpr htop), hexp]
        rfl
      · rw [if_pos htop, hmark htop, Option.bind_some, hexp]
        rfl

theorem allocLoop_passes (hR : Rider R) (hs : Pieces R s F O) (n : ℕ) : ∀ k, o ≤ k →
    k + n = maxOrder → Passes (allocLoopChecked s o n k) (allocLoop s o n k) := by
  induction n with
  | zero => exact fun _ _ _ => ⟨_, rfl, rfl⟩
  | succ n ih =>
    intro k hok hkn
    obtain ⟨found, hchecked, hplain⟩ := allocFrom_passes hR hs hok (show k < maxOrder by omega)
    rw [allocLoopChecked, allocLoop, hchecked, hplain, ok_bind, Option.bind_eq_bind,
      Option.bind_some]
    cases found with
    | none => exact ih (k + 1) (by omega) (by omega)
    | some r => exact ⟨r, rfl, rfl⟩

/-- The asserts of `alloc_pages` and `expand` hold. -/
theorem mmMalloc_passes (hR : Rider R) (hs : Pieces R s F O) {size : ℕ} (hsize : size ≤ 2 ^ 23) :
    Passes (mmMallocChecked s size) (mmMalloc s size) := by
  obtain ⟨o, ho, hlt⟩ := memsizeToOrder_spec hsize
  rw [mmMalloc_eq ho hlt, mmMallocChecked, ho, allocPagesChecked,
    show max 1 (maxOrder - o) = maxOrder - o by omega]
  exact allocLoop_passes hR hs (maxOrder - o) o le_rfl (by omega)

end Malloc

/-- Strictly inside the list: neither its first nor its last element. -/
def interior (l : List ℕ) (p : ℕ) : Bool :=
  decide (p ∈ l ∧ l.head? ≠ some p ∧ l.getLast? ≠ some p)

/-- The merging of a freed block unlinks buddies strictly inside their lists only, and
finds a clear bit below order 15. -/
def mergesInterior (F : ℕ → List ℕ) : ℕ → ℕ → ℕ → Bool
  | 0, _, _ => false
  | orders + 1, order, pageN =>
    if pairBit F order (pageN >>> (1 + order)) then
      interior (F order) (pageN ^^^ 2 ^ order) &&
        mergesInterior F orders (order + 1) (pageN - pageN % 2 ^ (order + 1))
    else true

section Interior

variable {F G : ℕ → List ℕ}

theorem interior_iff {l r : List ℕ} {p : ℕ} (hnd : (l ++ p :: r).Nodup) :
    interior (l ++ p :: r) p = true ↔ l ≠ [] ∧ r ≠ [] := by
  rw [List.nodup_middle, List.nodup_cons, List.mem_append, not_or] at hnd
  obtain ⟨⟨hl, hr⟩, -⟩ := hnd
  have hhead : (l ++ p :: r).head? ≠ some p ↔ l ≠ [] := by
    cases l with
    | nil => simp
    | cons q l =>
      have hqp : q ≠ p := fun heq => hl (heq ▸ List.mem_cons_self ..)
      simp [hqp]
  have hlast : (l ++ p :: r).getLast? ≠ some p ↔ r ≠ [] := by
    rcases List.eq_nil_or_concat r with rfl | ⟨r, q, rfl⟩
    · simp
    · have hqp : q ≠ p := fun heq => hr (by simp [heq])
      rw [List.concat_eq_append, ← List.cons_append, ← List.append_assoc, List.getLast?_concat]
      simp [hqp]
  rw [interior, decide_eq_true_eq, hhead, hlast]
  simp

theorem mergesInterior_congr (n : ℕ) : ∀ k p, (∀ j, k ≤ j → j < k + n → F j = G j) →
    mergesInterior F n k p = mergesInterior G n k p := by
  induction n with
  | zero => exact fun _ _ _ => rfl
  | succ n ih =>
    intro k p h
    have hk := h k le_rfl (by omega)
    have hbit : pairBit F k (p >>> (1 + k)) = pairBit G k (p >>> (1 + k)) := by
      rw [pairBit, pairBit, hk]
    rw [mergesInterior, mergesInterior, hbit, hk,
      ih (k + 1) _ fun j hj hjn => h j (by omega) (by omega)]

theorem mergeEnd_of_interior (n : ℕ) : ∀ k p, mergesInterior F n k p = true →
    ∃ b, mergeEnd F n k p = some b := by
  induction n with
  | zero =>
    intro k p h
    cases h
  | succ n ih =>
    intro k p h
    simp only [mergesInterior] at h
    rw [mergeEnd]
    split_ifs at h ⊢ with hbit hbuddy
    · rw [Bool.and_eq_true] at h
      exact ih (k + 1) _ h.2
    · rw [Bool.and_eq_true, interior, decide_eq_true_eq] at h
      exact absurd h.1.1 hbuddy
    · exact ⟨_, rfl⟩

theorem next_ne_head {k : ℕ} {l : List ℕ} :
    some (ListHead.area k) ≠ some ((l.map ListHead.page).head?.getD (.area k)) ↔ l ≠ [] := by
  cases l <;> simp

theorem prev_ne_head {k : ℕ} {l : List ℕ} :
    some (ListHead.area k) ≠ some ((l.map ListHead.page).getLast?.getD (.area k)) ↔ l ≠ [] := by
  rcases List.eq_nil_or_concat l with rfl | ⟨l, p, rfl⟩ <;> simp

/-- Where the bits lead the merging to buddies on their lists, its asserts fail exactly
on a buddy that is the first or the last of its list. -/
theorem mergeLoop_checked {O : List Block} {b : Block} (n : ℕ) : ∀ (s : Pages) (F : ℕ → List ℕ)
    (k p : ℕ), k + n = 15 → Pieces Bits s F ((p, k) :: O) → mergeEnd F n k p = some b →
    ∃ a, mergeLoop s (n + 1) k p (p >>> (1 + k)) = some a ∧
      mergeLoopChecked s (n + 1) k p (p >>> (1 + k)) =
        if mergesInterior F n k p then .ok a else .error .assertion := by
  induction n with
  | zero =>
    intro s F k p _ _ hend
    cases hend
  | succ n ih =>
    intro s F k p hkn hs hend
    have hk15 : k < 15 := by omega
    have hk : k < maxOrder := Nat.lt_trans hk15 (by decide)
    have hp := hs.cover.hand_lt
    have hprev := prev_bit hs.rider hk15 hp
    simp only [mergeEnd] at hend
    split_ifs at hend with hbit hbuddy
    · obtain ⟨l, r, hF⟩ := List.append_of_mem hbuddy
      rw [hbit] at hprev
      obtain ⟨links, hdel, hpieces⟩ := merge_step hs hk15 hF rfl
      rw [← mergeEnd_update F n k _ (l ++ r)] at hend
      obtain ⟨a, hplain, hchecked⟩ := ih _ _ (k + 1) _ (by omega) hpieces hend
      have hsame : mergesInterior (Function.update F k (l ++ r)) n (k + 1)
          (p - p % 2 ^ (k + 1)) = mergesInterior F n (k + 1) (p - p % 2 ^ (k + 1)) :=
        mergesInterior_congr _ _ _ fun j hj _ => Function.update_of_ne (by omega) ..
      rw [hsame, ← parent_index] at hchecked
      refine ⟨a, ?_, ?_⟩
      · exact (mergeLoop_merges hp hk15 hprev hdel (n + 1)).trans hplain
      · have hnd := Rings.list_nodup hs.rings hk
        have hring := hs.rings.ring k hk
        rw [hF] at hnd
        rw [hF, List.map_append, List.map_cons] at hring
        obtain ⟨hnext, hback⟩ := hring.neighbours
        rw [mergeLoopChecked, mergesInterior, if_pos hbit]
        simp only [areaBitmap, if_pos hk, hprev, parent_page hp hk15, Nat.one_shiftLeft,
          freeList_eq hk, follow_some, ok_bind, Bool.true_eq_false, if_false, hnext, hback]
        by_cases hin : l ≠ [] ∧ r ≠ []
        · obtain ⟨hl, hr⟩ := hin
          have hinside : interior (F k) (p ^^^ 2 ^ k) = true := by
            rw [hF]
            exact (interior_iff hnd).mpr ⟨hl, hr⟩
          have hlinked : assertLinked { s with
              bitmaps := (bitmapSwitch s.bitmaps (bitmapOffset k) (p >>> (1 + k))).1 }
              (p ^^^ 2 ^ k) = .ok () :=
            assertLinked_ok hs.rings hk hbuddy
          rw [hinside, Bool.true_and, assert_bind (next_ne_head.mpr hr),
            assert_bind (prev_ne_head.mpr hl), hlinked, ok_bind, hdel, follow_some, ok_bind]
          exact hchecked
        · have hout : interior (F k) (p ^^^ 2 ^ k) = false := by
            rwa [hF, ← Bool.not_eq_true, interior_iff hnd]
          rw [hout, Bool.false_and]
          by_cases hr : r ≠ []
          · rw [assert_bind (next_ne_head.mpr hr),
              assert_fails (prev_ne_head.not.mpr fun hl => hin ⟨hl, hr⟩)]
            rfl
          · rw [assert_fails (next_ne_head.not.mpr hr)]
            rfl
    · rw [Bool.not_eq_true] at hbit
      rw [hbit] at hprev
      refine ⟨_, mergeLoop_stops hk hprev (n + 1), ?_⟩
      rw [mergeLoopChecked, mergesInterior, hbit]
      simp only [areaBitmap, if_pos hk, hprev, follow_some, ok_bind, if_true]
      rfl

/-- The asserts of a free from pieces: those behind its loop hold. -/
theorem mmFree_checked {s : Pages} {F : ℕ → List ℕ} {O : List Block} {k p : ℕ} {b : Block}
    (hs : Pieces Bits s F ((p, k) :: O)) (hk : k ≤ 15) (horder : s.order p = k)
    (hend : mergeEnd F (15 - k) k p = some b) :
    ∃ s', mmFree s (physicalAddr s p) = some s' ∧ mmFreeChecked s (physicalAddr s p) =
      if mergesInterior F (15 - k) k p then .ok s' else .error .assertion := by
  have hpn := getPageN_physicalAddr hs.area_le hs.cover.hand_lt
  have hkn : k + (15 - k) = 15 := by omega
  have hrounds : maxOrder - k = 15 - k + 1 := by
    change 16 - k = 15 - k + 1
    omega
  obtain ⟨s', F', hloop, hm⟩ := mergeLoop_spec (15 - k) s F k p hkn hs hend
  obtain ⟨a, hplain, hchecked⟩ := mergeLoop_checked (15 - k) s F k p hkn hs hend
  rw [hloop, Option.some.injEq] at hplain
  subst hplain
  have hk16 : b.2 < maxOrder := Nat.lt_trans hm.order_lt (by decide)
  obtain ⟨links, hadd, hrings⟩ :=
    listAdd_spec hm.rings hk16 (hm.cover.not_listed (covers_self b))
  have hlinked : assertLinked { s' with links := links } b.1 = .ok () :=
    assertLinked_ok hrings hk16 (by
      rw [Function.update_self]
      exact List.mem_cons_self ..)
  refine ⟨{ s' with links := links }, ?_, ?_⟩
  · simp only [mmFree, hpn, horder, hrounds, hloop, freeList_eq hk16, hadd,
      Option.bind_eq_bind, Option.bind_some]
  · simp only [mmFreeChecked, hpn, horder, hrounds, hchecked]
    split_ifs with hin
    · simp only [ok_bind, freeList_eq hk16, follow_some, hadd, hlinked]
      rfl
    · rfl

end Interior

def InteriorFree (c : Client) : Call → Prop
  | .malloc _ => True
  | .free p => mergesInterior (freePages c.pages) (15 - (blockAt c.pages p).2)
      (blockAt c.pages p).2 (blockAt c.pages p).1 = true

theorem trueFree_of_interior {c : Client} {a : Call} (h : InteriorFree c a) : TrueFree c a := by
  cases a with
  | malloc size => trivial
  | free p =>
    obtain ⟨b, hb⟩ := mergeEnd_of_interior _ _ _ h
    exact Option.isSome_iff_exists.mpr ⟨b, hb⟩

theorem reachable_interior {c : Client} (hc : (runs.guarded InteriorFree).Reachable c) :
    ∃ F, Holds Bits c F := by
  apply hc.invariant
  · intro s hs
    exact ⟨_, holds_started hs⟩
  · intro s a s' hs hstep
    exact holds_step hs hstep.1 (trueFree_of_interior hstep.2)

theorem free_checked {s : Pages} {live : List ℕ} {F : ℕ → List ℕ} {p : ℕ}
    (hc : Holds Bits ⟨s, live⟩ F) (hp : p ∈ live) (htrue : TrueFree ⟨s, live⟩ (.free p)) :
    (InteriorFree ⟨s, live⟩ (.free p) → Passes (mmFreeChecked s p) (mmFree s p)) ∧
      (¬ InteriorFree ⟨s, live⟩ (.free p) → mmFreeChecked s p = .error .assertion) := by
  obtain ⟨b, hend⟩ := Option.isSome_iff_exists.mp htrue
  rw [mergeEnd_lists hc hp] at hend
  have hlt : (blockAt s p).2 ≤ 15 := Nat.le_of_lt_succ (hc.order_lt p hp)
  obtain ⟨s', hplain, hchecked⟩ := mmFree_checked (hc.take_live hp) hlt rfl hend
  have hlists : mergesInterior (freePages s) (15 - (blockAt s p).2) (blockAt s p).2
      (blockAt s p).1 = mergesInterior F (15 - (blockAt s p).2) (blockAt s p).2 (blockAt s p).1 :=
    mergesInterior_congr _ _ _ (freePages_lists hc.pieces hlt)
  rw [← hc.address p hp] at hplain hchecked
  rw [InteriorFree, hlists]
  constructor
  · intro hin
    exact ⟨s', hchecked.trans (if_pos hin), hplain⟩
  · intro hout
    exact hchecked.trans (if_neg hout)

/-- The asserts of `mm_init` hold on any memory. In a run whose frees unlink buddies
strictly inside their lists only, those of every allocation and of every such free
hold; a free led to another buddy on its list ends in an assert. -/
theorem asserts_hold {c : Client} (hc : (runs.guarded InteriorFree).Reachable c) :
    (∀ s memStartBrk, Passes (mmInitChecked s memStartBrk) (mmInit s memStartBrk)) ∧
      (∀ size ≤ 2 ^ 23, Passes (mmMallocChecked c.pages size) (mmMalloc c.pages size)) ∧
      ∀ p ∈ c.live, TrueFree c (.free p) →
        (InteriorFree c (.free p) → Passes (mmFreeChecked c.pages p) (mmFree c.pages p)) ∧
        (¬ InteriorFree c (.free p) → mmFreeChecked c.pages p = .error .assertion) := by
  obtain ⟨F, hF⟩ := reachable_interior hc
  exact ⟨mmInit_passes, fun size hsize => mmMalloc_passes rider_bits hF.pieces hsize,
    fun p hp htrue => free_checked hF hp htrue⟩

/-- Of two pages allocated one after the other the second is freed while its buddy is in use. -/
theorem asserts_hold_once :
    Passes (mmFreeChecked ((startedClient.malloc 1).malloc 1).pages 17837768)
      (mmFree ((startedClient.malloc 1).malloc 1).pages 17837768) := by
  have hone : 1 ≤ 2 ^ 23 := by norm_num
  have hc : (runs.guarded InteriorFree).Reachable ((startedClient.malloc 1).malloc 1) :=
    reachable_malloc (reachable_malloc startedClient_reachable hone trivial) hone trivial
  have hin : InteriorFree ((startedClient.malloc 1).malloc 1) (.free 17837768) := by
    change mergesInterior _ _ _ _ = true
    decide
  exact ((asserts_hold hc).2.2 _ (by decide) (trueFree_of_interior hin)).1 hin

/-- The free of the only live page: its buddy is the only block on the list of order 0. -/
theorem assert_on_single_buddy : ∃ c, runs.Reachable c ∧ 17838024 ∈ c.live ∧
    mmFreeChecked c.pages 17838024 = .error .assertion := by
  have hc : runs.Reachable (startedClient.malloc 1) :=
    (reachable_malloc (G := InteriorFree) startedClient_reachable (by norm_num) trivial).of_guarded
  have hstop : (mmFreeChecked (startedClient.malloc 1).pages 17838024).map (fun _ => ()) =
      .error .assertion := by decide +kernel
  refine ⟨_, hc, by decide, ?_⟩
  cases hfree : mmFreeChecked (startedClient.malloc 1).pages 17838024 with
  | error e =>
    rw [hfree] at hstop
    exact congrArg Except.error (Except.error.inj hstop)
  | ok s =>
    rw [hfree] at hstop
    cases hstop

end SystemSoftware.BuddyAsserts
