import SystemSoftware.ByteMemory
import SystemSoftware.LinkedRing

/-!
The buddy allocator of mymalloc_buddy: mm.c over its free areas, page structs
and bitmaps. The asserts and the printing are left out. List heads are named
instead of addressed: that of a free area or that inside a page struct. The
bitmaps are bytes, numbered from `bitmap_area` on, and are read and written
through 32-bit words as in mm.c. `none` is the result of a call that follows a
null or an unknown pointer.
-/
namespace SystemSoftware.BuddyPages

open ByteMemory LinkedRing

abbrev null : ℕ := 0
abbrev pageShift : ℕ := 8
abbrev pageSize : ℕ := 1 <<< pageShift
abbrev physicalMemorySize : ℕ := 1 <<< 24
abbrev maxOrder : ℕ := 24 - pageShift
abbrev phyPageN : ℕ := physicalMemorySize >>> pageShift

inductive ListHead
  | area (order : ℕ)
  | page (n : ℕ)
  deriving DecidableEq

structure Pages where
  links : Links ListHead
  order : ℕ → ℕ
  bitmaps : Memory
  freePhyPageN : ℕ
  physicalMemoryArea : ℕ

/-- `&free_area_area[order].free_list`. The array ends where the page structs
begin, and a page struct begins with its list head. -/
def freeList (order : ℕ) : Option ListHead :=
  if order < maxOrder then some (.area order)
  else if order = maxOrder then some (.page 0)
  else none

def listAdd (s : Pages) (head new : ListHead) : Option Pages := do
  let next ← s.links.next head
  let links := (s.links.setPrev next (some new)).setNext new (some next)
  some { s with links := (links.setPrev new (some head)).setNext head (some new) }

def listDel (s : Pages) (l : ListHead) : Option Pages := do
  let prev ← s.links.prev l
  let links := s.links.setNext prev (s.links.next l)
  let next ← links.next l
  let links := links.setPrev next (links.prev l)
  some { s with links := (links.setNext l none).setPrev l none }

/-- `list_del` on a copy of a page struct: the fields that it clears are the copy's. -/
def listDelCopy (s : Pages) (l : ListHead) : Option Pages := do
  let prev ← s.links.prev l
  let links := s.links.setNext prev (s.links.next l)
  let next ← s.links.next l
  some { s with links := links.setPrev next (some prev) }

def bitmapIndex (pos : ℕ) : ℕ := pos >>> 6

def bitmapGet (m : Memory) (bitmap pos : ℕ) : Bool :=
  decide (word m (bitmap + 4 * bitmapIndex pos) &&& (1 <<< (pos &&& 31)) ≠ 0)

def bitmapSet (m : Memory) (bitmap pos : ℕ) (set : Bool) : Memory × Bool :=
  let index := bitmap + 4 * bitmapIndex pos
  let prev := bitmapGet m bitmap pos
  if set then (putWord m index (word m index ||| 1 <<< (pos &&& 31)), prev)
  else (putWord m index (word m index &&& ((2 ^ 32 - 1) ^^^ 1 <<< (pos % 32))), prev)

def bitmapSwitch (m : Memory) (bitmap pos : ℕ) : Memory × Bool :=
  let prev := bitmapGet m bitmap pos
  ((bitmapSet m bitmap pos (!prev)).1, prev)

def bitmapSize : ℕ → ℕ
  | 0 => phyPageN >>> 1 >>> 3
  | order + 1 => if 1 < bitmapSize order then bitmapSize order >>> 1 else bitmapSize order

def bitmapOffset : ℕ → ℕ
  | 0 => 0
  | order + 1 => bitmapOffset order + bitmapSize order

/-- `free_area_area[order].bitmap`; behind the array it is a field of page 0. -/
def areaBitmap (order : ℕ) : Option ℕ :=
  if order < maxOrder then some (bitmapOffset order) else none

def markUsed (s : Pages) (index order : ℕ) : Option Pages := do
  let bitmap ← areaBitmap order
  some { s with bitmaps := (bitmapSwitch s.bitmaps bitmap (index >>> (1 + order))).1 }

def physicalAddr (s : Pages) (page : ℕ) : ℕ := s.physicalMemoryArea + page * pageSize

def getPageN (s : Pages) (addr : ℕ) : ℕ := sub32 addr s.physicalMemoryArea >>> pageShift

def memset (m : Memory) (p : ℕ) (c : UInt8) (n : ℕ) : Memory :=
  fun x => if p ≤ x ∧ x < p + n then c else m x

def mappingBitmap (m : Memory) : Memory :=
  (List.range maxOrder).foldl (fun m i => memset m (bitmapOffset i) 0 (bitmapSize i ||| 1)) m

def initLists (links : Links ListHead) : Links ListHead :=
  (List.range maxOrder).foldl (fun links i =>
    (links.setNext (.area i) (some (.area i))).setPrev (.area i) (some (.area i))) links

def initBuddy (s : Pages) : Option Pages := do
  let s := { s with links := initLists s.links }
  let s ← listAdd s (.area (maxOrder - 1)) (.page 0)
  let s ← listAdd s (.area (maxOrder - 1)) (.page (2 <<< (maxOrder - 2)))
  let bitmap ← areaBitmap (maxOrder - 1)
  some { s with bitmaps := (bitmapSet s.bitmaps bitmap 0 true).1 }

/-- `mm_init` on memory with any contents; the 20 MB behind `memStartBrk` hold
all areas, so `mem_sbrk` does not fail. -/
def mmInit (s : Pages) (memStartBrk : ℕ) : Option Pages :=
  let pageStructArea := memStartBrk + 12 * maxOrder
  let bitmapArea := pageStructArea + 16 * phyPageN
  let bitmapAreaSize := phyPageN / 8 + 4
  let align := (7 &&& (2 ^ 32 - 1 - ((bitmapArea + bitmapAreaSize) &&& 7))) + 1
  initBuddy { s with
    freePhyPageN := phyPageN
    physicalMemoryArea := bitmapArea + bitmapAreaSize + align
    bitmaps := mappingBitmap s.bitmaps }

def memsizeToOrder (memsize : ℕ) : Option ℕ :=
  (List.range (maxOrder + 1)).find? (fun i => memsize ≤ pageSize <<< i)

def expand (s : Pages) (page pageN lowOrder : ℕ) : ℕ → Option (Pages × ℕ)
  | 0 => some (s, page)
  | n + 1 => do
    let highOrder := lowOrder + n
    let size := 1 <<< highOrder
    let s ← listAdd s (← freeList highOrder) (.page page)
    let s ← markUsed s pageN highOrder
    expand s (page + size) (pageN + size) lowOrder n

/-- One round of the loop of `alloc_pages`: the address of a block cut from the
list of `currOrder`, or `none` when that list is empty. -/
def allocFrom (s : Pages) (order currOrder : ℕ) : Option (Option (Pages × ℕ)) := do
  let head ← freeList currOrder
  let curr ← s.links.next head
  if head ≠ curr then
    match curr with
    | .area _ => none
    | .page page => do
      let s ← listDel s curr
      let pageN := getPageN s (physicalAddr s page)
      let s ← if currOrder ≠ maxOrder - 1 then markUsed s pageN currOrder else some s
      let s := { s with freePhyPageN := sub32 s.freePhyPageN (1 <<< order) }
      let (s, page) ← expand s page pageN order (currOrder - order)
      let s := { s with
        order := Function.update s.order page order
        freePhyPageN := sub32 s.freePhyPageN (1 <<< order) }
      some (some (s, physicalAddr s page))
  else some none

def allocLoop (s : Pages) (order : ℕ) : ℕ → ℕ → Option (Pages × ℕ)
  | 0, _ => some (s, null)
  | rounds + 1, currOrder => do
    match ← allocFrom s order currOrder with
    | some r => some r
    | none => allocLoop s order rounds (currOrder + 1)

/-- The do-while loop runs once even for an order that has no free area. -/
def allocPages (s : Pages) : Option ℕ → Option (Pages × ℕ)
  | none => some (s, null)
  | some order => allocLoop s order (max 1 (maxOrder - order)) order

def mmMalloc (s : Pages) (size : ℕ) : Option (Pages × ℕ) :=
  allocPages s (memsizeToOrder size)

/-- The loop of `mm_free`, which has `rounds` areas left in front of the page
structs. The result is the list the block is put on and its first page. -/
def mergeLoop (s : Pages) : ℕ → ℕ → ℕ → ℕ → Option (Pages × ℕ × ℕ)
  | 0, order, pageN, _ => some (s, order, pageN)
  | rounds + 1, order, pageN, bitIndex => do
    let bitmap ← areaBitmap order
    let (bitmaps, prev) := bitmapSwitch s.bitmaps bitmap bitIndex
    let s := { s with bitmaps := bitmaps }
    if prev = false then some (s, order, pageN)
    else
      let buddyIdx := pageN ^^^ (1 <<< order)
      let s ← listDelCopy s (.page buddyIdx)
      mergeLoop s rounds (order + 1) (pageN &&& (2 ^ 32 - 2 ^ (order + 1))) (bitIndex >>> 1)

def mmFree (s : Pages) (ptr : ℕ) : Option Pages := do
  let pageN := getPageN s ptr
  let order := s.order pageN
  let (s, order, pageN) ← mergeLoop s (maxOrder - order) order pageN (pageN >>> (1 + order))
  listAdd s (← freeList order) (.page pageN)

end SystemSoftware.BuddyPages
