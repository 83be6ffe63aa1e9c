import SystemSoftware.ByteMemory

/-!
The next-fit allocator of mymalloc_nextfit: its heap, the word macros of mm.c
and the functions of mm.c over `mem_sbrk` of memlib.c. The build is 32-bit,
so pointers, `size_t` and `unsigned int` are numbers below 2^32 and wrap.
`none` is the result of a call that touches a byte outside the heap or that
never returns.
-/
namespace SystemSoftware.NextFitHeap

open ByteMemory

structure Heap where
  mem : Memory
  memStartBrk : ℕ
  memBrk : ℕ
  memMaxAddr : ℕ
  startBp : ℕ
  lastBp : ℕ

abbrev null : ℕ := 0
abbrev minusOne : ℕ := 2 ^ 32 - 1

abbrev wsize : ℕ := 4
abbrev dsize : ℕ := 8
abbrev chunckSize : ℕ := 4096

def pack (size alloc : ℕ) : ℕ := size ||| alloc

def Heap.get (h : Heap) (p : ℕ) : Option ℕ :=
  if h.memStartBrk ≤ p ∧ p + wsize ≤ h.memBrk then some (word h.mem p) else none

def Heap.put (h : Heap) (p v : ℕ) : Option Heap :=
  if h.memStartBrk ≤ p ∧ p + wsize ≤ h.memBrk then some { h with mem := putWord h.mem p v }
  else none

def notSeven : ℕ := 2 ^ 32 - 8

def getSize (h : Heap) (p : ℕ) : Option ℕ := do
  return (← h.get p) &&& notSeven

def isItAlloc (h : Heap) (p : ℕ) : Option ℕ := do
  return (← h.get p) &&& 1

def headerP (bp : ℕ) : ℕ := sub32 bp wsize

def footerP (h : Heap) (bp : ℕ) : Option ℕ := do
  return sub32 (sub32 (add32 bp (← getSize h (headerP bp))) wsize) wsize

def nextBlockBp (h : Heap) (bp : ℕ) : Option ℕ := do
  return add32 bp (← getSize h (headerP bp))

def prevBlockBp (h : Heap) (bp : ℕ) : Option ℕ := do
  return sub32 bp (← getSize h (sub32 bp dsize))

/-- `mem_sbrk(int incr)`: a `size_t` from 2^31 on arrives as a negative int. The sum that is
compared with the end of the memory is a pointer and wraps. -/
def memSbrk (h : Heap) (incr : ℕ) : Heap × ℕ :=
  let brk := add32 h.memBrk incr
  if 2 ^ 31 ≤ incr ∨ h.memMaxAddr < brk then (h, minusOne)
  else ({ h with memBrk := brk }, h.memBrk)

def coalesce (h : Heap) (bp : ℕ) : Option (Heap × ℕ) := do
  let isPrevAlloc ← isItAlloc h (← footerP h (← prevBlockBp h bp))
  let isNextAlloc ← isItAlloc h (headerP (← nextBlockBp h bp))
  let size ← getSize h (headerP bp)
  if isPrevAlloc ≠ 0 ∧ isNextAlloc ≠ 0 then
    some ({ h with lastBp := bp }, bp)
  else if isPrevAlloc ≠ 0 ∧ isNextAlloc = 0 then do
    let size := add32 size (← getSize h (headerP (← nextBlockBp h bp)))
    let h ← h.put (headerP bp) (pack size 0)
    let h ← h.put (← footerP h bp) (pack size 0)
    some ({ h with lastBp := bp }, bp)
  else if isPrevAlloc = 0 ∧ isNextAlloc ≠ 0 then do
    let size := add32 size (← getSize h (headerP (← prevBlockBp h bp)))
    let h ← h.put (← footerP h bp) (pack size 0)
    let h ← h.put (headerP (← prevBlockBp h bp)) (pack size 0)
    let bp ← prevBlockBp h bp
    some ({ h with lastBp := bp }, bp)
  else do
    let size := add32 size (add32 (← getSize h (headerP (← nextBlockBp h bp)))
      (← getSize h (headerP (← prevBlockBp h bp))))
    let h ← h.put (headerP (← prevBlockBp h bp)) (pack size 0)
    let h ← h.put (← footerP h (← nextBlockBp h bp)) (pack size 0)
    let bp ← prevBlockBp h bp
    some ({ h with lastBp := bp }, bp)

/-- The number of words is rounded up to an even one. -/
def extendHeap (h : Heap) (words : ℕ) : Option (Heap × ℕ) :=
  let size := (if words % 2 ≠ 0 then (words + 1) <<< 2 else words <<< 2) % 2 ^ 32
  let (h, bp) := memSbrk h size
  if bp = minusOne then some (h, null)
  else do
    let h ← h.put (headerP bp) (pack size 0)
    let h ← h.put (← footerP h bp) (pack size 0)
    let h ← h.put (headerP (← nextBlockBp h bp)) (pack 0 1)
    coalesce h bp

def mmInit (h : Heap) : Option (Heap × Int) :=
  let (h, bp) := memSbrk h (wsize <<< 2)
  let h := { h with startBp := bp }
  if bp = minusOne then some (h, -1)
  else do
    let h ← h.put h.startBp 0
    let h ← h.put (add32 h.startBp (1 * wsize)) (pack dsize 1)
    let h ← h.put (add32 h.startBp (2 * wsize)) (pack dsize 1)
    let h ← h.put (add32 h.startBp (3 * wsize)) (pack 0 1)
    let h := { h with startBp := add32 h.startBp (wsize <<< 1) }
    let (h, bp) ← extendHeap h (chunckSize / wsize)
    if bp = null then some (h, -1)
    else some ({ h with lastBp := h.startBp }, 0)

/-- The do-while loop of `next_fit`, entered with `bp` before its first
iteration. The result is the block it returns, or `none` when it leaves the
loop at the epilogue. -/
def nextFitToEpilogue (h : Heap) (adjSize : ℕ) : ℕ → ℕ → Option (Option ℕ)
  | 0, _ => none
  | fuel + 1, bp => do
    let bp ← nextBlockBp h bp
    let alloc ← isItAlloc h (headerP bp)
    let size ← getSize h (headerP bp)
    if alloc = 0 ∧ adjSize < size then some (some bp)
    else if size ≠ 0 then nextFitToEpilogue h adjSize fuel bp
    else some none

/-- The while loop of `next_fit` from the first block up to `last_bp`. -/
def nextFitToLast (h : Heap) (adjSize : ℕ) : ℕ → ℕ → Option (Option ℕ)
  | 0, _ => none
  | fuel + 1, bp =>
    if bp < h.lastBp then do
      let bp ← nextBlockBp h bp
      let alloc ← isItAlloc h (headerP bp)
      let size ← getSize h (headerP bp)
      if alloc = 0 ∧ adjSize ≤ size then some (some bp)
      else nextFitToLast h adjSize fuel bp
    else some none

/-- There are 2^32 addresses and neither loop changes the heap, so a walk of
more than 2^32 steps has come back to a block and never ends. -/
def walkFuel : ℕ := 2 ^ 32 + 1

def nextFit (h : Heap) (adjSize : ℕ) : Option (Heap × ℕ) := do
  match ← nextFitToEpilogue h adjSize walkFuel h.lastBp with
  | some bp => some ({ h with lastBp := bp }, bp)
  | none =>
    match ← nextFitToLast h adjSize walkFuel h.startBp with
    | some bp => some ({ h with lastBp := bp }, bp)
    | none => some (h, null)

def mark (h : Heap) (bp adjSize : ℕ) : Option Heap := do
  let curSize ← getSize h (headerP bp)
  let divdedSize := sub32 curSize adjSize
  if dsize <<< 1 ≤ divdedSize then
    let h ← h.put (headerP bp) (pack adjSize 1)
    let h ← h.put (← footerP h bp) (pack adjSize 1)
    let bp ← nextBlockBp h bp
    let h ← h.put (headerP bp) (pack divdedSize 0)
    h.put (← footerP h bp) (pack divdedSize 0)
  else
    let h ← h.put (headerP bp) (pack curSize 1)
    h.put (← footerP h bp) (pack curSize 1)

def adjustedSize (size : ℕ) : ℕ :=
  if size ≤ dsize then 2 * dsize
  else (dsize * (add32 size (dsize + dsize - 1) / dsize)) % 2 ^ 32

def mmMalloc (h : Heap) (size : ℕ) : Option (Heap × ℕ) :=
  if size = 0 then some (h, null)
  else do
    let adjSize := adjustedSize size
    let (h, bp) ← nextFit h adjSize
    if bp ≠ null then
      let h ← mark h bp adjSize
      some ({ h with lastBp := bp }, bp)
    else
      let extendedSize := max adjSize chunckSize
      let (h, bp) ← extendHeap h (extendedSize / wsize)
      if bp = null then some (h, null)
      else
        let h ← mark h bp adjSize
        some ({ h with lastBp := bp }, bp)

def mmFree (h : Heap) (ptr : ℕ) : Option Heap := do
  let size ← getSize h (headerP ptr)
  let h ← h.put (headerP ptr) (pack size 0)
  let h ← h.put (← footerP h ptr) (pack size 0)
  let (h, _) ← coalesce h ptr
  some h

def memcpy (h : Heap) (dst src n : ℕ) : Option Heap :=
  if h.memStartBrk ≤ dst ∧ dst + n ≤ h.memBrk ∧ h.memStartBrk ≤ src ∧ src + n ≤ h.memBrk then
    some { h with mem := copyBytes h.mem dst src n }
  else none

def mmRealloc (h : Heap) (ptr size : ℕ) : Option (Heap × ℕ) := do
  let curSize ← getSize h (headerP ptr)
  let newSize := add32 size (wsize <<< 1)
  if newSize ≤ curSize then some (h, ptr)
  else
    let isNextAlloc ← isItAlloc h (headerP (← nextBlockBp h ptr))
    let mergedSize := add32 curSize (← getSize h (headerP (← nextBlockBp h ptr)))
    if isNextAlloc = 0 ∧ newSize ≤ mergedSize then
      let h ← h.put (headerP ptr) (pack mergedSize 1)
      let h ← h.put (← footerP h ptr) (pack mergedSize 1)
      some (h, ptr)
    else
      let (h, newBp) ← mmMalloc h newSize
      let h ← mark h newBp newSize
      let h ← memcpy h newBp ptr curSize
      let h ← mmFree h ptr
      some (h, newBp)

end SystemSoftware.NextFitHeap
