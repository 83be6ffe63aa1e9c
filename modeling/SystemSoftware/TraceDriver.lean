import SystemSoftware.ByteMemory
import SystemSoftware.DecimalText
import SystemSoftware.EarlyExit
import SystemSoftware.Intervals
import Mathlib.Logic.Function.Basic

/-!
The trace driver mdriver.c, over any malloc package: the range list of the payloads
that are in use, and the loops that check a package, measure its utilization and run
it for its speed. Pointers, `size_t` and `unsigned` are numbers below 2^32; an int is
kept as the unsigned word it was read as where only its sign or its low byte matters.
-/
namespace SystemSoftware.TraceDriver

open ByteMemory DecimalText EarlyExit

/-- What the driver calls of a malloc package and of memlib.c, and the heap bytes.
A call without a result touches memory it must not, or never returns. -/
structure Package (σ : Type*) where
  memResetBrk : σ → σ
  memHeapLo : σ → ℕ
  memHeapHi : σ → ℕ
  memHeapsize : σ → ℕ
  mmInit : σ → Option (σ × Int)
  mmMalloc : σ → ℕ → Option (σ × ℕ)
  mmRealloc : σ → ℕ → ℕ → Option (σ × ℕ)
  mmFree : σ → ℕ → Option σ
  load : σ → ℕ → UInt8
  store : σ → ℕ → UInt8 → σ

structure Range where
  lo : ℕ
  hi : ℕ
  deriving DecidableEq

/-- `traceop_t`. A request to free has no size: read_trace leaves that field as it was. -/
inductive TraceOp
  | alloc (index size : ℕ)
  | realloc (index size : ℕ)
  | free (index : ℕ)
  deriving DecidableEq

abbrev null : ℕ := 0
abbrev alignment : ℕ := 8
abbrev hdrlines : ℕ := 4

def linenum (i : ℕ) : ℕ := i + 5

/-- The messages that are passed to `malloc_error`, with what is printed into them. -/
inductive Message
  | notAligned (lo : ℕ)
  | outsideHeap (lo hi heapLo heapHi : ℕ)
  | overlaps (lo hi : ℕ) (p : Range)
  | initFailed
  | mallocFailed
  | reallocFailed
  | notPreserved
  deriving DecidableEq

/-- How a check ends early: `malloc_error` has been called and 0 is returned, or the
assertion of `add_range` has failed. -/
inductive Stop
  | mallocError (opnum : ℕ) (msg : Message)
  | abort
  deriving DecidableEq

def pointer (p : ℕ) : Text :=
  if p = null then ascii "(nil)"
  else ascii "0x" ++ (Nat.toDigits 16 p).map fun c => UInt8.ofNat c.toNat

def Message.text : Message → Text
  | .notAligned lo => ascii "Payload address (" ++ pointer lo ++ ascii ") not aligned to " ++
      printNat alignment ++ ascii " bytes"
  | .outsideHeap lo hi heapLo heapHi => ascii "Payload (" ++ pointer lo ++ ascii ":" ++
      pointer hi ++ ascii ") lies outside heap (" ++ pointer heapLo ++ ascii ":" ++
      pointer heapHi ++ ascii ")"
  | .overlaps lo hi p => ascii "Payload (" ++ pointer lo ++ ascii ":" ++ pointer hi ++
      ascii ") overlaps another payload (" ++ pointer p.lo ++ ascii ":" ++ pointer p.hi ++
      ascii ")\n"
  | .initFailed => ascii "mm_init failed."
  | .mallocFailed => ascii "mm_malloc failed."
  | .reallocFailed => ascii "mm_realloc failed."
  | .notPreserved => ascii "mm_realloc did not preserve the data from old block"

def mallocError (tracenum opnum : ℕ) (msg : Message) : Text :=
  ascii "ERROR [trace " ++ printNat tracenum ++ ascii ", line " ++ printNat (linenum opnum) ++
    ascii "]: " ++ msg.text ++ ascii "\n"

/-- The heap, the range list and the two arrays of a trace that the loops fill in. -/
structure Eval (σ : Type*) where
  mm : σ
  ranges : List Range
  blocks : ℕ → ℕ
  blockSizes : ℕ → ℕ

/-- A `char` as an int: the compiler's `char` is signed. -/
def signedChar (c : UInt8) : Int := if c.toNat < 128 then c.toNat else c.toNat - 256

def toInt (n : ℕ) : Int := if n < 2 ^ 31 then n else n - 2 ^ 32

/-- What an int holds after a sum or a difference. -/
def wrapInt (x : Int) : Int := (x + 2 ^ 31) % 2 ^ 32 - 2 ^ 31

def lowByte (index : ℕ) : ℕ := index % 256

variable {σ : Type*} (P : Package σ)

def memset (mm : σ) (p : ℕ) (v : UInt8) : ℕ → σ
  | 0 => mm
  | n + 1 => P.store (memset mm p v n) (p + n) v

def addRange (mm : σ) (ranges : List Range) (lo size opnum : ℕ) : Except Stop (List Range) :=
  let hi := sub32 (add32 lo size) 1
  if toInt size ≤ 0 then .error .abort
  else if lo % alignment ≠ 0 then .error (.mallocError opnum (.notAligned lo))
  else if lo < P.memHeapLo mm ∨ P.memHeapHi mm < lo ∨ hi < P.memHeapLo mm ∨ P.memHeapHi mm < hi
  then .error (.mallocError opnum (.outsideHeap lo hi (P.memHeapLo mm) (P.memHeapHi mm)))
  else
    match ranges.find? fun p => (p.lo ≤ lo ∧ lo ≤ p.hi) ∨ (p.lo ≤ hi ∧ hi ≤ p.hi) with
    | some p => .error (.mallocError opnum (.overlaps lo hi p))
    | none => .ok (⟨lo, hi⟩ :: ranges)

def removeRange (ranges : List Range) (lo : ℕ) : List Range := ranges.eraseP fun p => p.lo = lo

def oldsize (s : Eval σ) (index size : ℕ) : Int :=
  let oldsize := toInt (s.blockSizes index)
  if toInt size < oldsize then toInt size else oldsize

/-- The first `n` bytes at `newp` are those that `memset` has left in the old block. -/
def preserved (mm : σ) (newp index n : ℕ) : Bool :=
  (List.range n).all fun j => signedChar (P.load mm (newp + j)) = lowByte index

/-- One iteration of `eval_mm_valid`. The arrays of the trace have `numIds` entries. -/
def validOp (numIds opnum : ℕ) (op : TraceOp) (s : Eval σ) : Option (Except Stop (Eval σ)) :=
  match op with
  | .alloc index size => do
    let (mm, p) ← P.mmMalloc s.mm size
    if p = null then some (.error (.mallocError opnum .mallocFailed))
    else
      match addRange P mm s.ranges p size opnum with
      | .error e => some (.error e)
      | .ok ranges =>
        if numIds ≤ index then none
        else some (.ok {
          mm := memset P mm p (UInt8.ofNat (lowByte index)) size
          ranges := ranges
          blocks := Function.update s.blocks index p
          blockSizes := Function.update s.blockSizes index size })
  | .realloc index size =>
    if numIds ≤ index then none
    else do
      let oldp := s.blocks index
      let (mm, newp) ← P.mmRealloc s.mm oldp size
      if newp = null then some (.error (.mallocError opnum .reallocFailed))
      else
        match addRange P mm (removeRange s.ranges oldp) newp size opnum with
        | .error e => some (.error e)
        | .ok ranges =>
          if preserved P mm newp index (oldsize s index size).toNat then some (.ok {
            mm := memset P mm newp (UInt8.ofNat (lowByte index)) size
            ranges := ranges
            blocks := Function.update s.blocks index newp
            blockSizes := Function.update s.blockSizes index size })
          else some (.error (.mallocError opnum .notPreserved))
  | .free index =>
    if numIds ≤ index then none
    else do
      let p := s.blocks index
      let mm ← P.mmFree s.mm p
      some (.ok { s with mm := mm, ranges := removeRange s.ranges p })

/-- `eval_mm_valid`: 1 is the result of a loop that is not left early. -/
def evalMmValid (numIds : ℕ) (ops : List TraceOp) (s : Eval σ) :
    Option (Except Stop (Eval σ)) := do
  let (mm, r) ← P.mmInit (P.memResetBrk s.mm)
  if r < 0 then some (.error (.mallocError 0 .initFailed))
  else runFrom (validOp P numIds) 0 ops { s with mm := mm, ranges := [] }

/-- The variables of `eval_mm_util`; the two sums are ints. -/
structure Util (σ : Type*) extends Eval σ where
  totalSize : Int
  maxTotalSize : Int

/-- One iteration of `eval_mm_util`; the reason to stop is the message for `app_error`. -/
def utilOp (numIds : ℕ) (_opnum : ℕ) (op : TraceOp) (s : Util σ) :
    Option (Except Text (Util σ)) :=
  match op with
  | .alloc index size => do
    let (mm, p) ← P.mmMalloc s.mm size
    if p = null then some (.error (ascii "mm_malloc failed in eval_mm_util"))
    else if numIds ≤ index then none
    else
      let totalSize := wrapInt (s.totalSize + toInt size)
      some (.ok { s with
        mm := mm
        blocks := Function.update s.blocks index p
        blockSizes := Function.update s.blockSizes index size
        totalSize := totalSize
        maxTotalSize := if s.maxTotalSize < totalSize then totalSize else s.maxTotalSize })
  | .realloc index size =>
    if numIds ≤ index then none
    else do
      let oldsize := toInt (s.blockSizes index)
      let (mm, newp) ← P.mmRealloc s.mm (s.blocks index) size
      if newp = null then some (.error (ascii "mm_realloc failed in eval_mm_util"))
      else
        let totalSize := wrapInt (s.totalSize + wrapInt (toInt size - oldsize))
        some (.ok { s with
          mm := mm
          blocks := Function.update s.blocks index newp
          blockSizes := Function.update s.blockSizes index size
          totalSize := totalSize
          maxTotalSize := if s.maxTotalSize < totalSize then totalSize else s.maxTotalSize })
  | .free index =>
    if numIds ≤ index then none
    else do
      let mm ← P.mmFree s.mm (s.blocks index)
      let totalSize := wrapInt (s.totalSize - toInt (s.blockSizes index))
      some (.ok { s with mm := mm, totalSize := totalSize })

/-- `eval_mm_util` up to its result, which is `max_total_size` over `mem_heapsize()`. -/
def evalMmUtil (numIds : ℕ) (ops : List TraceOp) (s : Eval σ) :
    Option (Except Text (Util σ)) := do
  let (mm, r) ← P.mmInit (P.memResetBrk s.mm)
  if r < 0 then some (.error (ascii "mm_init failed in eval_mm_util"))
  else runFrom (utilOp P numIds) 0 ops { s with mm := mm, totalSize := 0, maxTotalSize := 0 }

def speedOp (numIds : ℕ) (_opnum : ℕ) (op : TraceOp) (s : Eval σ) :
    Option (Except Text (Eval σ)) :=
  match op with
  | .alloc index size => do
    let (mm, p) ← P.mmMalloc s.mm size
    if p = null then some (.error (ascii "mm_malloc error in eval_mm_speed"))
    else if numIds ≤ index then none
    else some (.ok { s with mm := mm, blocks := Function.update s.blocks index p })
  | .realloc index size =>
    if numIds ≤ index then none
    else do
      let (mm, newp) ← P.mmRealloc s.mm (s.blocks index) size
      if newp = null then some (.error (ascii "mm_realloc error in eval_mm_speed"))
      else some (.ok { s with mm := mm, blocks := Function.update s.blocks index newp })
  | .free index =>
    if numIds ≤ index then none
    else do
      let mm ← P.mmFree s.mm (s.blocks index)
      some (.ok { s with mm := mm })

def evalMmSpeed (numIds : ℕ) (ops : List TraceOp) (s : Eval σ) :
    Option (Except Text (Eval σ)) := do
  let (mm, r) ← P.mmInit (P.memResetBrk s.mm)
  if r < 0 then some (.error (ascii "mm_init failed in eval_mm_speed"))
  else runFrom (speedOp P numIds) 0 ops { s with mm := mm }

end SystemSoftware.TraceDriver
