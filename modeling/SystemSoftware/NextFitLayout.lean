import SystemSoftware.NextFitRuns

/-!
The next-fit allocator without its memory. A layout is a list of blocks, the rover and
the limit of the heap, and the calls of a client are computed on the list: a request
cuts the block that the search chooses or the end of the extended heap, and a block
that is given back is merged with its neighbours. No byte of the heap takes part.
-/
namespace SystemSoftware.NextFitLayout

open BoundaryTags NextFitHeap NextFitBlocks NextFitCoalesce NextFitSearch NextFitAllocate
open NextFitRuns

def cut (n : ℕ) (b : Block) : List Block :=
  if h : (8 ∣ n ∧ 0 < n) ∧ n + 16 ≤ b.size then
    [front n h.1.1 h.1.2, remainder b n h.1.1 (by omega)]
  else [b.used]

def carve (n q : ℕ) : ℕ → List Block → List Block
  | _, [] => []
  | a, b :: r => if a = q then cut n b ++ r else b :: carve n q (a + b.size) r

/-- The blocks from address `a` on, the one at `q` free and merged with its neighbours. -/
def release (q : ℕ) : ℕ → List Block → List Block
  | a, p :: b :: r =>
    if a + p.size = q then joinPrev p (joinNext b.free r)
    else p :: release q (a + p.size) (b :: r)
  | _, l => l

def grow (E : Block) : List Block → List Block
  | [] => [E]
  | [p] => joinPrev p [E]
  | p :: b :: r => p :: grow E (b :: r)

def blockAt (q : ℕ) : ℕ → List Block → ℕ
  | a, [] => a
  | a, b :: r => if q < a + b.size then a else blockAt q (a + b.size) r

/-- The blocks, the prologue first, the address of the first one, the rover and the limit. -/
structure Layout where
  start : ℕ
  limit : ℕ
  blocks : List Block
  rover : ℕ

namespace Layout

def brk (L : Layout) : ℕ := L.start + span L.blocks

def chosen (L : Layout) (n : ℕ) : Option (ℕ × Block) :=
  (((placed L.start L.blocks).filter (fun x => L.rover < x.1)).find? (fits (n + 1))).or
    (((placed L.start L.blocks).filter (fun x => x.1 ≤ L.rover)).find? (fits n))

def take (L : Layout) (n : ℕ) : Layout := { L with blocks := carve n L.rover L.start L.blocks }

def extend (L : Layout) (E : Block) : Layout :=
  { L with
    blocks := grow E L.blocks
    rover := blockAt L.brk L.start (grow E L.blocks) }

def mayGrow (L : Layout) (m : ℕ) : Prop := (8 ∣ m ∧ 0 < m) ∧ m < 2 ^ 31 ∧ L.brk + m ≤ L.limit

instance (L : Layout) (m : ℕ) : Decidable (L.mayGrow m) := inferInstanceAs (Decidable (_ ∧ _))

/-- No block is chosen and the new end of the heap lies past the end of the address space. -/
def overruns (L : Layout) (size : ℕ) : Prop :=
  L.chosen (adjustedSize size) = none ∧ max (adjustedSize size) chunckSize < 2 ^ 31 ∧
    2 ^ 32 ≤ L.brk + max (adjustedSize size) chunckSize

def malloc (L : Layout) (size : ℕ) : Layout × ℕ :=
  if size = 0 then (L, null)
  else
    match L.chosen (adjustedSize size) with
    | some x => (take { L with rover := x.1 } (adjustedSize size), x.1)
    | none =>
      if h : L.mayGrow (max (adjustedSize size) chunckSize) then
        let L₁ := L.extend ⟨max (adjustedSize size) chunckSize, false, h.1.1, h.1.2⟩
        (L₁.take (adjustedSize size), L₁.rover)
      else (L, null)

/-- The layout before a request is cut from it. -/
def widened (L : Layout) (n : ℕ) : Layout :=
  match L.chosen n with
  | some _ => L
  | none =>
    if h : L.mayGrow (max n chunckSize) then L.extend ⟨max n chunckSize, false, h.1.1, h.1.2⟩
    else L

def free (L : Layout) (p : ℕ) : Layout :=
  { L with
    blocks := release p L.start L.blocks
    rover := blockAt p L.start (release p L.start L.blocks) }

def init (base limit : ℕ) : Option Layout :=
  let L : Layout := ⟨base + 8, limit, [prologue], base + 8⟩
  if h : L.mayGrow chunckSize then
    some { L.extend ⟨chunckSize, false, h.1.1, h.1.2⟩ with rover := base + 8 }
  else none

end Layout

section Lists

variable {a q n : ℕ} {b c p E : Block} {k r : List Block}

theorem carve_append (hq : q = a + span k) :
    carve n q a (k ++ b :: r) = k ++ cut n b ++ r := by
  induction k generalizing a with
  | nil =>
    have ha : a = q := by simpa using hq.symm
    simp [carve, ha]
  | cons d k ih =>
    rw [span_cons, ← Nat.add_assoc] at hq
    have hd := d.size_pos
    rw [List.cons_append, carve, if_neg (by omega), ih hq]
    simp

theorem release_append (hq : q = a + span k + p.size) :
    release q a (k ++ p :: b :: r) = k ++ joinPrev p (joinNext b.free r) := by
  induction k generalizing a with
  | nil =>
    have ha : a + p.size = q := by simpa using hq.symm
    simp [release, ha]
  | cons d k ih =>
    rw [span_cons, ← Nat.add_assoc] at hq
    have hp := p.size_pos
    obtain ⟨x, y, hxy⟩ : ∃ x y, k ++ p :: b :: r = x :: y := by cases k <;> simp
    rw [List.cons_append, hxy, release, if_neg (by omega), ← hxy, ih hq, List.cons_append]

theorem grow_append : grow E (k ++ [p]) = k ++ joinPrev p [E] := by
  induction k with
  | nil => rfl
  | cons d k ih =>
    obtain ⟨x, y, hxy⟩ : ∃ x y, k ++ [p] = x :: y := by cases k <;> simp
    rw [List.cons_append, hxy, grow, ← hxy, ih, List.cons_append]

theorem span_grow (E : Block) (l : List Block) : span (grow E l) = span l + E.size := by
  induction l using grow.induct with
  | case1 => simp [grow]
  | case2 p =>
    simp only [grow, joinPrev]
    split <;> simp
  | case3 p b r ih =>
    rw [grow, span_cons, ih, span_cons p]
    omega

theorem blockAt_append (hlo : a + span k ≤ q) (hhi : q < a + span k + c.size) :
    blockAt q a (k ++ c :: r) = a + span k := by
  induction k generalizing a with
  | nil =>
    have hq : q < a + c.size := by simpa using hhi
    simp [blockAt, hq]
  | cons d k ih =>
    rw [span_cons, ← Nat.add_assoc] at hlo hhi ⊢
    rw [List.cons_append, blockAt, if_neg (by omega), ih hlo hhi]

/-- The rover after a merge: the address of the merged block. -/
theorem blockAt_joinPrev (hp : q = a + span k + p.size) (hb : b.alloc = false) :
    blockAt q a (k ++ joinPrev p (joinNext b r)) = if p.alloc then q else a + span k := by
  obtain ⟨c, r', hj, -, -, hle, -⟩ := joinNext_cons hb r
  have hb0 := b.size_pos
  rw [hj, joinPrev]
  cases hpa : p.alloc with
  | true =>
    have h := blockAt_append (a := a) (q := q) (k := k ++ [p]) (c := c) (r := r')
      (by simp only [span_append, span_cons, span_nil]; omega)
      (by simp only [span_append, span_cons, span_nil]; omega)
    simp only [if_true]
    rw [List.append_assoc] at h
    simp only [List.cons_append, List.nil_append] at h
    rw [h, hp, span_append, span_cons, span_nil]
    omega
  | false =>
    simp only [Bool.false_eq_true, if_false]
    exact blockAt_append (by omega) (by rw [Block.join_size]; omega)

/-- The neighbours of a free block are in use. -/
theorem neighbours_used {d : Block} (hb : b.alloc = false) (hco : Coalesced (k ++ d :: b :: r)) :
    d.alloc = true ∧ ∀ c, r.head? = some c → c.alloc = true := by
  obtain ⟨-, hchain, -⟩ := List.isChain_append.mp hco
  rw [List.isChain_cons_cons] at hchain
  refine ⟨?_, fun c hc => ?_⟩
  · simpa [hb] using hchain.1
  · cases r with
    | nil => cases hc
    | cons x r =>
      obtain rfl : x = c := by simpa using hc
      have hnext := (List.isChain_cons_cons.mp hchain.2).1
      simpa [hb] using hnext

/-- Giving back what was cut from a free block between blocks in use restores it. -/
theorem release_carve (ha : q = a + span k) (hk : k ≠ []) (hb : b.alloc = false)
    (hco : Coalesced (k ++ b :: r)) :
    release q a (carve n q a (k ++ b :: r)) = k ++ b :: r := by
  obtain ⟨k, d, rfl⟩ := List.eq_nil_or_concat' k |>.resolve_left hk
  obtain ⟨hd, hr⟩ := neighbours_used hb (by simpa using hco)
  have hq : q = a + span k + d.size := by
    rw [ha, span_append, span_cons, span_nil]
    omega
  rw [carve_append ha, cut]
  split
  · next h =>
    have hjoin : (front n h.1.1 h.1.2).free.join (remainder b n h.1.1 (by omega)) = b := by
      refine Block.ext ?_ hb.symm
      simp only [Block.join_size, Block.free_size, front, remainder]
      omega
    have hrel := release_append (a := a) (k := k) (p := d) (b := front n h.1.1 h.1.2)
      (r := remainder b n h.1.1 (by omega) :: r) hq
    rw [joinNext, if_neg (by simp [remainder]), hjoin, joinPrev, if_pos hd] at hrel
    simpa using hrel
  · have hfree : b.used.free = b := Block.ext rfl hb.symm
    have hrel := release_append (a := a) (k := k) (p := d) (b := b.used) (r := r) hq
    have hnext : joinNext b r = b :: r := by
      cases r with
      | nil => rfl
      | cons c r => rw [joinNext, if_pos (hr c rfl)]
    rw [hfree, hnext, joinPrev, if_pos hd] at hrel
    simpa using hrel

end Lists

theorem Layout.brk_extend (L : Layout) (E : Block) : (L.extend E).brk = L.brk + E.size := by
  simp only [Layout.brk, Layout.extend, span_grow]
  omega

end SystemSoftware.NextFitLayout
