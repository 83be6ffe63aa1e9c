import SystemSoftware.ByteMemory
import Mathlib.Data.List.Basic
import Mathlib.Data.List.Chain

/-!
Boundary-tagged blocks laid out one after the other in byte memory. A block
stores its size and its allocation bit twice, in the word before its first
byte and in the last word before the next block's first tag. The list of the
blocks from an address on is determined by the memory, a write inside one
part of the list leaves the rest tagged, and the blocks never overlap.
-/
namespace SystemSoftware.BoundaryTags

open ByteMemory

/-- Sizes count both tags and are multiples of eight, so a tag has room for
the allocation bit and walking over a block makes progress. -/
@[ext] structure Block where
  size : ℕ
  alloc : Bool
  size_dvd : 8 ∣ size
  size_pos : 0 < size
  deriving DecidableEq

namespace Block

def tag (b : Block) : ℕ := b.size + b.alloc.toNat

def free (b : Block) : Block := { b with alloc := false }

def used (b : Block) : Block := { b with alloc := true }

def join (b c : Block) : Block where
  size := b.size + c.size
  alloc := false
  size_dvd := Nat.dvd_add b.size_dvd c.size_dvd
  size_pos := Nat.add_pos_left b.size_pos _

@[simp] theorem free_size (b : Block) : b.free.size = b.size := rfl
@[simp] theorem free_alloc (b : Block) : b.free.alloc = false := rfl
@[simp] theorem used_size (b : Block) : b.used.size = b.size := rfl
@[simp] theorem used_alloc (b : Block) : b.used.alloc = true := rfl
@[simp] theorem join_size (b c : Block) : (b.join c).size = b.size + c.size := rfl
@[simp] theorem join_alloc (b c : Block) : (b.join c).alloc = false := rfl

theorem eight_le (b : Block) : 8 ≤ b.size := Nat.le_of_dvd b.size_pos b.size_dvd

theorem tag_of_alloc {b : Block} (h : b.alloc = true) : b.tag = b.size + 1 := by
  simp [tag, h]

theorem tag_of_free {b : Block} (h : b.alloc = false) : b.tag = b.size := by
  simp [tag, h]

theorem tag_le (b : Block) : b.tag ≤ b.size + 1 :=
  Nat.add_le_add_left (Bool.toNat_le b.alloc) _

/-- The tag determines the block. -/
theorem tag_injective : Function.Injective tag := by
  intro b c h
  have hb := b.size_dvd
  have hc := c.size_dvd
  unfold tag at h
  cases hba : b.alloc <;> cases hca : c.alloc <;>
    simp only [hba, hca, Bool.toNat_true, Bool.toNat_false] at h
  · exact Block.ext (by omega) (hba.trans hca.symm)
  · omega
  · omega
  · exact Block.ext (by omega) (hba.trans hca.symm)

end Block

def span : List Block → ℕ
  | [] => 0
  | b :: r => b.size + span r

@[simp] theorem span_nil : span [] = 0 := rfl
@[simp] theorem span_cons (b : Block) (r : List Block) : span (b :: r) = b.size + span r := rfl

@[simp] theorem span_append (l r : List Block) : span (l ++ r) = span l + span r := by
  induction l with
  | nil => simp
  | cons b l ih => simp [ih, Nat.add_assoc]

theorem span_dvd (l : List Block) : 8 ∣ span l := by
  induction l with
  | nil => exact Nat.dvd_zero 8
  | cons b l ih => exact Nat.dvd_add b.size_dvd ih

theorem length_le_span (l : List Block) : l.length * 8 ≤ span l := by
  induction l with
  | nil => simp
  | cons b l ih =>
    have hb := b.eight_le
    simp only [List.length_cons, span_cons]
    omega

def placed : ℕ → List Block → List (ℕ × Block)
  | _, [] => []
  | a, b :: r => (a, b) :: placed (a + b.size) r

@[simp] theorem placed_nil (a : ℕ) : placed a [] = [] := rfl
@[simp] theorem placed_cons (a : ℕ) (b : Block) (r : List Block) :
    placed a (b :: r) = (a, b) :: placed (a + b.size) r := rfl

theorem placed_append (a : ℕ) (l r : List Block) :
    placed a (l ++ r) = placed a l ++ placed (a + span l) r := by
  induction l generalizing a with
  | nil => simp
  | cons b l ih => simp [ih, Nat.add_assoc]

theorem mem_placed {a p : ℕ} {b : Block} {l : List Block} :
    (p, b) ∈ placed a l ↔ ∃ l₁ l₂, l = l₁ ++ b :: l₂ ∧ p = a + span l₁ := by
  constructor
  · intro h
    induction l generalizing a with
    | nil => simp at h
    | cons c l ih =>
      rw [placed_cons, List.mem_cons] at h
      rcases h with h | h
      · obtain ⟨rfl, rfl⟩ := Prod.mk.injEq .. ▸ h
        exact ⟨[], l, rfl, rfl⟩
      · obtain ⟨l₁, l₂, rfl, rfl⟩ := ih h
        exact ⟨c :: l₁, l₂, rfl, by simp [Nat.add_assoc]⟩
  · rintro ⟨l₁, l₂, rfl, rfl⟩
    simp [placed_append]

theorem placed_bounds {a p : ℕ} {b : Block} {l : List Block} (h : (p, b) ∈ placed a l) :
    a ≤ p ∧ p + b.size ≤ a + span l := by
  obtain ⟨l₁, l₂, rfl, rfl⟩ := mem_placed.mp h
  simp only [span_append, span_cons]
  omega

theorem placed_address_lt {a : ℕ} {l : List Block} {x : ℕ × Block} (h : x ∈ placed a l) :
    x.1 < a + span l := by
  have hb := placed_bounds (show (x.1, x.2) ∈ placed a l from h)
  have hpos := x.2.size_pos
  omega

/-- Two placed blocks are the same or lie apart. -/
theorem placed_disjoint {a p q : ℕ} {b c : Block} {l : List Block}
    (hb : (p, b) ∈ placed a l) (hc : (q, c) ∈ placed a l) :
    (p = q ∧ b = c) ∨ p + b.size ≤ q ∨ q + c.size ≤ p := by
  induction l generalizing a with
  | nil => simp at hb
  | cons d l ih =>
    rw [placed_cons, List.mem_cons] at hb hc
    rcases hb with hb | hb <;> rcases hc with hc | hc
    · obtain ⟨rfl, rfl⟩ := Prod.mk.injEq .. ▸ hb
      obtain ⟨rfl, rfl⟩ := Prod.mk.injEq .. ▸ hc
      exact Or.inl ⟨rfl, rfl⟩
    · obtain ⟨rfl, rfl⟩ := Prod.mk.injEq .. ▸ hb
      exact Or.inr (Or.inl (placed_bounds hc).1)
    · obtain ⟨rfl, rfl⟩ := Prod.mk.injEq .. ▸ hc
      exact Or.inr (Or.inr (placed_bounds hb).1)
    · exact ih hb hc

/-- A block is determined by its address. -/
theorem placed_unique {a p : ℕ} {b c : Block} {l : List Block}
    (hb : (p, b) ∈ placed a l) (hc : (p, c) ∈ placed a l) : b = c := by
  have := b.size_pos
  have := c.size_pos
  rcases placed_disjoint hb hc with h | h | h
  · exact h.2
  · omega
  · omega

/-- Addresses grow along the list. -/
theorem placed_sorted (a : ℕ) (l : List Block) :
    ((placed a l).map Prod.fst).Pairwise (· < ·) := by
  induction l generalizing a with
  | nil => exact List.Pairwise.nil
  | cons b l ih =>
    rw [placed_cons, List.map_cons, List.pairwise_cons]
    refine ⟨?_, ih _⟩
    simp only [List.mem_map, Prod.exists, exists_and_right, exists_eq_right]
    rintro q ⟨c, hc⟩
    have := (placed_bounds hc).1
    have := b.size_pos
    omega

def liveBlocks (a : ℕ) (l : List Block) : List (ℕ × Block) :=
  (placed a l).filter (fun x => x.2.alloc)

theorem liveBlocks_append (a : ℕ) (l r : List Block) :
    liveBlocks a (l ++ r) = liveBlocks a l ++ liveBlocks (a + span l) r := by
  simp [liveBlocks, placed_append]

@[simp] theorem liveBlocks_nil (a : ℕ) : liveBlocks a [] = [] := rfl

theorem liveBlocks_cons_alloc {a : ℕ} {b : Block} {r : List Block} (h : b.alloc = true) :
    liveBlocks a (b :: r) = (a, b) :: liveBlocks (a + b.size) r := by
  simp [liveBlocks, h]

theorem liveBlocks_cons_free {a : ℕ} {b : Block} {r : List Block} (h : b.alloc = false) :
    liveBlocks a (b :: r) = liveBlocks (a + b.size) r := by
  simp [liveBlocks, h]

theorem liveBlocks_eq_nil {a : ℕ} {l : List Block} (h : ∀ b ∈ l, b.alloc = false) :
    liveBlocks a l = [] := by
  induction l generalizing a with
  | nil => rfl
  | cons b l ih =>
    rw [liveBlocks_cons_free (h b List.mem_cons_self)]
    exact ih fun c hc => h c (List.mem_cons_of_mem b hc)

theorem mem_liveBlocks {a p : ℕ} {b : Block} {l : List Block} :
    (p, b) ∈ liveBlocks a l ↔ (p, b) ∈ placed a l ∧ b.alloc = true := by
  simp [liveBlocks]

theorem liveBlocks_addresses_nodup (a : ℕ) (l : List Block) :
    ((liveBlocks a l).map Prod.fst).Nodup := by
  have hsub : ((liveBlocks a l).map Prod.fst).Sublist ((placed a l).map Prod.fst) :=
    List.filter_sublist.map _
  exact ((placed_sorted a l).imp Nat.ne_of_lt).sublist hsub

/-- Both tags of every block are in memory, the first block starting at `a`. -/
def Tagged (m : Memory) : ℕ → List Block → Prop
  | _, [] => True
  | a, b :: r => word m (a - 4) = b.tag ∧ word m (a + b.size - 8) = b.tag ∧
      Tagged m (a + b.size) r

theorem tagged_append {m : Memory} {a : ℕ} {l r : List Block} :
    Tagged m a (l ++ r) ↔ Tagged m a l ∧ Tagged m (a + span l) r := by
  induction l generalizing a with
  | nil => simp [Tagged]
  | cons b l ih => simp [Tagged, ih, and_assoc, Nat.add_assoc]

/-- Only the bytes from the first header to the last footer matter. -/
theorem Tagged.congr {m m' : Memory} {a : ℕ} {l : List Block} (ha : 4 ≤ a)
    (hs : SameOn m m' (a - 4) (a + span l - 4)) (h : Tagged m a l) : Tagged m' a l := by
  induction l generalizing a with
  | nil => trivial
  | cons b l ih =>
    obtain ⟨hhead, hfoot, hrest⟩ := h
    have hb := b.eight_le
    rw [span_cons] at hs
    refine ⟨?_, ?_, ih (by omega) (hs.mono (by omega) (by omega)) hrest⟩
    · rw [word_congr hs le_rfl (by omega), hhead]
    · rw [word_congr hs (by omega) (by omega), hfoot]

/-- Replace a stretch of blocks by one of the same extent, writing nowhere else. -/
theorem Tagged.replace {m m' : Memory} {a : ℕ} {l₁ old new l₂ : List Block} (ha : 4 ≤ a)
    (h : Tagged m a (l₁ ++ old ++ l₂)) (hspan : span new = span old)
    (hframe : SameOutside m m' (a + span l₁ - 4) (a + span l₁ + span old - 4))
    (hnew : Tagged m' (a + span l₁) new) : Tagged m' a (l₁ ++ new ++ l₂) := by
  simp only [tagged_append, span_append, ← Nat.add_assoc] at h ⊢
  rw [hspan]
  exact ⟨⟨h.1.1.congr ha (hframe.sameOn (by omega)), hnew⟩,
    h.2.congr (by omega) (hframe.sameOn (by omega))⟩

/-- The memory determines the blocks up to a given end. -/
theorem Tagged.unique {m : Memory} {a : ℕ} {l r : List Block} (hl : Tagged m a l)
    (hr : Tagged m a r) (hspan : span l = span r) : l = r := by
  induction l generalizing a r with
  | nil =>
    cases r with
    | nil => rfl
    | cons c r => have := c.size_pos; simp at hspan; omega
  | cons b l ih =>
    cases r with
    | nil => have := b.size_pos; simp at hspan; omega
    | cons c r =>
      have hbc : b = c := Block.tag_injective (hl.1.symm.trans hr.1)
      subst c
      rw [span_cons, span_cons] at hspan
      rw [ih hl.2.2 hr.2.2 (by omega)]

def writeTags (m : Memory) (a : ℕ) (b : Block) : Memory :=
  putWord (putWord m (a - 4) b.tag) (a + b.size - 8) b.tag

theorem writeTags_sameOutside {m : Memory} {a : ℕ} {b : Block} (ha : 4 ≤ a) :
    SameOutside m (writeTags m a b) (a - 4) (a + b.size - 4) := by
  have hb := b.eight_le
  have h₁ := (putWord_sameOutside m (a - 4) b.tag).mono (show a - 4 ≤ a - 4 by omega)
    (show a - 4 + 4 ≤ a + b.size - 4 by omega)
  exact h₁.trans ((putWord_sameOutside _ _ _).mono (by omega) (by omega))

theorem tagged_writeTags {m : Memory} {a : ℕ} {b : Block} (ha : 4 ≤ a)
    (hb : b.tag < 2 ^ 32) : Tagged (writeTags m a b) a [b] := by
  have h8 := b.eight_le
  refine ⟨?_, word_putWord_self hb, trivial⟩
  rw [writeTags, word_putWord_of_disjoint (by omega), word_putWord_self hb]

end SystemSoftware.BoundaryTags
