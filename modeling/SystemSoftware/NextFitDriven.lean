import SystemSoftware.NextFitRuns
import SystemSoftware.TraceContract

/-!
The driver over the next-fit allocator: mdriver.c linked with mm.c and memlib.c. The
allocator is a package below which the heap never shrinks and stays inside MAX_HEAP
bytes, and it keeps the contract of malloc and free. So the driver accepts it on every
trace without reallocations, or stops because the heap cannot grow.
-/
namespace SystemSoftware.NextFitDriven

open ByteMemory BoundaryTags NextFitHeap NextFitBlocks NextFitAllocate NextFitRuns
open EarlyExit Intervals TracePayloads TraceDemand TraceContract
open TraceDriver hiding null

abbrev maxHeap : ℕ := 20 * 2 ^ 20

def package : Package Heap where
  memResetBrk h := { h with memBrk := h.memStartBrk }
  memHeapLo h := h.memStartBrk
  memHeapHi h := h.memBrk - 1
  memHeapsize h := h.memBrk - h.memStartBrk
  mmInit := mmInit
  mmMalloc := mmMalloc
  mmRealloc := mmRealloc
  mmFree := mmFree
  load h p := h.mem p
  store h p v := { h with mem := putByte h.mem p v }

/-- The memory system is the same one and the heap has not been cut. -/
structure SameSystem (h h' : Heap) : Prop where
  base : h'.memStartBrk = h.memStartBrk
  max : h'.memMaxAddr = h.memMaxAddr
  brk : h.memBrk ≤ h'.memBrk
  limit : h.memBrk ≤ h.memMaxAddr → h'.memBrk ≤ h'.memMaxAddr
  aligned : 8 ∣ h.memBrk → 8 ∣ h'.memBrk

structure Ready (h : Heap) : Prop where
  base_dvd : 8 ∣ h.memStartBrk
  base_pos : 0 < h.memStartBrk
  base_le : h.memStartBrk ≤ h.memBrk
  brk_le : h.memBrk ≤ h.memMaxAddr
  max_lt : h.memMaxAddr < 2 ^ 32
  max_le : h.memMaxAddr ≤ h.memStartBrk + maxHeap

/-- A heap in use: it ends at a double word. -/
structure Used (h : Heap) : Prop extends Ready h where
  brk_dvd : 8 ∣ h.memBrk

theorem SameSystem.refl (h : Heap) : SameSystem h h := ⟨rfl, rfl, le_rfl, id, id⟩

theorem SameSystem.trans {h₁ h₂ h₃ : Heap} (h₁₂ : SameSystem h₁ h₂) (h₂₃ : SameSystem h₂ h₃) :
    SameSystem h₁ h₃ :=
  ⟨h₂₃.base.trans h₁₂.base, h₂₃.max.trans h₁₂.max, h₁₂.brk.trans h₂₃.brk,
    fun h => h₂₃.limit (h₁₂.limit h), fun h => h₂₃.aligned (h₁₂.aligned h)⟩

theorem SameSystem.ready {h h' : Heap} (hs : SameSystem h h') (hr : Ready h) : Ready h' where
  base_dvd := hs.base ▸ hr.base_dvd
  base_pos := hs.base ▸ hr.base_pos
  base_le := hs.base.le.trans (hr.base_le.trans hs.brk)
  brk_le := hs.limit hr.brk_le
  max_lt := hs.max ▸ hr.max_lt
  max_le := by
    rw [hs.max, hs.base]
    exact hr.max_le

theorem SameSystem.used {h h' : Heap} (hs : SameSystem h h') (hu : Used h) : Used h' :=
  ⟨hs.ready hu.toReady, hs.aligned hu.brk_dvd⟩

theorem SameSystem.grown {h h' : Heap} (hs : SameSystem h h') : Grown package h h' :=
  ⟨hs.base, Nat.sub_le_sub_right hs.brk 1⟩

/-- Wherever the computation has a result, the heap in it belongs to the same system. -/
def Stays {β : Type} (π : β → Heap) (h : Heap) (o : Option β) : Prop :=
  ∀ b, o = some b → SameSystem h (π b)

namespace Stays

variable {α β : Type} {π : β → Heap} {h : Heap}

theorem some {b : β} (hb : SameSystem h (π b)) : Stays π h (some b) := by
  rintro _ ⟨⟩
  exact hb

theorem bind {ρ : α → Heap} {x : Option α} {f : α → Option β} (hx : Stays ρ h x)
    (hf : ∀ a, SameSystem h (ρ a) → Stays π h (f a)) : Stays π h (x.bind f) := by
  intro b hb
  obtain ⟨a, ha, hab⟩ := Option.bind_eq_some_iff.mp hb
  exact hf a (hx a ha) b hab

/-- What is read does not matter. -/
theorem read {x : Option α} {f : α → Option β} (hf : ∀ a, Stays π h (f a)) :
    Stays π h (x.bind f) := by
  intro b hb
  obtain ⟨a, -, hab⟩ := Option.bind_eq_some_iff.mp hb
  exact hf a b hab

theorem put {g : Heap} (hg : SameSystem h g) (p v : ℕ) : Stays id h (g.put p v) := by
  intro b hb
  rw [Heap.put] at hb
  split at hb
  · obtain rfl := Option.some.inj hb
    exact hg.trans ⟨rfl, rfl, le_rfl, id, id⟩
  · cases hb

end Stays

section Functions

variable {h g : Heap}

theorem memSbrk_same {n : ℕ} (hn : 8 ∣ n) (hw : ¬ Wraps h n) : SameSystem h (memSbrk h n).1 := by
  rw [memSbrk]
  split
  · exact SameSystem.refl h
  · next hno =>
    rw [← Refuses, refuses_iff hw, not_or] at hno
    have hsum : add32 h.memBrk n = h.memBrk + n := add32_eq (by
      by_contra hge
      exact hw ⟨not_le.mp hno.1, not_lt.mp hge⟩)
    simp only [hsum]
    exact ⟨rfl, rfl, Nat.le_add_right _ _, fun _ => not_lt.mp hno.2, fun h8 => Nat.dvd_add h8 hn⟩

/-- Where the sum wraps, `mem_sbrk` returns the old break and has moved it down. -/
theorem memSbrk_wrapped {n : ℕ} (hu : Used h) (hw : Wraps h n) :
    memSbrk h n = ({ h with memBrk := add32 h.memBrk n }, h.memBrk) ∧ h.memBrk ≠ minusOne := by
  have hno := not_refuses_of_wraps hu.brk_le hu.max_lt hw
  have hdvd := hu.brk_dvd
  rw [Refuses] at hno
  refine ⟨by rw [memSbrk, if_neg hno], ?_⟩
  simp only [minusOne]
  omega

theorem coalesce_stays (hg : SameSystem h g) (bp : ℕ) : Stays Prod.fst h (coalesce g bp) := by
  have hlast : ∀ {g' : Heap}, SameSystem h g' → ∀ q, Stays Prod.fst h
      (some ({ g' with lastBp := q }, q) : Option (Heap × ℕ)) :=
    fun hg' q => .some (hg'.trans ⟨rfl, rfl, le_rfl, id, id⟩)
  unfold coalesce
  refine .read fun _ => .read fun _ => .read fun _ => ?_
  refine .read fun _ => .read fun _ => .read fun _ => ?_
  split
  · exact hlast hg _
  split
  · refine .read fun _ => .read fun _ => (Stays.put hg _ _).bind fun g₁ hg₁ => .read fun _ => ?_
    exact (Stays.put hg₁ _ _).bind fun g₂ hg₂ => hlast hg₂ _
  split
  · refine .read fun _ => .read fun _ => .read fun _ => ?_
    refine (Stays.put hg _ _).bind fun g₁ hg₁ => .read fun _ => ?_
    exact (Stays.put hg₁ _ _).bind fun g₂ hg₂ => .read fun _ => hlast hg₂ _
  · refine .read fun _ => .read fun _ => .read fun _ => .read fun _ => .read fun _ => ?_
    refine (Stays.put hg _ _).bind fun g₁ hg₁ => .read fun _ => .read fun _ => ?_
    exact (Stays.put hg₁ _ _).bind fun g₂ hg₂ => .read fun _ => hlast hg₂ _

theorem extendHeap_stays (hu : Used h) (hg : SameSystem h g) (words : ℕ) :
    Stays Prod.fst h (extendHeap g words) := by
  simp only [extendHeap, Option.bind_eq_bind]
  have hsize : 8 ∣ (if words % 2 ≠ 0 then (words + 1) <<< 2 else words <<< 2) % 2 ^ 32 := by
    split <;> simp only [Nat.shiftLeft_eq] <;> omega
  generalize (if words % 2 ≠ 0 then (words + 1) <<< 2 else words <<< 2) % 2 ^ 32 = size at hsize ⊢
  have hug := hg.used hu
  by_cases hw : Wraps g size
  · obtain ⟨heq, hne⟩ := memSbrk_wrapped hug hw
    have hlt := hug.brk_le.trans_lt hug.max_lt
    have hover := hw.2
    have h31 := hw.1
    have hput : Heap.put { g with memBrk := add32 g.memBrk size } (headerP g.memBrk)
        (pack size 0) = none := by
      refine put_wrapped hlt hw rfl ?_
      rw [headerP_eq (by omega) hlt]
      omega
    simp only [heq, if_neg hne, hput, Option.bind_none]
    rintro _ ⟨⟩
  have hsbrk := hg.trans (memSbrk_same hsize hw)
  split
  · exact .some hsbrk
  · refine (Stays.put hsbrk _ _).bind fun g₁ hg₁ => .read fun _ => ?_
    refine (Stays.put hg₁ _ _).bind fun g₂ hg₂ => .read fun _ => ?_
    exact (Stays.put hg₂ _ _).bind fun g₃ hg₃ => coalesce_stays hg₃ _

theorem mmInit_stays (hu : Used h) (hg : SameSystem h g) : Stays Prod.fst h (mmInit g) := by
  simp only [mmInit, Option.bind_eq_bind]
  have hug := hg.used hu
  have hsixteen : 8 ∣ wsize <<< 2 := by decide
  by_cases hw : Wraps g (wsize <<< 2)
  · obtain ⟨heq, hne⟩ := memSbrk_wrapped hug hw
    have hput : Heap.put { g with memBrk := add32 g.memBrk (wsize <<< 2), startBp := g.memBrk }
        g.memBrk 0 = none :=
      put_wrapped (hug.brk_le.trans_lt hug.max_lt) hw rfl (Nat.le_add_right _ _)
    simp only [heq, if_neg hne, hput, Option.bind_none]
    rintro _ ⟨⟩
  have hstart : ∀ {g' : Heap}, SameSystem h g' → ∀ q, SameSystem h { g' with startBp := q } :=
    fun hg' q => hg'.trans ⟨rfl, rfl, le_rfl, id, id⟩
  have hsbrk := hstart (hg.trans (memSbrk_same hsixteen hw)) (memSbrk g (wsize <<< 2)).2
  split
  · exact .some hsbrk
  · refine (Stays.put hsbrk _ _).bind fun g₁ hg₁ => ?_
    refine (Stays.put hg₁ _ _).bind fun g₂ hg₂ => (Stays.put hg₂ _ _).bind fun g₃ hg₃ => ?_
    refine (Stays.put hg₃ _ _).bind fun g₄ hg₄ => ?_
    refine (extendHeap_stays hu (hstart hg₄ _) _).bind fun r hr => ?_
    split
    · exact .some hr
    · exact .some (hr.trans ⟨rfl, rfl, le_rfl, id, id⟩)

theorem mark_stays (hg : SameSystem h g) (bp adjSize : ℕ) : Stays id h (mark g bp adjSize) := by
  simp only [mark, Option.bind_eq_bind]
  refine .read fun _ => ?_
  split
  · refine (Stays.put hg _ _).bind fun g₁ hg₁ => .read fun _ => ?_
    refine (Stays.put hg₁ _ _).bind fun g₂ hg₂ => .read fun _ => ?_
    exact (Stays.put hg₂ _ _).bind fun g₃ hg₃ => .read fun _ => Stays.put hg₃ _ _
  · exact (Stays.put hg _ _).bind fun g₁ hg₁ => .read fun _ => Stays.put hg₁ _ _

theorem nextFit_stays (hg : SameSystem h g) (adjSize : ℕ) :
    Stays Prod.fst h (nextFit g adjSize) := by
  simp only [nextFit, Option.bind_eq_bind]
  refine .read fun found => ?_
  have hlast : ∀ q, Stays Prod.fst h (some ({ g with lastBp := q }, q) : Option (Heap × ℕ)) :=
    fun q => .some (hg.trans ⟨rfl, rfl, le_rfl, id, id⟩)
  cases found with
  | some q => exact hlast q
  | none =>
    refine .read fun found => ?_
    cases found with
    | some q => exact hlast q
    | none => exact .some hg

theorem mmMalloc_stays (hu : Used h) (hg : SameSystem h g) (size : ℕ) :
    Stays Prod.fst h (mmMalloc g size) := by
  have hlast : ∀ {g' : Heap}, SameSystem h g' → ∀ q, Stays Prod.fst h
      (some ({ g' with lastBp := q }, q) : Option (Heap × ℕ)) :=
    fun hg' q => .some (hg'.trans ⟨rfl, rfl, le_rfl, id, id⟩)
  simp only [mmMalloc, Option.bind_eq_bind]
  split
  · exact .some hg
  · refine (nextFit_stays hg _).bind fun r hr => ?_
    split
    · exact (mark_stays hr _ _).bind fun g₁ hg₁ => hlast hg₁ _
    · refine (extendHeap_stays hu hr _).bind fun x hx => ?_
      split
      · exact .some hx
      · exact (mark_stays hx _ _).bind fun g₁ hg₁ => hlast hg₁ _

theorem mmFree_stays (hg : SameSystem h g) (ptr : ℕ) : Stays id h (mmFree g ptr) := by
  simp only [mmFree, Option.bind_eq_bind]
  refine .read fun _ => (Stays.put hg _ _).bind fun g₁ hg₁ => .read fun _ => ?_
  refine (Stays.put hg₁ _ _).bind fun g₂ hg₂ => ?_
  exact (coalesce_stays hg₂ _).bind fun r hr => .some hr

theorem memcpy_stays (hg : SameSystem h g) (dst src n : ℕ) : Stays id h (memcpy g dst src n) := by
  intro b hb
  rw [memcpy] at hb
  split at hb
  · obtain rfl := Option.some.inj hb
    exact hg.trans ⟨rfl, rfl, le_rfl, id, id⟩
  · cases hb

theorem mmRealloc_stays (hu : Used h) (hg : SameSystem h g) (ptr size : ℕ) :
    Stays Prod.fst h (mmRealloc g ptr size) := by
  simp only [mmRealloc, Option.bind_eq_bind]
  refine .read fun _ => ?_
  split
  · exact .some hg
  · refine .read fun _ => .read fun _ => .read fun _ => .read fun _ => ?_
    split
    · refine (Stays.put hg _ _).bind fun g₁ hg₁ => .read fun _ => ?_
      exact (Stays.put hg₁ _ _).bind fun g₂ hg₂ => .some hg₂
    · refine (mmMalloc_stays hu hg _).bind fun r hr => (mark_stays hr _ _).bind fun g₁ hg₁ => ?_
      refine (memcpy_stays hg₁ _ _ _).bind fun g₂ hg₂ => ?_
      exact (mmFree_stays hg₂ _).bind fun g₃ hg₃ => .some hg₃

end Functions

theorem reset_used {h : Heap} (hr : Ready h) : Used (package.memResetBrk h) where
  base_dvd := hr.base_dvd
  base_pos := hr.base_pos
  base_le := le_rfl
  brk_le := hr.base_le.trans hr.brk_le
  max_lt := hr.max_lt
  max_le := hr.max_le
  brk_dvd := hr.base_dvd

theorem span_ready {h : Heap} (hr : Ready h) :
    package.memHeapHi h < 2 ^ 32 ∧ package.memHeapHi h < package.memHeapLo h + 2 ^ 31 := by
  have h₁ := hr.base_le
  have h₂ := hr.brk_le
  have h₃ := hr.max_lt
  have h₄ := hr.max_le
  have h₅ := hr.base_pos
  simp only [package, maxHeap] at *
  omega

/-- The heap below the allocator never shrinks and stays inside `MAX_HEAP` bytes. -/
theorem package_bounded : Bounded package Used where
  span hu := span_ready hu.toReady
  start hu hcall :=
    have hr := reset_used hu.toReady
    (mmInit_stays hr (SameSystem.refl _) _ hcall).used hr
  malloc hu hcall :=
    have hs := mmMalloc_stays hu (SameSystem.refl _) _ _ hcall
    ⟨hs.used hu, hs.grown⟩
  realloc hu hcall :=
    have hs := mmRealloc_stays hu (SameSystem.refl _) _ _ _ hcall
    ⟨hs.used hu, hs.grown⟩
  free hu hcall :=
    have hs := mmFree_stays (SameSystem.refl _) _ _ hcall
    ⟨hs.used hu, hs.grown⟩
  store {h} hu p v :=
    have hs : SameSystem h { h with mem := putByte h.mem p v } := ⟨rfl, rfl, le_rfl, id, id⟩
    ⟨hs.used hu, hs.grown⟩

def ReadyBelow (limit : ℕ) (h : Heap) : Prop := Ready h ∧ h.memMaxAddr = limit

def Serving (limit : ℕ) (h : Heap) (used : List (ℕ × ℕ)) : Prop :=
  ReadyBelow limit h ∧ ∃ l, Consistent h used l

section Serving

variable {limit p n : ℕ} {h h' : Heap} {used : List (ℕ × ℕ)}

theorem SameSystem.below (hs : SameSystem h h') (hr : ReadyBelow limit h) : ReadyBelow limit h' :=
  ⟨hs.ready hr.1, hs.max.trans hr.2⟩

theorem used_of_serving (hs : Serving limit h used) : Used h := by
  obtain ⟨⟨hr, -⟩, l, hc⟩ := hs
  exact ⟨hr, brk_dvd hc.wellFormed.toLaid⟩

theorem serving_malloc (hs : Serving limit h used) (hpos : 0 < n) (hn : n < 2 ^ 31)
    (hcall : mmMalloc h n = some (h', p)) :
    (p = null ∧ Serving limit h' used) ∨ (p ≠ null ∧ Serving limit h' ((p, n) :: used)) := by
  have hsame := mmMalloc_stays (used_of_serving hs) (SameSystem.refl h) n _ hcall
  obtain ⟨hr, l, hc⟩ := hs
  rcases mmMalloc_spec hc.wellFormed hpos (by omega) (not_overruns hc.wellFormed hpos hcall) with
    ⟨-, hno⟩ | ⟨h₁, l', q, M, heq, hq, ha, -, hroom⟩
  · obtain ⟨rfl, rfl⟩ := Prod.mk.inj (Option.some.inj (hno.symm.trans hcall))
    exact Or.inl ⟨rfl, hr, l, hc⟩
  · obtain ⟨rfl, rfl⟩ := Prod.mk.inj (Option.some.inj (heq.symm.trans hcall))
    exact Or.inr ⟨hq, hsame.below hr, l', consistent_malloc hc ha hroom⟩

theorem serving_free (hs : Serving limit h used) (hp : (p, n) ∈ used) :
    ∃ h', mmFree h p = some h' ∧ Serving limit h' (used.filter (·.1 ≠ p)) := by
  obtain ⟨hr, l, hc⟩ := hs
  obtain ⟨b, hb, -⟩ := hc.serves.block hp
  obtain ⟨h', l', heq, hf⟩ := mmFree_spec hc.wellFormed.toLaid hc.wellFormed.coalesced hb
  have hsame := mmFree_stays (SameSystem.refl h) p _ heq
  exact ⟨h', heq, hsame.below hr, l', consistent_free hc hf⟩

theorem reset_fresh (hr : Ready h) : Fresh (package.memResetBrk h) :=
  ⟨hr.base_dvd, rfl, (reset_used hr).brk_le, hr.max_lt⟩

theorem serving_init {r : Int} (hr : ReadyBelow limit h)
    (hcall : mmInit (package.memResetBrk h) = some (h', r)) : r < 0 ∨ Serving limit h' [] := by
  have hused := reset_used hr.1
  have hsame := mmInit_stays hused (SameSystem.refl _) _ hcall
  have hfresh := reset_fresh hr.1
  have hno : ¬ InitWraps (package.memResetBrk h) := fun hwrap => by
    rw [mmInit_wraps hfresh hwrap] at hcall
    cases hcall
  rcases mmInit_spec hfresh hno with ⟨h₁, heq⟩ | ⟨h₁, M, heq, hw, hM, -⟩
  · obtain ⟨-, rfl⟩ := Prod.mk.inj (Option.some.inj (heq.symm.trans hcall))
    exact Or.inl (by norm_num)
  · obtain ⟨rfl, rfl⟩ := Prod.mk.inj (Option.some.inj (heq.symm.trans hcall))
    have hnone : clientBlocks h₁ [M] = [] := liveBlocks_cons_free hM
    exact Or.inr ⟨hsame.below ⟨hused.toReady, hr.2⟩, [M], hw,
      ⟨by simp [hnone], by simp, by simp⟩, by simp⟩

/-- The next-fit allocator keeps the contract of malloc and free. -/
theorem package_contract (limit : ℕ) : Contract package (ReadyBelow limit) (Serving limit) where
  init hr hcall := serving_init hr hcall
  malloc hs hpos hn hcall :=
    ⟨(mmMalloc_stays (used_of_serving hs) (SameSystem.refl _) _ _ hcall).grown,
      serving_malloc hs hpos hn hcall⟩
  free hs hp := by
    obtain ⟨h', hcall, hend⟩ := serving_free hs hp
    exact ⟨h', hcall, (mmFree_stays (SameSystem.refl _) _ _ hcall).grown, hend⟩
  store {h used p n x} hs hp hlo hhi v := by
    obtain ⟨hr, l, hc⟩ := hs
    have hsame : SameSystem h { h with mem := putByte h.mem x v } := ⟨rfl, rfl, le_rfl, id, id⟩
    exact ⟨⟨hsame.below hr, l, consistent_write hc hp hlo hhi⟩, hsame.grown⟩
  apart := by
    rintro h used ⟨-, l, hc⟩
    refine (List.pairwise_map.mp hc.serves.nodup).imp_of_mem fun {x y} hx hy hne => ?_
    exact live_disjoint hc hx hy hne
  inside := by
    rintro h used ⟨⟨hr, -⟩, l, hc⟩ ⟨p, n⟩ hx
    obtain ⟨hdvd, hlo, hhi⟩ := live_inside hc hx
    have hpos := hr.base_pos
    have hle := hr.base_le
    refine ⟨hdvd, hlo, ?_⟩
    simp only [package]
    omega
  span hs := span_ready hs.1.1
  heapsize := by
    rintro h used ⟨⟨hr, -⟩, -⟩
    have hpos := hr.base_pos
    have hle := hr.base_le
    simp only [package]
    omega
  start hs := hs.1

def Below (limit size : ℕ) : Prop := limit + max (adjustedSize size) chunckSize < 2 ^ 32

theorem package_answers (hlimit : limit + chunckSize < 2 ^ 32) :
    Answers package (ReadyBelow limit) (Serving limit) (Below limit) where
  init {h} hr := by
    have hle : (package.memResetBrk h).memBrk ≤ limit := hr.2 ▸ (reset_used hr.1).brk_le
    have hmax : (package.memResetBrk h).memMaxAddr = limit := hr.2
    have hno : ¬ InitWraps (package.memResetBrk h) := by
      rw [InitWraps, hmax]
      simp only [chunckSize] at hlimit ⊢
      omega
    have hcall : ∃ r, mmInit (package.memResetBrk h) = some r := by
      rcases mmInit_spec (reset_fresh hr.1) hno with ⟨h', heq⟩ | ⟨h', M, heq, -⟩ <;> exact ⟨_, heq⟩
    exact Option.isSome_iff_exists.mpr hcall
  malloc {h used n} hs hpos hn hfits := by
    obtain ⟨⟨hr, hmax⟩, l, hc⟩ := hs
    have hle := hr.brk_le
    have hno : ¬ Overruns h n := fun hover => by
      have hsum := hover.2.2
      rw [Below] at hfits
      omega
    have hcall : ∃ r, mmMalloc h n = some r := by
      rcases mmMalloc_spec hc.wellFormed hpos (by omega) hno with
        ⟨-, heq⟩ | ⟨h', l', p, M, heq, -⟩ <;> exact ⟨_, heq⟩
    exact Option.isSome_iff_exists.mpr hcall

end Serving

section Verdicts

variable {numIds : ℕ} {ops : List TraceOp} {s : Eval Heap} {t : Util Heap}

/-- On every trace of a program without reallocations eval_mm_valid accepts the next-fit
allocator, unless the heap cannot grow: it never reports a block that is not aligned, lies
outside the heap or overlaps another one, and no call touches memory it must not. The
memory system and the sizes are such that no sum in `mem_sbrk` wraps. -/
theorem next_fit_valid (hr : Ready s.mm) (hops : Plain numIds ops)
    (hlimit : s.mm.memMaxAddr + chunckSize < 2 ^ 32)
    (hfits : ∀ op ∈ ops, Asks (Below s.mm.memMaxAddr) op) :
    (∃ t, evalMmValid package numIds ops s = some (.ok t)) ∨
      evalMmValid package numIds ops s = some (.error (.mallocError 0 .initFailed)) ∨
      ∃ pre i n post, ops = pre ++ .alloc i n :: post ∧ evalMmValid package numIds ops s =
        some (.error (.mallocError pre.length .mallocFailed)) := by
  rcases contract_valid (package_contract _) (package_answers hlimit) ⟨hr, rfl⟩ hops hfits with
    ⟨t, ht, -⟩ | hno
  · exact Or.inl ⟨t, ht⟩
  · exact Or.inr hno

/-- The utilization of the next-fit allocator on such a trace is the high-water mark of
the trace over a heap that is at least as large and at most `MAX_HEAP`: a fraction of at
most 1, whose numerator is far from the bounds of an int. -/
theorem next_fit_utilization (hr : Ready s.mm) (hops : Plain numIds ops)
    (hrun : evalMmUtil package numIds ops s = some (.ok t)) :
    t.maxTotalSize = highWater ops ∧ highWater ops ≤ package.memHeapsize t.mm ∧
      package.memHeapsize t.mm ≤ maxHeap := by
  obtain ⟨hle, hkept⟩ := contract_util (package_contract s.mm.memMaxAddr) ⟨hr, rfl⟩ hops hrun
  have hready : Ready t.mm := hkept.held.1.1
  have hbrk := hready.brk_le
  have hlimit := hready.max_le
  have hheap : package.memHeapsize t.mm ≤ maxHeap := by
    simp only [package]
    omega
  have hint : highWater ops < 2 ^ 31 := (hle.trans hheap).trans_lt (by norm_num)
  exact ⟨(util_counts (Plain.proper hops) hrun).1.mpr hint, hle, hheap⟩

end Verdicts

def freshEval : Eval Heap := ⟨freshHeap, [], fun _ => 0, fun _ => 0⟩

def shortTrace : List TraceOp := [.alloc 0 1, .alloc 1 20, .free 0, .alloc 0 8, .free 1]

def reallocTrace : List TraceOp := [.alloc 0 1, .realloc 0 8, .free 0]

theorem ready_freshHeap : Ready freshHeap := by
  constructor <;> decide

theorem used_freshHeap : Used freshHeap := ⟨ready_freshHeap, by decide⟩

theorem next_fit_valid_short :
    (∃ t, evalMmValid package 2 shortTrace freshEval = some (.ok t)) ∨
      evalMmValid package 2 shortTrace freshEval = some (.error (.mallocError 0 .initFailed)) ∨
      ∃ pre i n post, shortTrace = pre ++ .alloc i n :: post ∧
        evalMmValid package 2 shortTrace freshEval =
          some (.error (.mallocError pre.length .mallocFailed)) := by
  refine next_fit_valid ready_freshHeap (by decide) (by decide) fun op hop => ?_
  have hsizes : ∀ n ∈ [1, 20, 8], Below freshHeap.memMaxAddr n := by
    simp only [Below]
    decide
  simp only [shortTrace, List.mem_cons, List.not_mem_nil, or_false] at hop
  obtain rfl | rfl | rfl | rfl | rfl := hop
  · exact hsizes 1 (by simp)
  · exact hsizes 20 (by simp)
  · trivial
  · exact hsizes 8 (by simp)
  · trivial

theorem next_fit_utilization_short : ∃ t : Util Heap,
    t.maxTotalSize = highWater shortTrace ∧ highWater shortTrace ≤ package.memHeapsize t.mm ∧
      package.memHeapsize t.mm ≤ maxHeap := by
  obtain ⟨t, ht⟩ := exists_of_passed
    (show passed (evalMmUtil package 2 shortTrace freshEval) = true by decide)
  exact ⟨t, next_fit_utilization ready_freshHeap (by decide) ht⟩

theorem valid_payloads_short : ∃ m : Eval Heap,
    evalMmValid package 2 [.alloc 0 1, .alloc 1 20] freshEval = some (.ok m) ∧
      m.ranges = [range m 1, range m 0] ∧
      (∀ i ∈ [1, 0], 8 ∣ m.blocks i ∧
        Within (package.memHeapLo m.mm) (package.memHeapHi m.mm + 1) (payload m i)) ∧
      [1, 0].Pairwise fun i j =>
        Apart (payload m i) (payload m j) ∨ Encloses (payload m i) (payload m j) := by
  obtain ⟨t, ht⟩ := exists_of_passed
    (show passed (evalMmValid package 2 shortTrace freshEval) = true by decide)
  have hops : Proper 2 ([.alloc 0 1, .alloc 1 20] ++ [.free 0, .alloc 0 8, .free 1]) := by decide
  exact valid_payloads package_bounded used_freshHeap hops ht

theorem valid_reallocs_short : lowByte 0 < 128 ∧ ∃ (m : Eval Heap) (mm : Heap) (p : ℕ),
    evalMmValid package 1 [.alloc 0 1] freshEval = some (.ok m) ∧
      package.mmRealloc m.mm (m.blocks 0) 8 = some (mm, p) ∧ p ≠ null ∧
      ∀ j < min 8 (m.blockSizes 0), package.load mm (p + j) = UInt8.ofNat (lowByte 0) := by
  obtain ⟨t, ht⟩ := exists_of_passed
    (show passed (evalMmValid package 1 reallocTrace freshEval) = true by decide)
  have hops : Proper 1 ([.alloc 0 1] ++ .realloc 0 8 :: [.free 0]) := by decide
  exact valid_reallocs hops ht

theorem util_counts_short : ∃ t : Util Heap,
    t.totalSize = bytes (heldAfter reallocTrace) ∧ t.maxTotalSize = highWater reallocTrace := by
  obtain ⟨t, ht⟩ := exists_of_passed
    (show passed (evalMmUtil package 1 reallocTrace freshEval) = true by decide)
  obtain ⟨hmax, htotal⟩ := util_counts (by decide) ht
  have hfits : highWater reallocTrace < 2 ^ 31 := by decide
  exact ⟨t, htotal hfits, hmax.mpr hfits⟩

end SystemSoftware.NextFitDriven
