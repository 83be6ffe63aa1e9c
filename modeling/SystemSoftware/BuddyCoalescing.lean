import SystemSoftware.BuddyRuns

/-!
Where the merging of `mm_free` ends. In runs whose frees follow bits that are set
for a free buddy only, and stop below order 15, the merged block is put on the
list of its order, and the next allocation of that order returns it. The first
free of the only live page merges past order 15 instead.
-/
namespace SystemSoftware.BuddyCoalescing

open ByteMemory BinaryBlocks BuddyPages BuddyBitmap BuddyLists BuddyPieces BuddyMerge BuddyShape
open BuddyRuns Transitions

/-- Wherever the merging of the freed block finds its bit set the buddy is on its
list, and it finds a clear bit at some order below 15. -/
def TrueFree (c : Client) : Call → Prop
  | .malloc _ => True
  | .free p => (mergeEnd (freePages c.pages) (15 - (blockAt c.pages p).2) (blockAt c.pages p).2
      (blockAt c.pages p).1).isSome = true

/-- Freeing `p` merges up to order 15 at most and returns, with the block that holds
the freed one on the list of its order, so that the next allocation of that order
returns it. -/
def MergesInside (s : Pages) (p : ℕ) : Prop :=
  ∃ s₁ k n s', mergeLoop s (maxOrder - (blockAt s p).2) (blockAt s p).2 (blockAt s p).1
      ((blockAt s p).1 >>> (1 + (blockAt s p).2)) = some (s₁, k, n) ∧ k ≤ 15 ∧
    mmFree s p = some s' ∧ n ∈ freePages s' k ∧
    n ≤ (blockAt s p).1 ∧ (blockAt s p).1 + 2 ^ (blockAt s p).2 ≤ n + 2 ^ k ∧
    ∀ size, memsizeToOrder size = some k → ∃ s'', mmMalloc s' size = some (s'', physicalAddr s' n)

section Steps

variable {s : Pages} {F : ℕ → List ℕ} {live : List ℕ} {p : ℕ}

/-- The first block on the list of an order is what the next allocation of it returns. -/
theorem malloc_first {R : Memory → (ℕ → List ℕ) → Prop} {O : List Block} {r : List ℕ} {k n size : ℕ}
    (hR : Rider R) (hs : Pieces R s F O) (hk : k < maxOrder) (hF : F k = n :: r)
    (hsize : memsizeToOrder size = some k) :
    ∃ s', mmMalloc s size = some (s', physicalAddr s n) := by
  rw [mmMalloc_eq hsize hk]
  rcases allocLoop_spec hR hs (maxOrder - k) k le_rfl (by omega) with
    ⟨-, hall⟩ | ⟨k', p, r', s', F', q, heq, hle, -, hall, hp, hout⟩
  · have hnil := hall k le_rfl hk
    rw [hF] at hnil
    cases hnil
  · obtain rfl : k = k' := by
      by_contra hne
      have hnil := hall k le_rfl (by omega)
      rw [hF] at hnil
      cases hnil
    rw [hF] at hp
    obtain ⟨rfl, -⟩ := List.cons.inj hp
    have hlo := hout.lower
    have hhi := hout.upper
    obtain rfl : q = n := by omega
    exact ⟨s', heq⟩

theorem mergeEnd_lists (hc : Holds Bits ⟨s, live⟩ F) (hp : p ∈ live) :
    mergeEnd (freePages s) (15 - (blockAt s p).2) (blockAt s p).2 (blockAt s p).1 =
      mergeEnd F (15 - (blockAt s p).2) (blockAt s p).2 (blockAt s p).1 :=
  mergeEnd_congr _ _ _ (freePages_lists hc.pieces (Nat.le_of_lt_succ (hc.order_lt p hp)))

theorem mergesInside_of_true (hc : Holds Bits ⟨s, live⟩ F) (hp : p ∈ live)
    (htrue : TrueFree ⟨s, live⟩ (.free p)) : MergesInside s p := by
  obtain ⟨b, hend⟩ := Option.isSome_iff_exists.mp htrue
  rw [mergeEnd_lists hc hp] at hend
  have hlt : (blockAt s p).2 ≤ 15 := Nat.le_of_lt_succ (hc.order_lt p hp)
  obtain ⟨s₁, F₁, hloop, -⟩ := mergeLoop_spec (15 - (blockAt s p).2) s F _ _
    (Nat.add_sub_of_le hlt) (hc.take_live hp) hend
  obtain ⟨s', F', hcall, hc', hf, -⟩ := free_holds hc hp hend
  have hrounds : maxOrder - (blockAt s p).2 = 15 - (blockAt s p).2 + 1 := by
    change 16 - _ = _
    omega
  have hb : b.2 < maxOrder := Nat.lt_trans hf.order_lt (by decide)
  refine ⟨s₁, b.2, b.1, s', hrounds ▸ hloop, Nat.le_of_lt hf.order_lt, hcall, ?_, hf.lower,
    hf.upper, fun size hsize => malloc_first rider_bits hc'.pieces hb hf.first hsize⟩
  rw [freePages_eq hc'.pieces hb, hf.first]
  exact List.mem_cons_self ..

end Steps

theorem holds_started {c : Client} (hc : Started c) : Holds Bits c initialLists :=
  (consistent_started hc).holds

theorem holds_step {c c' : Client} {a : Call} (hc : ∃ F, Holds Bits c F)
    (hstep : Step c a c') (htrue : TrueFree c a) : ∃ F, Holds Bits c' F := by
  obtain ⟨F, hc⟩ := hc
  cases a with
  | malloc size => exact holds_malloc_step rider_bits hc hstep
  | free p =>
    cases hstep with
    | free hp hcall =>
      obtain ⟨b, hend⟩ := Option.isSome_iff_exists.mp htrue
      rw [mergeEnd_lists hc hp] at hend
      obtain ⟨s', F', heq, hc', -⟩ := free_holds hc hp hend
      rw [heq, Option.some.injEq] at hcall
      exact ⟨F', hcall ▸ hc'⟩

theorem reachable_holds {c : Client} (hc : (runs.guarded TrueFree).Reachable c) :
    ∃ F, Holds Bits c F := by
  apply hc.invariant
  · intro s hs
    exact ⟨_, holds_started hs⟩
  · intro s a s' hs hstep
    exact holds_step hs hstep.1 hstep.2

/-- In a run whose frees all merge by true bits, the free lists are circular lists
and every such free merges inside the order table. -/
theorem merges_inside {c : Client} (hc : (runs.guarded TrueFree).Reachable c) :
    (∀ k < maxOrder, nodesOf c.pages k = some ((freePages c.pages k).map .page)) ∧
      ∀ p ∈ c.live, TrueFree c (.free p) → MergesInside c.pages p := by
  obtain ⟨F, hF⟩ := reachable_holds hc
  refine ⟨fun k hk => ?_, fun p hp htrue => mergesInside_of_true hF hp htrue⟩
  rw [freePages_eq hF.pieces hk]
  exact nodesOf_eq hF.pieces hk

/-- Of two pages allocated one after the other the second is freed while its buddy is in use. -/
theorem merges_inside_once : MergesInside ((startedClient.malloc 1).malloc 1).pages 17837768 := by
  have hone : 1 ≤ 2 ^ 23 := by norm_num
  have hc : (runs.guarded TrueFree).Reachable ((startedClient.malloc 1).malloc 1) :=
    reachable_malloc (reachable_malloc startedClient_reachable hone trivial) hone trivial
  have htrue : TrueFree ((startedClient.malloc 1).malloc 1) (.free 17837768) := by
    change (mergeEnd _ _ _ _).isSome = true
    decide
  exact (merges_inside hc).2 _ (by decide) htrue

/-- The free of the only live page merges to order 16, and no list holds the page then. -/
theorem merges_beyond : ∃ c, runs.Reachable c ∧ 17838024 ∈ c.live ∧
    (mergeLoop c.pages 16 0 65535 (65535 >>> 1)).map Prod.snd = some (16, 0) ∧
    ¬ MergesInside c.pages 17838024 := by
  have hc : runs.Reachable (startedClient.malloc 1) :=
    (reachable_malloc (G := TrueFree) startedClient_reachable (by norm_num) trivial).of_guarded
  have hblock : blockAt (startedClient.malloc 1).pages 17838024 = (65535, 0) := by decide
  have hloop : (mergeLoop (startedClient.malloc 1).pages 16 0 65535 (65535 >>> 1)).map Prod.snd =
      some (16, 0) := by decide +kernel
  refine ⟨_, hc, by decide, hloop, ?_⟩
  rintro ⟨s₁, k, n, s', hmerge, hk, -⟩
  rw [hblock] at hmerge
  have hmerge' : mergeLoop (startedClient.malloc 1).pages 16 0 65535 (65535 >>> 1) =
      some (s₁, k, n) := hmerge
  rw [hmerge', Option.map_some, Option.some.injEq, Prod.mk.injEq] at hloop
  omega

end SystemSoftware.BuddyCoalescing
