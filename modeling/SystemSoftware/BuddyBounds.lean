import SystemSoftware.BuddyRuns

/-!
Which entries of `free_area_area` an allocation uses. `mm_malloc` is run with a
log of the orders at which `area` is followed, kept also when the call does not
return; without the log it is the call of the model. The table ends at order 15,
but `memsize_to_order` goes up to order 16.
-/
namespace SystemSoftware.BuddyBounds

open ByteMemory BuddyPages BuddyRuns Transitions

/-- What a call returns, if it returns, and the orders whose areas it has used. -/
structure Logged (α : Type) where
  result : Option α
  used : List ℕ

instance : Monad Logged where
  pure a := ⟨some a, []⟩
  bind x f := match x.result with
    | none => ⟨none, x.used⟩
    | some a => ⟨(f a).result, x.used ++ (f a).used⟩

def useArea (order : ℕ) : Logged Unit := ⟨some (), [order]⟩

def known {α : Type} (o : Option α) : Logged α := ⟨o, []⟩

def expandLogged (s : Pages) (page pageN lowOrder : ℕ) : ℕ → Logged (Pages × ℕ)
  | 0 => return (s, page)
  | n + 1 => do
    let highOrder := lowOrder + n
    let size := 1 <<< highOrder
    useArea highOrder
    let s ← known (listAdd s (← known (freeList highOrder)) (.page page))
    useArea highOrder
    let s ← known (markUsed s pageN highOrder)
    expandLogged s (page + size) (pageN + size) lowOrder n

def allocFromLogged (s : Pages) (order currOrder : ℕ) : Logged (Option (Pages × ℕ)) := do
  useArea currOrder
  let head ← known (freeList currOrder)
  let curr ← known (s.links.next head)
  if head ≠ curr then
    match curr with
    | .area _ => known none
    | .page page => do
      let s ← known (listDel s curr)
      let pageN := getPageN s (physicalAddr s page)
      let s ← if currOrder ≠ maxOrder - 1 then do
          useArea currOrder
          known (markUsed s pageN currOrder)
        else pure s
      let s := { s with freePhyPageN := sub32 s.freePhyPageN (1 <<< order) }
      let (s, page) ← expandLogged s page pageN order (currOrder - order)
      let s := { s with
        order := Function.update s.order page order
        freePhyPageN := sub32 s.freePhyPageN (1 <<< order) }
      return some (s, physicalAddr s page)
  else return none

def allocLoopLogged (s : Pages) (order : ℕ) : ℕ → ℕ → Logged (Pages × ℕ)
  | 0, _ => return (s, null)
  | rounds + 1, currOrder => do
    match ← allocFromLogged s order currOrder with
    | some r => return r
    | none => allocLoopLogged s order rounds (currOrder + 1)

def allocPagesLogged (s : Pages) : Option ℕ → Logged (Pages × ℕ)
  | none => return (s, null)
  | some order => allocLoopLogged s order (max 1 (maxOrder - order)) order

def mmMallocLogged (s : Pages) (size : ℕ) : Logged (Pages × ℕ) :=
  allocPagesLogged s (memsizeToOrder size)

def areasUsed (s : Pages) (size : ℕ) : List ℕ := (mmMallocLogged s size).used

/-- The result is `o`, and all orders used are of `P`. -/
structure Follows {α : Type} (x : Logged α) (o : Option α) (P : ℕ → Prop) : Prop where
  result : x.result = o
  used : ∀ k ∈ x.used, P k

namespace Follows

variable {α β : Type} {P : ℕ → Prop} {x : Logged α} {o : Option α}

theorem known (o : Option α) : Follows (known o) o P :=
  ⟨rfl, fun _ hk => absurd hk List.not_mem_nil⟩

theorem pure (a : α) : Follows (pure a) (some a) P := known (some a)

theorem bind {f : α → Logged β} {g : α → Option β} (hx : Follows x o P)
    (hf : ∀ a, Follows (f a) (g a) P) : Follows (x >>= f) (o >>= g) P := by
  obtain ⟨r, used⟩ := x
  obtain rfl : r = o := hx.result
  cases r with
  | none => exact ⟨rfl, hx.used⟩
  | some a => exact ⟨(hf a).result, fun k hk =>
      (List.mem_append.mp hk).elim (hx.used k) ((hf a).used k)⟩

/-- An area of `P` may be used before anything else. -/
theorem using_area {f : Unit → Logged α} {k : ℕ} (hk : P k) (hf : Follows (f ()) o P) :
    Follows (useArea k >>= f) o P :=
  ⟨hf.result, fun _ hj => (List.mem_cons.mp hj).elim (fun heq => heq ▸ hk) (hf.used _)⟩

end Follows

section Calls

variable {P : ℕ → Prop}

theorem expandLogged_follows (lowOrder n : ℕ) : ∀ s page pageN,
    (∀ k, lowOrder ≤ k → k < lowOrder + n → P k) →
    Follows (expandLogged s page pageN lowOrder n) (expand s page pageN lowOrder n) P := by
  induction n with
  | zero => exact fun s page pageN _ => .pure _
  | succ n ih =>
    intro s page pageN hP
    have huse : P (lowOrder + n) := hP _ (by omega) (by omega)
    rw [expandLogged, expand]
    refine .using_area huse (.bind (.known _) fun head => .bind (.known _) fun s₁ =>
      .using_area huse (.bind (.known _) fun s₂ => ih s₂ _ _ fun k hlo hhi => ?_))
    exact hP k hlo (by omega)

/-- A block of `currOrder` is cut up with the areas below it. -/
theorem allocFromLogged_follows (s : Pages) {order currOrder : ℕ} (hle : order ≤ currOrder)
    (hP : ∀ k ≤ currOrder, P k) :
    Follows (allocFromLogged s order currOrder) (allocFrom s order currOrder) P := by
  have huse : P currOrder := hP currOrder le_rfl
  have hcut : ∀ s page pageN, Follows (expandLogged s page pageN order (currOrder - order))
      (expand s page pageN order (currOrder - order)) P := fun s page pageN =>
    expandLogged_follows order _ s page pageN fun k _ hk => hP k (by omega)
  unfold allocFromLogged allocFrom
  refine .using_area huse (.bind (.known _) fun head => .bind (.known _) fun curr => ?_)
  split
  · cases curr with
    | area k => exact .known none
    | page page =>
      refine .bind (.known _) fun s₁ => ?_
      by_cases htop : currOrder ≠ maxOrder - 1
      · simp only [if_pos htop]
        exact .using_area huse (.bind (.known _) fun s₂ => .bind (hcut _ _ _) fun r => .pure _)
      · simp only [if_neg htop]
        exact .bind (.pure s₁) fun s₂ => .bind (hcut _ _ _) fun r => .pure _
  · exact .pure none

theorem allocLoopLogged_follows (s : Pages) (order rounds : ℕ) : ∀ currOrder, order ≤ currOrder →
    (∀ k, k < currOrder + rounds → P k) →
    Follows (allocLoopLogged s order rounds currOrder) (allocLoop s order rounds currOrder) P := by
  induction rounds with
  | zero => exact fun _ _ _ => .pure _
  | succ rounds ih =>
    intro currOrder hle hP
    rw [allocLoopLogged, allocLoop]
    refine .bind (allocFromLogged_follows s hle fun k hk => hP k (by omega)) fun r => ?_
    cases r with
    | some r => exact .pure r
    | none => exact ih (currOrder + 1) (by omega) fun k hk => hP k (by omega)

end Calls

theorem used_subset {α β : Type} (x : Logged α) (f : α → Logged β) :
    x.used ⊆ (x >>= f).used := by
  obtain ⟨r, used⟩ := x
  cases r with
  | none => exact fun _ hk => hk
  | some a => exact List.subset_append_left ..

/-- A round looks at its area first. -/
theorem first_area (s : Pages) (order currOrder : ℕ) :
    currOrder ∈ (allocFromLogged s order currOrder).used :=
  List.mem_cons_self ..

/-- The order of a size: below 16 for the sizes that a block holds, 16 up to twice the
largest block, and none above. -/
theorem memsizeToOrder_cases (size : ℕ) :
    (size ≤ 2 ^ 23 ∧ ∃ order < maxOrder, memsizeToOrder size = some order) ∨
    (2 ^ 23 < size ∧ size ≤ 2 ^ 24 ∧ memsizeToOrder size = some maxOrder) ∨
    (2 ^ 24 < size ∧ memsizeToOrder size = none) := by
  have hsmaller : ∀ {i j}, i ≤ j → pageSize <<< i ≤ pageSize <<< j := by
    intro i j hij
    rw [Nat.shiftLeft_eq, Nat.shiftLeft_eq]
    exact Nat.mul_le_mul_left _ (Nat.pow_le_pow_right (by norm_num) hij)
  have h15 : pageSize <<< 15 = 2 ^ 23 := rfl
  have h16 : pageSize <<< maxOrder = 2 ^ 24 := rfl
  rcases Nat.lt_or_ge (2 ^ 23) size with hlo | hle
  · refine Or.inr ((Nat.lt_or_ge (2 ^ 24) size).symm.imp (fun hhi => ⟨hlo, hhi, ?_⟩)
      fun hlt => ⟨hlt, ?_⟩)
    · rw [memsizeToOrder, List.find?_range_eq_some]
      refine ⟨decide_eq_true (h16 ▸ hhi), List.mem_range.mpr (Nat.lt_succ_self _), ?_⟩
      intro j hj
      have hj' := hsmaller (Nat.le_of_lt_succ hj)
      rw [Bool.not_eq_true', decide_eq_false_iff_not]
      omega
    · rw [memsizeToOrder, List.find?_eq_none]
      intro j hj
      have hj' := hsmaller (Nat.le_of_lt_succ (List.mem_range.mp hj))
      rw [decide_eq_true_eq]
      omega
  · obtain ⟨order, horder, hlt⟩ := BuddyPieces.memsizeToOrder_spec hle
    exact Or.inl ⟨hle, order, hlt, horder⟩

/-- `mm_malloc(size)` uses no area outside the table, and above the largest block it
returns NULL and changes nothing. -/
def InBounds (s : Pages) (size : ℕ) : Prop :=
  (∀ k ∈ areasUsed s size, k < maxOrder) ∧ (2 ^ 23 < size → mmMalloc s size = some (s, null))

/-- An allocation stays in bounds unless its size lies between the largest block and
twice the largest block. -/
theorem in_bounds_iff (s : Pages) (size : ℕ) :
    InBounds s size ↔ size ≤ 2 ^ 23 ∨ 2 ^ 24 < size := by
  rcases memsizeToOrder_cases size with
    ⟨hle, order, hlt, horder⟩ | ⟨hlo, hhi, horder⟩ | ⟨hlt, horder⟩
  · have hrounds : max 1 (maxOrder - order) = maxOrder - order := Nat.max_eq_right (by omega)
    have h : Follows (mmMallocLogged s size) (mmMalloc s size) (· < maxOrder) := by
      rw [mmMallocLogged, mmMalloc, horder, allocPagesLogged, allocPages, hrounds]
      exact allocLoopLogged_follows s order _ order le_rfl fun k hk => by omega
    exact iff_of_true ⟨h.used, fun hlt' => by omega⟩ (Or.inl hle)
  · -- The do-while loop looks at the area behind the table before it compares.
    refine iff_of_false (fun hin => ?_) (by omega)
    have hmem : maxOrder ∈ areasUsed s size := by
      rw [areasUsed, mmMallocLogged, horder]
      exact used_subset _ _ (first_area s maxOrder maxOrder)
    exact Nat.lt_irrefl _ (hin.1 _ hmem)
  · have h : areasUsed s size = [] := by
      rw [areasUsed, mmMallocLogged, horder]
      rfl
    refine iff_of_true ⟨?_, fun _ => ?_⟩ (Or.inr hlt)
    · rw [h]
      exact fun k hk => absurd hk List.not_mem_nil
    · rw [mmMalloc, horder, allocPages]

/-- From the first state on, one byte more than the largest block leads to the area behind
the table, and then to the list head of an area taken for that of a page. -/
theorem out_of_bounds : ∃ c, runs.Reachable c ∧ areasUsed c.pages (2 ^ 23 + 1) = [16] ∧
    mmMalloc c.pages (2 ^ 23 + 1) = none ∧ ¬ InBounds c.pages (2 ^ 23 + 1) := by
  have hused : areasUsed startedClient.pages (2 ^ 23 + 1) = [16] := by decide
  refine ⟨startedClient, .initial startedClient_started, hused, by decide, fun hin => ?_⟩
  exact absurd (hin.1 16 (hused ▸ List.mem_singleton_self 16)) (by decide)

end SystemSoftware.BuddyBounds
