import SystemSoftware.BuddyBitmap

/-!
The free lists of the buddy allocator as lists of pages. `Rings` says that the
links spell out given lists, one an order, and each list operation of mm.c is one
operation on the lists.
-/
namespace SystemSoftware.BuddyLists

open ByteMemory LinkedRing BinaryBlocks BuddyPages BuddyBitmap

def freeBlocks (F : ℕ → List ℕ) : ℕ → List Block
  | 0 => []
  | n + 1 => freeBlocks F n ++ (F n).map (fun p => (p, n))

section FreeBlocks

variable {F G : ℕ → List ℕ} {k n p : ℕ} {l : List ℕ}

theorem mem_freeBlocks : (p, k) ∈ freeBlocks F n ↔ k < n ∧ p ∈ F k := by
  induction n with
  | zero => simp [freeBlocks]
  | succ n ih =>
    simp only [freeBlocks, List.mem_append, ih, List.mem_map, Prod.mk.injEq]
    constructor
    · rintro (⟨hk, hp⟩ | ⟨q, hq, rfl, rfl⟩)
      · exact ⟨by omega, hp⟩
      · exact ⟨by omega, hq⟩
    · rintro ⟨hk, hp⟩
      rcases Nat.lt_succ_iff_lt_or_eq.mp hk with hlt | rfl
      · exact Or.inl ⟨hlt, hp⟩
      · exact Or.inr ⟨p, hp, rfl, rfl⟩

theorem freeBlocks_congr (h : ∀ k < n, F k = G k) : freeBlocks F n = freeBlocks G n := by
  induction n with
  | zero => rfl
  | succ n ih =>
    rw [freeBlocks, freeBlocks, ih fun k hk => h k (by omega), h n (by omega)]

/-- One block more or less on one list. -/
theorem freeBlocks_update (hk : k < n) (hl : (F k).Perm (p :: l)) :
    (freeBlocks F n).Perm ((p, k) :: freeBlocks (Function.update F k l) n) := by
  induction n with
  | zero => omega
  | succ n ih =>
    rw [freeBlocks, freeBlocks]
    rcases Nat.lt_succ_iff_lt_or_eq.mp hk with hlt | rfl
    · rw [Function.update_of_ne (by omega)]
      exact (ih hlt).append_right _
    · have hrest : freeBlocks (Function.update F k l) k = freeBlocks F k :=
        freeBlocks_congr fun j hj => Function.update_of_ne (by omega) ..
      rw [Function.update_self, hrest]
      exact ((hl.map _).append_left _).trans List.perm_middle

end FreeBlocks

-- The sixteen lists are not to be written out when two of these are compared.
attribute [irreducible] freeBlocks

structure Rings (links : Links ListHead) (F : ℕ → List ℕ) : Prop where
  ring : ∀ k < maxOrder, Ring links (.area k) ((F k).map .page)
  apart : ∀ j < maxOrder, ∀ k < maxOrder, ∀ p, p ∈ F j → p ∈ F k → j = k

namespace Rings

variable {links links' : Links ListHead} {F : ℕ → List ℕ} {k p : ℕ} {l r t : List ℕ}

/-- Replacing one ring, the writes touching only old and new nodes of it. -/
theorem replace (hr : Rings links F) (hk : k < maxOrder)
    (hring : Ring links' (.area k) (l.map .page))
    (hsame : SameBut links links' (.area k :: t.map .page))
    (ht : ∀ q ∈ t, ∀ j < maxOrder, j ≠ k → q ∉ F j)
    (hl : ∀ q ∈ l, ∀ j < maxOrder, j ≠ k → q ∉ F j) :
    Rings links' (Function.update F k l) := by
  constructor
  · intro j hj
    by_cases hjk : j = k
    · subst hjk
      rwa [Function.update_self]
    · rw [Function.update_of_ne hjk]
      refine (hr.ring j hj).frame hsame ?_
      intro x hx hin
      simp only [List.mem_cons, List.mem_map] at hx hin
      rcases hx with rfl | ⟨q, hq, rfl⟩
      · rcases hin with heq | ⟨a, -, heq⟩
        · exact hjk (ListHead.area.inj heq)
        · cases heq
      · rcases hin with heq | ⟨a, ha, heq⟩
        · cases heq
        · obtain rfl := ListHead.page.inj heq
          exact ht a ha j hj hjk hq
  · intro i hi j hj q hqi hqj
    by_cases hik : i = k <;> by_cases hjk : j = k
    · rw [hik, hjk]
    · rw [hik, Function.update_self] at hqi
      rw [Function.update_of_ne hjk] at hqj
      exact absurd hqj (hl q hqi j hj hjk)
    · rw [hjk, Function.update_self] at hqj
      rw [Function.update_of_ne hik] at hqi
      exact absurd hqi (hl q hqj i hi hik)
    · rw [Function.update_of_ne hik] at hqi
      rw [Function.update_of_ne hjk] at hqj
      exact hr.apart i hi j hj q hqi hqj

theorem elsewhere (hr : Rings links F) (hk : k < maxOrder) (hp : p ∈ F k) :
    ∀ j < maxOrder, j ≠ k → p ∉ F j :=
  fun j hj hne hpj => hne (hr.apart j hj k hk p hpj hp)

end Rings

section Lists

variable {s : Pages} {F : ℕ → List ℕ} {k p : ℕ} {l r : List ℕ}

theorem listAdd_spec (hr : Rings s.links F) (hk : k < maxOrder)
    (hp : ∀ j < maxOrder, p ∉ F j) :
    ∃ links, listAdd s (.area k) (.page p) = some { s with links := links } ∧
      Rings links (Function.update F k (p :: F k)) := by
  have hnew : ListHead.page p ∉ ListHead.area k :: (F k).map .page := by
    simpa using hp k hk
  obtain ⟨n, hn, hring, hsame⟩ := (hr.ring k hk).insert hnew
  refine ⟨_, ?_, hr.replace hk (t := p :: F k) hring ?_ ?_ ?_⟩
  · simp only [listAdd, hn, Option.bind_eq_bind, Option.bind_some]
  · intro x hx
    apply hsame x
    simp only [List.map_cons, List.mem_cons] at hx ⊢
    tauto
  all_goals
    intro q hq j hj hne
    rcases List.mem_cons.mp hq with rfl | hq
    · exact hp j hj
    · exact hr.elsewhere hk hq j hj hne

/-- Both ways of unlinking do the same two writes to the rest of the list. -/
theorem unlink_spec (hr : Rings s.links F) (hk : k < maxOrder) (hF : F k = l ++ p :: r) :
    ∃ a b, s.links.prev (.page p) = some a ∧ s.links.next (.page p) = some b ∧
      a ≠ .page p ∧ b ≠ .page p ∧
      Rings ((s.links.setNext a (some b)).setPrev b (some a))
        (Function.update F k (l ++ r)) := by
  have hring := hr.ring k hk
  rw [hF, List.map_append, List.map_cons] at hring
  obtain ⟨a, b, ha, hb, hap, hbp, hring', hsame⟩ := hring.unlink
  rw [← List.map_append] at hring' hsame
  have hin : ∀ q ∈ l ++ r, q ∈ F k := by
    intro q hq
    rw [hF, List.mem_append, List.mem_cons]
    rw [List.mem_append] at hq
    tauto
  have helse : ∀ q ∈ l ++ r, ∀ j < maxOrder, j ≠ k → q ∉ F j :=
    fun q hq => hr.elsewhere hk (hin q hq)
  exact ⟨a, b, ha, hb, hap, hbp, hr.replace hk hring' hsame helse helse⟩

theorem listDelCopy_spec (hr : Rings s.links F) (hk : k < maxOrder) (hF : F k = l ++ p :: r) :
    ∃ links, listDelCopy s (.page p) = some { s with links := links } ∧
      Rings links (Function.update F k (l ++ r)) := by
  obtain ⟨a, b, ha, hb, -, -, hrings⟩ := unlink_spec hr hk hF
  refine ⟨_, ?_, hrings⟩
  simp only [listDelCopy, ha, hb, Option.bind_eq_bind, Option.bind_some]

theorem listDel_spec (hr : Rings s.links F) (hk : k < maxOrder) (hF : F k = l ++ p :: r) :
    ∃ links, listDel s (.page p) = some { s with links := links } ∧
      Rings links (Function.update F k (l ++ r)) := by
  obtain ⟨a, b, ha, hb, hap, -, hrings⟩ := unlink_spec hr hk hF
  have hnotin : ∀ j < maxOrder, p ∉ Function.update F k (l ++ r) j := by
    intro j hj hpj
    by_cases hjk : j = k
    · subst hjk
      rw [Function.update_self] at hpj
      have hnd := (List.nodup_cons.mp (hr.ring j hk).nodup).2
      rw [hF] at hnd
      have hnd' := List.Nodup.of_map _ hnd
      rw [List.nodup_middle, List.nodup_cons] at hnd'
      exact hnd'.1 hpj
    · rw [Function.update_of_ne hjk] at hpj
      exact hjk (hr.apart j hj k hk p hpj (by rw [hF]; simp))
  refine ⟨(((s.links.setNext a (some b)).setPrev b (some a)).setNext (.page p) none).setPrev
    (.page p) none, ?_, ?_, hrings.apart⟩
  · simp [listDel, ha, hb, Links.setNext_next]
  · intro j hj
    refine (hrings.ring j hj).congr fun x hx => ?_
    have hxp : x ≠ .page p := by
      rintro rfl
      simp only [List.mem_cons, List.mem_map] at hx
      rcases hx with heq | ⟨q, hq, heq⟩
      · cases heq
      · obtain rfl := ListHead.page.inj heq
        exact hnotin j hj hq
    simp [Links.setNext_next, Links.setPrev_prev, hxp]

end Lists

end SystemSoftware.BuddyLists
