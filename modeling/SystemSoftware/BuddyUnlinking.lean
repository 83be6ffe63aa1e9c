import SystemSoftware.BuddyRuns

/-!
`list_del` on a page struct and on a copy of it. `mm_free` copies the struct of the
buddy into a local variable and unlinks through the copy, so that the two fields
cleared at the end are those of the copy and the fields of the page stay stale.
-/
namespace SystemSoftware.BuddyUnlinking

open LinkedRing BuddyPages BuddyLists BuddyRuns

section Copy

variable {α : Type} [DecidableEq α]

def deleteNode (s : Links α) (l : α) : Option (Links α) := do
  let prev ← s.prev l
  let s := s.setNext prev (s.next l)
  let next ← s.next l
  let s := s.setPrev next (s.prev l)
  some ((s.setNext l none).setPrev l none)

/-- The links with one node more, a local variable, whose fields are given. -/
def withLocal (s : Links α) (next prev : Option α) : Links (Option α) where
  next x := x.elim (next.map some) fun y => (s.next y).map some
  prev x := x.elim (prev.map some) fun y => (s.prev y).map some

theorem update_elim (f : α → Option α) (d : Option (Option α)) (x : α) (y : Option α) :
    Function.update (fun z : Option α => z.elim d fun w => (f w).map some) (some x) (y.map some) =
      fun z => z.elim d fun w => (Function.update f x y w).map some := by
  funext z
  cases z with
  | none => simp
  | some z =>
    simp only [Function.update_apply, Option.some.injEq, Option.elim_some]
    split <;> rfl

/-- Storing into a field of another node goes past the local variable. -/
theorem withLocal_setNext (s : Links α) (next prev : Option α) (x : α) (y : Option α) :
    (withLocal s next prev).setNext (some x) (y.map some) =
      withLocal (s.setNext x y) next prev :=
  congrArg (Links.mk · _) (update_elim s.next (next.map some) x y)

theorem withLocal_setPrev (s : Links α) (next prev : Option α) (x : α) (y : Option α) :
    (withLocal s next prev).setPrev (some x) (y.map some) =
      withLocal (s.setPrev x y) next prev :=
  congrArg (Links.mk _) (update_elim s.prev (prev.map some) x y)

theorem withLocal_clear (s : Links α) (next prev : Option α) :
    ((withLocal s next prev).setNext none none).setPrev none none = withLocal s none none := by
  unfold withLocal Links.setNext Links.setPrev
  congr 1
  all_goals
    funext z
    cases z <;> simp

theorem deleteNode_of_links {s : Links α} {l a b : α} (ha : s.prev l = some a)
    (hb : s.next l = some b) (hne : a ≠ l) :
    deleteNode s l =
      some ((((s.setNext a (some b)).setPrev b (some a)).setNext l none).setPrev l none) := by
  have hnext : (s.setNext a (some b)).next l = some b := by
    rw [Links.setNext_next, if_neg hne.symm, hb]
  simp only [deleteNode, ha, hb, hnext, Links.setNext_prev, Option.bind_eq_bind, Option.bind_some]

/-- Unlinking through a copy of a node writes its two neighbours and clears the copy. -/
theorem deleteNode_copy {s : Links α} {l a b : α} (ha : s.prev l = some a)
    (hb : s.next l = some b) :
    deleteNode (withLocal s (s.next l) (s.prev l)) none =
      some (withLocal ((s.setNext a (some b)).setPrev b (some a)) none none) := by
  have hprev : (withLocal s (some b) (some a)).prev none = some (some a) := rfl
  have hnext : (withLocal s (some b) (some a)).next none = some (some b) := rfl
  rw [ha, hb, deleteNode_of_links hprev hnext (Option.some_ne_none a)]
  have hset₁ := withLocal_setNext s (some b) (some a) a (some b)
  have hset₂ := withLocal_setPrev (s.setNext a (some b)) (some b) (some a) b (some a)
  rw [Option.map_some] at hset₁ hset₂
  rw [hset₁, hset₂, withLocal_clear]

end Copy

variable {s : Pages} {F : ℕ → List ℕ} {k p : ℕ}

theorem listDel_eq_deleteNode (s : Pages) (l : ListHead) :
    listDel s l = (deleteNode s.links l).map fun links => { s with links := links } := by
  unfold listDel deleteNode
  cases s.links.prev l with
  | none => rfl
  | some prev =>
    simp only [Option.bind_eq_bind, Option.bind_some]
    cases (s.links.setNext prev (s.links.next l)).next l with
    | none => rfl
    | some next => rfl

/-- Taking a page off through a copy of its struct: the list loses that page only, all
other lists keep their links, and unlinking the page itself leaves the same links
everywhere but in the page. A page on no list can then be put first on any list. -/
theorem unlink_through_copy (hr : Rings s.links F) (hk : k < maxOrder) (hp : p ∈ F k) :
    ∃ copied direct : Links ListHead,
      deleteNode (withLocal s.links (s.links.next (.page p)) (s.links.prev (.page p))) none =
        some (withLocal copied none none) ∧
      listDelCopy s (.page p) = some { s with links := copied } ∧
      listDel s (.page p) = some { s with links := direct } ∧
      Rings copied (Function.update F k ((F k).erase p)) ∧
      (∀ j < maxOrder, j ≠ k → ∀ x ∈ ListHead.area j :: (F j).map .page,
        copied.next x = s.links.next x ∧ copied.prev x = s.links.prev x) ∧
      (∀ x, x ≠ .page p → direct.next x = copied.next x ∧ direct.prev x = copied.prev x) ∧
      ∀ j < maxOrder, ∀ q,
        (∀ i < maxOrder, q ∉ Function.update F k ((F k).erase p) i) →
        ∃ links, listAdd { s with links := copied } (.area j) (.page q) =
            some { s with links := links } ∧
          Rings links (Function.update (Function.update F k ((F k).erase p)) j
            (q :: Function.update F k ((F k).erase p) j)) := by
  obtain ⟨l, r, hF⟩ := List.append_of_mem hp
  obtain ⟨a, b, ha, hb, hap, -, hrings⟩ := unlink_spec hr hk hF
  have herase : (F k).erase p = l ++ r := by
    have hnd := List.Nodup.of_map _ (List.nodup_cons.mp (hr.ring k hk).nodup).2
    rw [hF, List.nodup_middle, List.nodup_cons, List.mem_append, not_or] at hnd
    rw [hF, List.erase_append_right _ hnd.1.1, List.erase_cons_head]
  rw [herase]
  refine ⟨_, (((s.links.setNext a (some b)).setPrev b (some a)).setNext (.page p) none).setPrev
    (.page p) none, deleteNode_copy ha hb, ?_, ?_, hrings, ?_, ?_, ?_⟩
  · simp only [listDelCopy, ha, hb, Option.bind_eq_bind, Option.bind_some]
  · rw [listDel_eq_deleteNode, deleteNode_of_links ha hb hap, Option.map_some]
  · intro j hj hjk x hx
    have hring := hrings.ring j hj
    rw [Function.update_of_ne hjk] at hring
    exact (hr.ring j hj).links_eq hring x hx
  · intro x hx
    constructor
    · rw [Links.setPrev_next, Links.setNext_next, if_neg hx]
    · rw [Links.setPrev_prev, if_neg hx, Links.setNext_prev]
  · intro j hj q hq
    exact listAdd_spec (s := { s with links := _ }) hrings hj hq

/-- After `mm_init` page 0 comes off the list of order 15 and page 32768 stays. -/
theorem unlink_through_copy_started : ∃ links,
    listDelCopy startedClient.pages (.page 0) = some { startedClient.pages with links := links } ∧
      Rings links (Function.update initialLists 15 [32768]) := by
  have hr := (consistent_started startedClient_started).holds.pieces.rings
  obtain ⟨links, -, -, hcall, -, hrings, -⟩ :=
    unlink_through_copy hr (show 15 < maxOrder by decide) (p := 0) (by decide)
  exact ⟨links, hcall, hrings⟩

end SystemSoftware.BuddyUnlinking
