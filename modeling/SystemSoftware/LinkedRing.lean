import Mathlib.Data.List.Nodup
import Mathlib.Logic.Function.Basic

/-!
Circular doubly linked lists through a head, over any type of nodes. A ring is
a path of mutually inverse `next` and `prev` links from the head back to it,
without repeated nodes. Inserting behind the head and unlinking a node touch
only nodes of the ring, so rings without common nodes do not disturb each other.
-/
namespace SystemSoftware.LinkedRing

variable {α : Type} [DecidableEq α]

structure Links (α : Type) where
  next : α → Option α
  prev : α → Option α

namespace Links

def setNext (s : Links α) (x : α) (y : Option α) : Links α :=
  { s with next := Function.update s.next x y }

def setPrev (s : Links α) (x : α) (y : Option α) : Links α :=
  { s with prev := Function.update s.prev x y }

@[simp] theorem setNext_prev (s : Links α) (x : α) (y : Option α) :
    (s.setNext x y).prev = s.prev := rfl

@[simp] theorem setPrev_next (s : Links α) (x : α) (y : Option α) :
    (s.setPrev x y).next = s.next := rfl

theorem setNext_next (s : Links α) (x z : α) (y : Option α) :
    (s.setNext x y).next z = if z = x then y else s.next z := Function.update_apply ..

theorem setPrev_prev (s : Links α) (x z : α) (y : Option α) :
    (s.setPrev x y).prev z = if z = x then y else s.prev z := Function.update_apply ..

end Links

def Path (s : Links α) : List α → Prop
  | x :: y :: r => s.next x = some y ∧ s.prev y = some x ∧ Path s (y :: r)
  | _ => True

/-- The nodes `l` in order behind the head `h`, and back to `h`. -/
structure Ring (s : Links α) (h : α) (l : List α) : Prop where
  path : Path s (h :: l ++ [h])
  nodup : (h :: l).Nodup

def SameBut (s s' : Links α) (t : List α) : Prop :=
  ∀ x, x ∉ t → s'.next x = s.next x ∧ s'.prev x = s.prev x

section Paths

omit [DecidableEq α]

variable {s s' : Links α}

theorem path_append {l r : List α} {x : α} :
    Path s (l ++ x :: r) ↔ Path s (l ++ [x]) ∧ Path s (x :: r) := by
  induction l with
  | nil => simp [Path]
  | cons a l ih =>
    cases l with
    | nil => simp [Path, and_assoc]
    | cons b l =>
      simp only [List.cons_append, Path] at ih ⊢
      rw [ih]
      tauto

theorem Path.congr {l : List α} (h : Path s l) (hnext : ∀ x ∈ l.dropLast, s'.next x = s.next x)
    (hprev : ∀ x ∈ l.tail, s'.prev x = s.prev x) : Path s' l := by
  induction l with
  | nil => trivial
  | cons a l ih =>
    cases l with
    | nil => trivial
    | cons b r =>
      obtain ⟨hab, hba, hrest⟩ := h
      refine ⟨?_, ?_, ih hrest ?_ ?_⟩
      · rw [hnext a (by simp), hab]
      · rw [hprev b (by simp), hba]
      · exact fun x hx => hnext x (by simp [hx])
      · exact fun x hx => hprev x (List.mem_cons_of_mem b hx)

end Paths

namespace Ring

variable {s s' : Links α} {h x : α} {l r : List α}

omit [DecidableEq α] in
/-- A ring only depends on the links of its own nodes. -/
theorem congr (hr : Ring s h l)
    (hsame : ∀ x ∈ h :: l, s'.next x = s.next x ∧ s'.prev x = s.prev x) :
    Ring s' h l := by
  refine ⟨hr.path.congr ?_ ?_, hr.nodup⟩
  · intro x hx
    rw [List.dropLast_concat] at hx
    exact (hsame x hx).1
  · intro x hx
    simp only [List.cons_append, List.tail_cons, List.mem_append, List.mem_singleton] at hx
    refine (hsame x ?_).2
    rw [List.mem_cons]
    tauto

omit [DecidableEq α] in
theorem frame {t : List α} (hr : Ring s h l) (hsame : SameBut s s' t)
    (hd : ∀ x ∈ h :: l, x ∉ t) : Ring s' h l :=
  hr.congr fun x hx => hsame x (hd x hx)

omit [DecidableEq α] in
/-- The first node, or the head itself when the ring is empty. -/
theorem next_head (hr : Ring s h l) : s.next h = some (l.head?.getD h) := by
  have hp := hr.path
  cases l with
  | nil => exact hp.1
  | cons y l => exact hp.1

omit [DecidableEq α] in
/-- The head and the nodes behind it end with the last node, or with the head. -/
theorem cons_eq_concat (h : α) (l : List α) : ∃ k, h :: l = k ++ [l.getLast?.getD h] := by
  refine ⟨(h :: l).dropLast, ?_⟩
  have hlast : (h :: l).getLast (List.cons_ne_nil h l) = l.getLast?.getD h :=
    Option.some.inj ((List.getLast?_eq_some_getLast _).symm.trans List.getLast?_cons)
  rw [← hlast, List.dropLast_append_getLast]

omit [DecidableEq α] in
/-- What follows a node is the next one of the ring or the head, and so before it. -/
theorem neighbours (hr : Ring s h (l ++ x :: r)) :
    s.next x = some (r.head?.getD h) ∧ s.prev x = some (l.getLast?.getD h) := by
  have hpath : Path s ((h :: l) ++ x :: (r ++ [h])) := by
    have hp := hr.path
    rwa [← List.cons_append, List.append_assoc] at hp
  obtain ⟨hleft, hright⟩ := path_append.mp hpath
  constructor
  · cases r with
    | nil => exact hright.1
    | cons y r => exact hright.1
  · obtain ⟨k, hk⟩ := cons_eq_concat h l
    rw [hk, List.append_assoc, List.singleton_append] at hleft
    exact (path_append.mp hleft).2.2.1

omit [DecidableEq α] in
/-- The last node, or the head itself when the ring is empty. -/
theorem prev_head (hr : Ring s h l) : s.prev h = some (l.getLast?.getD h) := by
  obtain ⟨k, hk⟩ := cons_eq_concat h l
  have hp := hr.path
  rw [hk, List.append_assoc, List.singleton_append] at hp
  exact (path_append.mp hp).2.2.1

omit [DecidableEq α] in
/-- The nodes of a ring in order determine the links of all of them. -/
theorem links_eq (hr : Ring s h l) (hr' : Ring s' h l) :
    ∀ x ∈ h :: l, s'.next x = s.next x ∧ s'.prev x = s.prev x := by
  intro x hx
  rcases List.mem_cons.mp hx with rfl | hmem
  · exact ⟨hr'.next_head.trans hr.next_head.symm, hr'.prev_head.trans hr.prev_head.symm⟩
  · obtain ⟨l₁, l₂, rfl⟩ := List.append_of_mem hmem
    obtain ⟨hnext, hprev⟩ := hr.neighbours
    obtain ⟨hnext', hprev'⟩ := hr'.neighbours
    exact ⟨hnext'.trans hnext.symm, hprev'.trans hprev.symm⟩

/-- The four writes that put `x` behind the head. -/
theorem insert (hr : Ring s h l) (hx : x ∉ h :: l) :
    ∃ n, s.next h = some n ∧
      Ring ((((s.setPrev n (some x)).setNext x (some n)).setPrev x (some h)).setNext h (some x))
        h (x :: l) ∧
      SameBut s ((((s.setPrev n (some x)).setNext x (some n)).setPrev x (some h)).setNext h
        (some x)) (x :: h :: l) := by
  have hxh : x ≠ h := fun heq => hx (by simp [heq])
  have hnd := List.nodup_cons.mp hr.nodup
  -- The ring read from its first node `n` on.
  obtain ⟨n, t, hnt⟩ : ∃ n t, l ++ [h] = n :: t := by cases l <;> simp
  have hp : Path s (h :: n :: t) := hnt ▸ hr.path
  have hnmem : n ∈ h :: l := by
    have hn : n ∈ l ++ [h] := by rw [hnt]; simp
    simp only [List.mem_append, List.mem_singleton] at hn
    rw [List.mem_cons]
    tauto
  have hxn : x ≠ n := fun heq => hx (heq ▸ hnmem)
  have hnodup : (l ++ [h]).Nodup := by
    rw [List.nodup_append_comm]
    exact hr.nodup
  refine ⟨n, hp.1, ⟨?_, ?_⟩, ?_⟩
  · rw [List.cons_append, List.cons_append, hnt]
    refine ⟨?_, ?_, ?_, ?_, hp.2.2.congr ?_ ?_⟩
    · simp [Links.setNext_next]
    · simp [Links.setPrev_prev]
    · simp [Links.setNext_next, hxh]
    · simp [Links.setPrev_prev, hxn.symm]
    · intro y hy
      have hyl : y ∈ l := by
        rw [← hnt, List.dropLast_concat] at hy
        exact hy
      have hyx : y ≠ x := fun heq => hx (heq ▸ List.mem_cons_of_mem h hyl)
      have hyh : y ≠ h := fun heq => hnd.1 (heq ▸ hyl)
      simp [Links.setNext_next, hyx, hyh]
    · intro y hy
      rw [List.tail_cons] at hy
      rw [hnt, List.nodup_cons] at hnodup
      have hyn : y ≠ n := fun heq => hnodup.1 (heq ▸ hy)
      have hyx : y ≠ x := by
        rintro rfl
        have hmem : y ∈ l ++ [h] := by rw [hnt]; exact List.mem_cons_of_mem n hy
        simp only [List.mem_append, List.mem_singleton] at hmem
        exact hx (by rw [List.mem_cons]; tauto)
      simp [Links.setPrev_prev, hyx, hyn]
  · rw [List.nodup_cons, List.mem_cons]
    refine ⟨?_, ?_⟩
    · rintro (heq | hmem)
      · exact hxh heq.symm
      · exact hnd.1 hmem
    · exact List.nodup_cons.mpr ⟨fun hmem => hx (List.mem_cons_of_mem h hmem), hnd.2⟩
  · intro y hy
    rw [List.mem_cons, not_or] at hy
    have hyh : y ≠ h := fun heq => hy.2 (by simp [heq])
    have hyn : y ≠ n := fun heq => hy.2 (heq ▸ hnmem)
    simp [Links.setNext_next, Links.setPrev_prev, hy.1, hyh, hyn]

/-- The two writes that take `x` out; the links of `x` itself stay as they are. -/
theorem unlink (hr : Ring s h (l ++ x :: r)) :
    ∃ p n, s.prev x = some p ∧ s.next x = some n ∧ p ≠ x ∧ n ≠ x ∧
      Ring ((s.setNext p (some n)).setPrev n (some p)) h (l ++ r) ∧
      SameBut s ((s.setNext p (some n)).setPrev n (some p)) (h :: (l ++ r)) := by
  -- The neighbours of `x` on the closed path.
  obtain ⟨k, p, hkp⟩ : ∃ k p, h :: l = k ++ [p] :=
    ⟨_, _, (List.dropLast_append_getLast (List.cons_ne_nil h l)).symm⟩
  obtain ⟨n, t, hnt⟩ : ∃ n t, r ++ [h] = n :: t := by cases r <;> simp
  have hpath : Path s (k ++ p :: x :: n :: t) := by
    have hp := hr.path
    rw [← List.cons_append, List.append_assoc, hkp, List.cons_append, hnt] at hp
    simpa using hp
  obtain ⟨hleft, hpx, hxp, hxn, hnx, hright⟩ := path_append.mp hpath
  have hnodup : (h :: (l ++ r)).Nodup ∧ x ∉ h :: (l ++ r) := by
    have hnd := hr.nodup
    rw [← List.cons_append, List.nodup_middle, List.nodup_cons, List.cons_append] at hnd
    exact ⟨hnd.2, hnd.1⟩
  obtain ⟨hnd, hx⟩ := hnodup
  have hpmem : p ∈ h :: l := by rw [hkp]; simp
  have hnmem : n = h ∨ n ∈ r := by
    have hn : n ∈ r ++ [h] := by rw [hnt]; simp
    simpa [or_comm] using hn
  have hpin : p ∈ h :: (l ++ r) := by
    rw [List.mem_cons, List.mem_append]
    rw [List.mem_cons] at hpmem
    tauto
  have hnin : n ∈ h :: (l ++ r) := by
    rw [List.mem_cons, List.mem_append]
    tauto
  obtain ⟨hhead, hlr⟩ := List.nodup_cons.mp hnd
  obtain ⟨hl, hr', hdisj⟩ := List.nodup_append.mp hlr
  rw [List.mem_append, not_or] at hhead
  have hkp' : (k ++ [p]).Nodup := hkp ▸ List.nodup_cons.mpr ⟨hhead.1, hl⟩
  have hnt' : (n :: t).Nodup := by
    rw [← hnt, List.nodup_append_comm]
    exact List.nodup_cons.mpr ⟨hhead.2, hr'⟩
  refine ⟨p, n, hxp, hxn, ?_, ?_, ⟨?_, hnd⟩, ?_⟩
  · rintro rfl
    exact hx hpin
  · rintro rfl
    exact hx hnin
  · have hgoal : h :: (l ++ r) ++ [h] = k ++ p :: (n :: t) := by
      rw [← hnt, ← List.cons_append, hkp]
      simp
    rw [hgoal, path_append]
    refine ⟨hleft.congr ?_ ?_, ?_, ?_, hright.congr ?_ ?_⟩
    · intro y hy
      rw [List.dropLast_concat] at hy
      have hyp : y ≠ p := by
        rintro rfl
        exact (List.nodup_append.mp hkp').2.2 y hy y (by simp) rfl
      simp [Links.setNext_next, hyp]
    · intro y hy
      rw [← hkp, List.tail_cons] at hy
      have hyn : y ≠ n := by
        rintro rfl
        rcases hnmem with rfl | hmem
        · exact hhead.1 hy
        · exact hdisj y hy y hmem rfl
      simp [Links.setPrev_prev, hyn]
    · simp [Links.setNext_next]
    · simp [Links.setPrev_prev]
    · intro y hy
      rw [← hnt, List.dropLast_concat] at hy
      have hyp : y ≠ p := by
        rintro rfl
        rcases List.mem_cons.mp hpmem with rfl | hmem
        · exact hhead.2 hy
        · exact hdisj y hmem y hy rfl
      simp [Links.setNext_next, hyp]
    · intro y hy
      rw [List.tail_cons] at hy
      have hyn : y ≠ n := fun heq => (List.nodup_cons.mp hnt').1 (heq ▸ hy)
      simp [Links.setPrev_prev, hyn]
  · intro y hy
    have hyp : y ≠ p := fun heq => hy (heq ▸ hpin)
    have hyn : y ≠ n := fun heq => hy (heq ▸ hnin)
    simp [Links.setNext_next, Links.setPrev_prev, hyp, hyn]

end Ring

/-- The nodes met by following `next` from `x` until `stop` comes up. -/
def walkTo (s : Links α) (stop : α) : ℕ → α → Option (List α)
  | 0, _ => none
  | fuel + 1, x => do
    let y ← s.next x
    if y = stop then some []
    else do
      let r ← walkTo s stop fuel y
      some (y :: r)

/-- Following `next` from the head lists the ring. -/
theorem Ring.walkTo_eq {s : Links α} {h : α} {l : List α} (hr : Ring s h l) {fuel : ℕ}
    (hfuel : l.length < fuel) : walkTo s h fuel h = some l := by
  have hgen : ∀ (l : List α) (x : α) (fuel : ℕ), Path s (x :: l ++ [h]) → h ∉ l →
      l.length < fuel → walkTo s h fuel x = some l := by
    intro l
    induction l with
    | nil =>
      intro x fuel hp _ hlt
      obtain ⟨fuel, rfl⟩ := Nat.exists_eq_succ_of_ne_zero (Nat.ne_of_gt hlt)
      have hnext : s.next x = some h := hp.1
      simp [walkTo, hnext]
    | cons y l ih =>
      intro x fuel hp hh hlt
      obtain ⟨fuel, rfl⟩ := Nat.exists_eq_succ_of_ne_zero (show fuel ≠ 0 by omega)
      obtain ⟨hnext, -, hrest⟩ := hp
      rw [List.mem_cons, not_or] at hh
      have hrec := ih y fuel hrest hh.2 (by simp only [List.length_cons] at hlt; omega)
      simp [walkTo, hnext, hrec, Ne.symm hh.1]
  exact hgen l h fuel hr.path (List.nodup_cons.mp hr.nodup).1 hfuel

end SystemSoftware.LinkedRing
