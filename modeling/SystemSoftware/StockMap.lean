import SystemSoftware.StockTree
import Mathlib.Logic.Function.Basic

/-!
The stock table as a map from ids to counts and prices. `find` meets the record
that was inserted first with its id, whatever was inserted later, and `modify`
changes that record alone. A catalog is the map that the table stands for, with
counts as integers; the operations on the tree refine those on the catalog.
-/
namespace SystemSoftware.StockMap

open StockTree

/-- The turns from the root to a node, `true` to the right. -/
abbrev Path := List Bool

def recordAt : Path → Stock → Option Record
  | _, .null => none
  | [], .node id count price _ _ => some (id, count, price)
  | turn :: path, .node _ _ _ left right => recordAt path (if turn then right else left)

def pathOf (id : Int32) : Stock → Path
  | .null => []
  | .node i _ _ left right =>
    if id = i then []
    else if i < id then true :: pathOf id right
    else false :: pathOf id left

def lookup (id : Int32) (t : Stock) : Option Record := recordAt (pathOf id t) t

abbrev Catalog := Int32 → Option (ℤ × Int32)

/-- The first record of an id counts. -/
def Catalog.add (m : Catalog) (r : Record) : Catalog := fun id =>
  (m id).or (if id = r.1 then some (r.2.1.toInt, r.2.2) else none)

/-- A count stays in the range of a non-negative int, or the trade is refused. -/
def Catalog.trade (m : Catalog) (id : Int32) (delta : ℤ) : Catalog × Status :=
  match m id with
  | none => (m, .error)
  | some (count, price) =>
    if 0 ≤ count + delta ∧ count + delta ≤ 2 ^ 31 - 1 then
      (Function.update m id (some (count + delta, price)), .success)
    else (m, .notenougherr)

def catalogOf (t : Stock) : Catalog := fun id =>
  (lookup id t).map fun r => (r.2.1.toInt, r.2.2)

def build (rs : List Record) : Stock :=
  rs.foldl (fun t r => StockTree.insert t r.1 r.2.1 r.2.2) .null

abbrev Trade := Int32 × Int32

/-- The calls of `modify` one after the other, with what they return. -/
def modifyAll (t : Stock) : List Trade → Stock × List Status
  | [] => (t, [])
  | (id, delta) :: ops =>
    let r := modifyAll (modify t id delta).1 ops
    (r.1, (modify t id delta).2 :: r.2)

def Catalog.tradeAll (m : Catalog) : List Trade → Catalog × List Status
  | [] => (m, [])
  | (id, delta) :: ops =>
    let r := Catalog.tradeAll (m.trade id delta.toInt).1 ops
    (r.1, (m.trade id delta.toInt).2 :: r.2)

def gained : List Trade → List Status → Int32 → ℤ
  | (i, delta) :: ops, st :: sts, id =>
    (if i = id ∧ st = .success then delta.toInt else 0) + gained ops sts id
  | _, _, _ => 0

/-- What `modify` does with a table: it adds to the count of the node that `find`
meets and to nothing else, or changes nothing. -/
def Answered (t : Stock) (id delta : Int32) : Prop :=
  match find id t with
  | .null => modify t id delta = (t, .error)
  | .node _ count price _ _ =>
    if 0 ≤ count.toInt + delta.toInt ∧ count.toInt + delta.toInt ≤ 2 ^ 31 - 1 then
      ∃ count', count'.toInt = count.toInt + delta.toInt ∧ (modify t id delta).2 = .success ∧
        ∀ path, recordAt path (modify t id delta).1 =
          if path = pathOf id t then some (id, count', price) else recordAt path t
    else modify t id delta = (t, .notenougherr)

def Stocked (t : Stock) : Prop := ∀ path r, recordAt path t = some r → 0 ≤ r.2.1

section Lookup

variable {t : Stock} {id i count price delta : Int32}

theorem lookup_node (id i c p : Int32) (left right : Stock) :
    lookup id (.node i c p left right) =
      if id = i then some (i, c, p) else if i < id then lookup id right else lookup id left := by
  rw [lookup, pathOf]
  split
  · rfl
  · split <;> rfl

/-- `find` returns the node at the end of its way. -/
theorem lookup_eq_find (id : Int32) (t : Stock) : lookup id t =
    match find id t with
    | .null => none
    | .node i c p _ _ => some (i, c, p) := by
  induction t with
  | null => rfl
  | node i c p left right ihl ihr =>
    rw [lookup_node]
    unfold find
    split
    · rfl
    · split
      · exact ihr
      · exact ihl

theorem find_eq_null_iff : find id t = .null ↔ lookup id t = none := by
  rw [lookup_eq_find]
  cases find id t <;> simp

theorem id_of_lookup {r : Record} (h : lookup id t = some r) : r.1 = id := by
  induction t with
  | null => cases h
  | node i c p left right ihl ihr =>
    rw [lookup_node] at h
    split at h
    · rename_i heq
      rw [← Option.some.inj h]
      exact heq.symm
    · split at h
      · exact ihr h
      · exact ihl h

/-- A record is found at the end of its way until one with its id is there. -/
theorem lookup_insert (id : Int32) (t : Stock) (i count price : Int32) :
    lookup id (StockTree.insert t i count price) =
      (lookup id t).or (if id = i then some (i, count, price) else none) := by
  induction t with
  | null =>
    rw [StockTree.insert, lookup_node]
    split
    · rfl
    · split <;> rfl
  | node k c p left right ihl ihr =>
    unfold StockTree.insert
    by_cases hik : i < k
    · rw [if_pos hik, lookup_node, lookup_node]
      by_cases hid : id = k
      · rw [if_pos hid, if_pos hid, Option.some_or]
      rw [if_neg hid, if_neg hid]
      by_cases hlt : k < id
      · have hne : id ≠ i := by
          rintro rfl
          exact absurd hlt (Int32.lt_asymm hik)
        rw [if_pos hlt, if_pos hlt, if_neg hne, Option.or_none]
      · rw [if_neg hlt, if_neg hlt]
        exact ihl
    · rw [if_neg hik, lookup_node, lookup_node]
      by_cases hid : id = k
      · rw [if_pos hid, if_pos hid, Option.some_or]
      rw [if_neg hid, if_neg hid]
      by_cases hlt : k < id
      · rw [if_pos hlt, if_pos hlt]
        exact ihr
      · have hne : id ≠ i := by
          rintro rfl
          exact hid (Int32.le_antisymm (Int32.not_lt.mp hlt) (Int32.not_lt.mp hik))
        rw [if_neg hlt, if_neg hlt, if_neg hne, Option.or_none]

theorem pathOf_setCount (j id count : Int32) (t : Stock) :
    pathOf j (setCount id count t) = pathOf j t := by
  induction t with
  | null => rfl
  | node i c p left right ihl ihr =>
    unfold setCount
    split
    · rfl
    · split
      · rw [pathOf, ihr]
        rfl
      · rw [pathOf, ihl]
        rfl

/-- Writing through the pointer that `find` returns changes that count alone. -/
theorem recordAt_setCount (path : Path) (id count : Int32) (t : Stock) :
    recordAt path (setCount id count t) =
      if path = pathOf id t then (recordAt path t).map fun r => (r.1, count, r.2.2)
      else recordAt path t := by
  induction t generalizing path with
  | null => simp [setCount, recordAt]
  | node i c p left right ihl ihr =>
    unfold setCount pathOf
    by_cases hid : id = i
    · rw [if_pos hid, if_pos hid]
      cases path with
      | nil => rfl
      | cons turn path => rfl
    rw [if_neg hid, if_neg hid]
    by_cases hlt : i < id
    · rw [if_pos hlt, if_pos hlt]
      cases path with
      | nil => rfl
      | cons turn path => cases turn <;> simp [recordAt, ihr]
    · rw [if_neg hlt, if_neg hlt]
      cases path with
      | nil => rfl
      | cons turn path => cases turn <;> simp [recordAt, ihl]

theorem lookup_setCount (j id count : Int32) (t : Stock) : lookup j (setCount id count t) =
    if j = id then (lookup j t).map fun r => (r.1, count, r.2.2) else lookup j t := by
  rw [lookup, pathOf_setCount, recordAt_setCount]
  by_cases hj : j = id
  · rw [hj, if_pos rfl, if_pos rfl]
    rfl
  rw [if_neg hj]
  split
  · rename_i hpath
    -- Two ids have the same way only when neither is there.
    cases hr : recordAt (pathOf j t) t with
    | none => exact hr.symm
    | some r =>
      have hid : r.1 = j := id_of_lookup hr
      rw [hpath] at hr
      exact absurd (hid.symm.trans (id_of_lookup hr)) hj
  · rfl

theorem recordAt_insert {path : Path} {r : Record}
    (h : recordAt path (StockTree.insert t i count price) = some r) :
    recordAt path t = some r ∨ r = (i, count, price) := by
  induction t generalizing path with
  | null =>
    cases path with
    | nil => exact Or.inr (Option.some.inj h).symm
    | cons turn path => cases turn <;> cases path <;> cases h
  | node k c p left right ihl ihr =>
    unfold StockTree.insert at h
    by_cases hik : i < k
    · rw [if_pos hik] at h
      cases path with
      | nil => exact Or.inl h
      | cons turn path =>
        cases turn with
        | true => exact Or.inl h
        | false => exact ihl h
    · rw [if_neg hik] at h
      cases path with
      | nil => exact Or.inl h
      | cons turn path =>
        cases turn with
        | true => exact ihr h
        | false => exact Or.inl h

theorem lookup_build (id : Int32) (rs : List Record) :
    lookup id (build rs) = rs.find? fun r => r.1 = id := by
  have hgen : ∀ t, lookup id (rs.foldl (fun t r => StockTree.insert t r.1 r.2.1 r.2.2) t) =
      (lookup id t).or (rs.find? fun r => r.1 = id) := by
    induction rs with
    | nil => simp
    | cons r rs ih =>
      intro t
      rw [List.foldl_cons, ih, lookup_insert, Option.or_assoc, List.find?_cons]
      by_cases hid : id = r.1
      · simp [hid]
      · simp [hid, Ne.symm hid]
  exact hgen .null

end Lookup

section Refinement

variable {t : Stock} {id i count price delta : Int32}

/-- A sum of a count and any int is not negative exactly when it does not leave
the range of the counts. -/
theorem add_nonneg_iff (hcount : 0 ≤ count) : ¬ count + delta < 0 ↔
    0 ≤ count.toInt + delta.toInt ∧ count.toInt + delta.toInt ≤ 2 ^ 31 - 1 := by
  have hzero : (0 : Int32).toInt = 0 := rfl
  simp only [Int32.le_iff_toInt_le, Int32.lt_iff_toInt_lt, Int32.toInt_add, hzero, Int.bmod] at *
  have h₁ := count.toInt_lt
  have h₂ := delta.toInt_lt
  have h₃ := delta.le_toInt
  omega

theorem toInt_add_of_range (hle : 0 ≤ count.toInt + delta.toInt)
    (hlt : count.toInt + delta.toInt ≤ 2 ^ 31 - 1) :
    (count + delta).toInt = count.toInt + delta.toInt := by
  simp only [Int32.toInt_add, Int.bmod]
  omega

theorem modify_eq (t : Stock) (id delta : Int32) : modify t id delta =
    match lookup id t with
    | none => (t, .error)
    | some r =>
      if r.2.1 + delta < 0 then (t, .notenougherr)
      else (setCount id (r.2.1 + delta) t, .success) := by
  rw [lookup_eq_find, StockTree.modify]
  cases find id t <;> rfl

theorem stocked_lookup {r : Record} (hs : Stocked t) (h : lookup id t = some r) : 0 ≤ r.2.1 :=
  hs _ r h

theorem modify_answered (hs : Stocked t) (id delta : Int32) : Answered t id delta := by
  have hfind := lookup_eq_find id t
  unfold Answered
  rw [modify_eq]
  cases hnode : find id t with
  | null =>
    rw [hnode] at hfind
    simp only [hfind]
  | node i count price left right =>
    rw [hnode] at hfind
    have hcount : 0 ≤ count := stocked_lookup hs hfind
    have hid : i = id := id_of_lookup hfind
    simp only [hfind]
    by_cases hlt : count + delta < 0
    · rw [if_pos hlt, if_neg fun h => absurd hlt ((add_nonneg_iff hcount).mpr h)]
    · have hrange := (add_nonneg_iff hcount).mp hlt
      rw [if_neg hlt, if_pos hrange]
      refine ⟨count + delta, toInt_add_of_range hrange.1 hrange.2, rfl, fun path => ?_⟩
      rw [recordAt_setCount]
      split
      · rename_i hpath
        rw [hpath, show recordAt (pathOf id t) t = _ from hfind, hid]
        rfl
      · rfl

theorem stocked_modify (hs : Stocked t) (id delta : Int32) : Stocked (modify t id delta).1 := by
  intro path r hr
  rw [modify_eq] at hr
  cases hlook : lookup id t with
  | none =>
    rw [hlook] at hr
    exact hs path r hr
  | some r₀ =>
    simp only [hlook] at hr
    split at hr
    · exact hs path r hr
    rename_i hlt
    simp only [recordAt_setCount] at hr
    split at hr
    · obtain ⟨r₁, -, rfl⟩ := Option.map_eq_some_iff.mp hr
      exact Int32.not_lt.mp hlt
    · exact hs path r hr

theorem catalogOf_insert (t : Stock) (r : Record) :
    catalogOf (StockTree.insert t r.1 r.2.1 r.2.2) = (catalogOf t).add r := by
  funext id
  rw [catalogOf, lookup_insert, Catalog.add, catalogOf]
  by_cases hid : id = r.1
  · rw [if_pos hid, if_pos hid, Option.map_or]
    rfl
  · rw [if_neg hid, if_neg hid, Option.or_none, Option.or_none]

/-- `modify` refines the trade on the catalog. -/
theorem catalogOf_modify (hs : Stocked t) (id delta : Int32) :
    catalogOf (modify t id delta).1 = ((catalogOf t).trade id delta.toInt).1 ∧
      (modify t id delta).2 = ((catalogOf t).trade id delta.toInt).2 := by
  rw [modify_eq, Catalog.trade]
  cases hlook : lookup id t with
  | none =>
    have hcat : catalogOf t id = none := by rw [catalogOf, hlook, Option.map_none]
    rw [hcat]
    exact ⟨rfl, rfl⟩
  | some r =>
    have hcat : catalogOf t id = some (r.2.1.toInt, r.2.2) := by
      rw [catalogOf, hlook, Option.map_some]
    have hcount := stocked_lookup hs hlook
    simp only [hcat]
    by_cases hlt : r.2.1 + delta < 0
    · rw [if_pos hlt, if_neg fun h => absurd hlt ((add_nonneg_iff hcount).mpr h)]
      exact ⟨rfl, rfl⟩
    · have hrange := (add_nonneg_iff hcount).mp hlt
      rw [if_neg hlt, if_pos hrange]
      refine ⟨?_, rfl⟩
      funext j
      dsimp only
      rw [catalogOf, lookup_setCount, Function.update_apply]
      by_cases hj : j = id
      · rw [if_pos hj, if_pos hj, hj, hlook]
        simp only [Option.map_some, toInt_add_of_range hrange.1 hrange.2]
      · rw [if_neg hj, if_neg hj]
        rfl

theorem catalogOf_modifyAll (ops : List Trade) : ∀ t, Stocked t →
    Stocked (modifyAll t ops).1 ∧
      catalogOf (modifyAll t ops).1 = ((catalogOf t).tradeAll ops).1 ∧
      (modifyAll t ops).2 = ((catalogOf t).tradeAll ops).2 := by
  induction ops with
  | nil => exact fun t hs => ⟨hs, rfl, rfl⟩
  | cons op ops ih =>
    obtain ⟨id, delta⟩ := op
    intro t hs
    obtain ⟨hcat, hst⟩ := catalogOf_modify hs id delta
    obtain ⟨hs', hcat', hsts⟩ := ih _ (stocked_modify hs id delta)
    rw [modifyAll, Catalog.tradeAll, ← hcat, ← hst]
    exact ⟨hs', hcat', by rw [hsts]⟩

theorem catalogOf_build (rs : List Record) :
    catalogOf (build rs) = rs.foldl Catalog.add fun _ => none := by
  have hgen : ∀ t, catalogOf (rs.foldl (fun t r => StockTree.insert t r.1 r.2.1 r.2.2) t) =
      rs.foldl Catalog.add (catalogOf t) := by
    induction rs with
    | nil => exact fun t => rfl
    | cons r rs ih =>
      intro t
      rw [List.foldl_cons, List.foldl_cons, ih, catalogOf_insert]
  exact hgen .null

theorem stocked_build {rs : List Record} (hrs : ∀ r ∈ rs, 0 ≤ r.2.1) : Stocked (build rs) := by
  have hgen : ∀ t, Stocked t →
      Stocked (rs.foldl (fun t r => StockTree.insert t r.1 r.2.1 r.2.2) t) := by
    induction rs with
    | nil => exact fun t hs => hs
    | cons r rs ih =>
      intro t hs
      apply ih fun r' hr' => hrs r' (List.mem_cons_of_mem r hr')
      intro path r' hr'
      rcases recordAt_insert hr' with hold | rfl
      · exact hs path r' hold
      · exact hrs r List.mem_cons_self
  exact hgen .null fun path r hr => by cases path <;> cases hr

theorem pathOf_modify (j id delta : Int32) (t : Stock) :
    pathOf j (modify t id delta).1 = pathOf j t := by
  rw [modify_eq]
  cases lookup id t with
  | none => rfl
  | some r =>
    dsimp only
    split
    · rfl
    · exact pathOf_setCount ..

theorem pathOf_modifyAll (j : Int32) (ops : List Trade) : ∀ t,
    pathOf j (modifyAll t ops).1 = pathOf j t := by
  induction ops with
  | nil => exact fun t => rfl
  | cons op ops ih => exact fun t => (ih _).trans (pathOf_modify j op.1 op.2 t)

theorem recordAt_modify_isSome (path : Path) (id delta : Int32) (t : Stock) :
    (recordAt path (modify t id delta).1).isSome = (recordAt path t).isSome := by
  rw [modify_eq]
  cases lookup id t with
  | none => rfl
  | some r =>
    dsimp only
    split
    · rfl
    · rw [recordAt_setCount]
      split
      · exact Option.isSome_map
      · rfl

theorem recordAt_modifyAll_isSome (path : Path) (ops : List Trade) : ∀ t,
    (recordAt path (modifyAll t ops).1).isSome = (recordAt path t).isSome := by
  induction ops with
  | nil => exact fun t => rfl
  | cons op ops ih => exact fun t => (ih _).trans (recordAt_modify_isSome path op.1 op.2 t)

/-- A trade moves the count of the record that `find` meets, if it succeeds. -/
theorem recordAt_modify (hs : Stocked t) {path : Path} {r : Record}
    (h : recordAt path (modify t id delta).1 = some r) :
    ∃ r₀, recordAt path t = some r₀ ∧ r.1 = r₀.1 ∧ r.2.2 = r₀.2.2 ∧
      r.2.1.toInt = r₀.2.1.toInt +
        if path = pathOf r.1 t ∧ id = r.1 ∧ (modify t id delta).2 = .success then delta.toInt
        else 0 := by
  have heq := modify_eq t id delta
  cases hlook : lookup id t with
  | none =>
    rw [hlook] at heq
    rw [heq] at h ⊢
    exact ⟨r, h, rfl, rfl, by simp⟩
  | some r₀ =>
    simp only [hlook] at heq
    by_cases hlt : r₀.2.1 + delta < 0
    · rw [if_pos hlt] at heq
      rw [heq] at h ⊢
      exact ⟨r, h, rfl, rfl, by simp⟩
    rw [if_neg hlt] at heq
    rw [heq] at h ⊢
    have hrange := (add_nonneg_iff (stocked_lookup hs hlook)).mp hlt
    simp only [recordAt_setCount] at h
    by_cases hpath : path = pathOf id t
    · rw [if_pos hpath, hpath, show recordAt (pathOf id t) t = _ from hlook, Option.map_some,
        Option.some.injEq] at h
      have hid : r₀.1 = id := id_of_lookup hlook
      subst h
      refine ⟨r₀, hpath ▸ hlook, rfl, rfl, ?_⟩
      rw [if_pos ⟨by rw [hpath, hid], hid.symm, rfl⟩]
      exact toInt_add_of_range hrange.1 hrange.2
    · rw [if_neg hpath] at h
      refine ⟨r, h, rfl, rfl, ?_⟩
      rw [if_neg fun hc => hpath (by rw [hc.1, hc.2.1]), add_zero]

/-- After some trades the count of a record has moved by the successful ones if
`find` meets it, and not at all otherwise. -/
theorem recordAt_modifyAll (ops : List Trade) : ∀ t, Stocked t → ∀ path r,
    recordAt path (modifyAll t ops).1 = some r →
    ∃ r₀, recordAt path t = some r₀ ∧ r.1 = r₀.1 ∧ r.2.2 = r₀.2.2 ∧
      r.2.1.toInt = r₀.2.1.toInt +
        if path = pathOf r.1 t then gained ops (modifyAll t ops).2 r.1 else 0 := by
  induction ops with
  | nil =>
    intro t _ path r hr
    exact ⟨r, hr, rfl, rfl, by simp [gained]⟩
  | cons op ops ih =>
    obtain ⟨id, delta⟩ := op
    intro t hs path r hr
    rw [modifyAll] at hr ⊢
    obtain ⟨r₁, hr₁, hid₁, hprice₁, hcount₁⟩ := ih _ (stocked_modify hs id delta) path r hr
    obtain ⟨r₀, hr₀, hid₀, hprice₀, hcount₀⟩ := recordAt_modify hs hr₁
    refine ⟨r₀, hr₀, hid₁.trans hid₀, hprice₁.trans hprice₀, ?_⟩
    rw [hcount₁, hcount₀, pathOf_modify, ← hid₁, gained]
    by_cases hpath : path = pathOf r.1 t
    · rw [if_pos hpath, if_pos hpath, add_assoc]
      simp only [hpath, true_and]
    · rw [if_neg hpath, if_neg hpath, if_neg fun hc => hpath hc.1, add_zero]

end Refinement

/-- The stock table behaves as the map from each id to the record inserted first. -/
theorem refines_map {rs : List Record} (hrs : ∀ r ∈ rs, 0 ≤ r.2.1) (ops : List Trade) :
    let t := (modifyAll (build rs) ops).1
    let sts := (modifyAll (build rs) ops).2
    catalogOf t = ((rs.foldl Catalog.add fun _ => none).tradeAll ops).1 ∧
    sts = ((rs.foldl Catalog.add fun _ => none).tradeAll ops).2 ∧
    (∀ id, find id t = .null ↔ ∀ r ∈ rs, r.1 ≠ id) ∧
    (∀ id r, (rs.find? fun r => r.1 = id) = some r → ∃ count left right,
      find id t = .node id count r.2.2 left right ∧
        count.toInt = r.2.1.toInt + gained ops sts id) ∧
    (∀ id delta, Answered t id delta) ∧
    ∀ path r, recordAt path t = some r → 0 ≤ r.2.1 ∧
      ∃ r₀, recordAt path (build rs) = some r₀ ∧ r.1 = r₀.1 ∧ r.2.2 = r₀.2.2 ∧
        r.2.1.toInt = r₀.2.1.toInt +
          if path = pathOf r.1 (build rs) then gained ops sts r.1 else 0 := by
  intro t sts
  obtain ⟨hs, hcat, hsts⟩ := catalogOf_modifyAll ops _ (stocked_build hrs)
  rw [catalogOf_build] at hcat hsts
  have hrecord := recordAt_modifyAll ops _ (stocked_build hrs)
  have hpath : ∀ id, pathOf id t = pathOf id (build rs) := fun id => pathOf_modifyAll id ops _
  have hfound : ∀ id, (lookup id t).isSome = (rs.find? fun r => r.1 = id).isSome := by
    intro id
    rw [lookup, hpath, recordAt_modifyAll_isSome, ← lookup_build]
    rfl
  refine ⟨hcat, hsts, fun id => ?_, fun id r hr => ?_, fun id delta => modify_answered hs id delta,
    fun path r hr => ⟨hs path r hr, hrecord path r hr⟩⟩
  · have hnone : lookup id t = none ↔ (rs.find? fun r => r.1 = id) = none := by
      rw [← Option.not_isSome_iff_eq_none, ← Option.not_isSome_iff_eq_none, hfound]
    rw [find_eq_null_iff, hnone, List.find?_eq_none]
    simp only [decide_eq_true_eq]
  · have hsome := hfound id
    rw [hr, Option.isSome_some] at hsome
    obtain ⟨r', hr'⟩ := Option.isSome_iff_exists.mp hsome
    obtain ⟨r₀, hr₀, hid, hprice, hcount⟩ := hrecord _ r' hr'
    have hfirst : recordAt (pathOf id t) (build rs) = some r := by
      rw [hpath, ← hr]
      exact lookup_build id rs
    rw [hfirst, Option.some.injEq] at hr₀
    subst hr₀
    have hid' : r'.1 = id := id_of_lookup hr'
    rw [hid', hpath, if_pos rfl] at hcount
    have hfind := lookup_eq_find id t
    rw [hr'] at hfind
    cases hnode : find id t with
    | null =>
      rw [hnode] at hfind
      cases hfind
    | node i count price left right =>
      rw [hnode, Option.some.injEq] at hfind
      subst hfind
      obtain rfl : i = id := hid'
      exact ⟨count, left, right, by rw [← hprice], hcount⟩

def stocks : List Record := [(1, 5, 100), (1, 7, 3), (2, 0, 9)]

def trades : List Trade := [(1, -3), (2, -1), (1, 2147483647), (3, 1), (1, 4)]

/-- The second record of an id is never met, and a sum that leaves the ints is refused. -/
theorem refines_map_duplicate : (modifyAll (build stocks) trades).2 =
      [.success, .notenougherr, .notenougherr, .error, .success] ∧
    catalogOf (modifyAll (build stocks) trades).1 1 = some (6, 100) := by
  have hstocks : ∀ r ∈ stocks, 0 ≤ r.2.1 := by
    intro r hr
    simp only [stocks, List.mem_cons, List.not_mem_nil, or_false] at hr
    rcases hr with rfl | rfl | rfl <;> decide
  obtain ⟨hcat, hsts, -⟩ := refines_map hstocks trades
  exact ⟨hsts.trans (by decide), (congrFun hcat 1).trans (by decide)⟩

end SystemSoftware.StockMap
