import SystemSoftware.StockMap
import SystemSoftware.StockRuns

/-!
Saving the stock table in a fresh file and reading it back. The text lists each
node before its subtrees, so that inserting the records in the order of the text
builds every subtree anew: smaller ids come to the left of a node and the others,
equal ones included, to its right.
-/
namespace SystemSoftware.StockRoundTrip

open StockTree StockFile StockRuns StockMap

def insertRecord (t : Stock) (r : Record) : Stock := StockTree.insert t r.1 r.2.1 r.2.2

/-- Smaller ids are to the left of a node, and the others to its right. -/
def Ordered : Stock → Prop
  | .null => True
  | .node id _ _ left right =>
    (∀ r ∈ records left, r.1 < id) ∧ (∀ r ∈ records right, id ≤ r.1) ∧
      Ordered left ∧ Ordered right

section Order

variable {id count price : Int32} {left right : Stock} {rs : List Record}

theorem ordered_insert {t : Stock} (ht : Ordered t) (r : Record) : Ordered (insertRecord t r) := by
  induction t with
  | null => exact ⟨nofun, nofun, trivial, trivial⟩
  | node id count price left right ihl ihr =>
    obtain ⟨hleft, hright, hl, hr⟩ := ht
    unfold insertRecord StockTree.insert
    by_cases hlt : r.1 < id
    · rw [if_pos hlt]
      refine ⟨fun x hx => ?_, hright, ihl hl, hr⟩
      rcases List.mem_cons.mp ((records_insert left r.1 r.2.1 r.2.2).mem_iff.mp hx) with rfl | hx
      · exact hlt
      · exact hleft x hx
    · rw [if_neg hlt]
      refine ⟨hleft, fun x hx => ?_, hl, ihr hr⟩
      rcases List.mem_cons.mp ((records_insert right r.1 r.2.1 r.2.2).mem_iff.mp hx) with rfl | hx
      · exact Int32.not_lt.mp hlt
      · exact hright x hx

theorem ordered_build (rs : List Record) : Ordered (build rs) := by
  have hgen : ∀ t, Ordered t → Ordered (rs.foldl insertRecord t) := by
    induction rs with
    | nil => exact fun t ht => ht
    | cons r rs ih => exact fun t ht => ih _ (ordered_insert ht r)
  exact hgen .null trivial

/-- Records with smaller ids are inserted to the left. -/
theorem foldl_left (h : ∀ r ∈ rs, r.1 < id) :
    rs.foldl insertRecord (.node id count price left right) =
      .node id count price (rs.foldl insertRecord left) right := by
  induction rs generalizing left with
  | nil => rfl
  | cons r rs ih =>
    have hstep : insertRecord (.node id count price left right) r =
        .node id count price (insertRecord left r) right := if_pos (h r List.mem_cons_self)
    rw [List.foldl_cons, hstep, ih fun x hx => h x (List.mem_cons_of_mem r hx)]
    rfl

/-- The others are inserted to the right. -/
theorem foldl_right (h : ∀ r ∈ rs, id ≤ r.1) :
    rs.foldl insertRecord (.node id count price left right) =
      .node id count price left (rs.foldl insertRecord right) := by
  induction rs generalizing right with
  | nil => rfl
  | cons r rs ih =>
    have hstep : insertRecord (.node id count price left right) r =
        .node id count price left (insertRecord right r) :=
      if_neg (Int32.not_lt.mpr (h r List.mem_cons_self))
    rw [List.foldl_cons, hstep, ih fun x hx => h x (List.mem_cons_of_mem r hx)]
    rfl

/-- Inserting the records as they are listed builds the tree again. -/
theorem rebuild {t : Stock} (ht : Ordered t) : (records t).foldl insertRecord .null = t := by
  induction t with
  | null => rfl
  | node id count price left right ihl ihr =>
    obtain ⟨hleft, hright, hl, hr⟩ := ht
    have hroot : insertRecord .null (id, count, price) = .node id count price .null .null := rfl
    rw [records, List.foldl_cons, hroot, List.foldl_append, foldl_left hleft, ihl hl,
      foldl_right hright, ihr hr]

end Order

theorem build_ne_null {rs : List Record} (hrs : rs ≠ []) : build rs ≠ .null := by
  intro hnull
  obtain ⟨r, rs, rfl⟩ := List.exists_cons_of_ne_nil hrs
  have hlook := lookup_build r.1 (r :: rs)
  rw [hnull, List.find?_cons_of_pos (by simp)] at hlook
  cases hlook

/-- What the table's text is read back as. -/
theorem readStockfile_text {t : Stock} (ht : Ordered t) (hne : t ≠ .null)
    (hfits : (text t).length < maxline) (b : Buffers) :
    readStockfile .null (text t) b = some t := by
  have hrecords : records t ≠ [] := by
    cases t with
    | null => exact absurd rfl hne
    | node id count price left right => exact List.cons_ne_nil _ _
  have hwords := words_text t []
  rw [List.append_nil, DecimalText.words_nil, List.append_nil] at hwords
  have hinsert : insertBuffers = fun t b => insertRecord t (readRecord b) := rfl
  rw [readStockfile_eq .null hfits, hwords, groups_records b _ hrecords, hinsert,
    ← List.foldl_map, List.map_map]
  have hback : readRecord ∘ recordWords = id := funext readRecord_recordWords
  rw [hback, List.map_id, rebuild ht]

/-- A table that fits its buffer is read back as it was saved. -/
theorem round_trip {rs : List Record} (hrs : rs ≠ []) (hfits : (text (build rs)).length < maxline)
    (b : Buffers) : ∃ file, printToBuf (build rs) [] = some (.success, file) ∧
      fsyncStockfile (build rs) [] = some file ∧ readStockfile .null file b = some (build rs) := by
  have hne := build_ne_null hrs
  refine ⟨text (build rs), ?_, ?_, readStockfile_text (ordered_build rs) hne hfits b⟩
  · obtain ⟨st, hprint⟩ := printToBuf_eq (build rs) [] (by decide)
    rw [List.length_nil, Nat.zero_add, if_pos hfits, List.nil_append] at hprint
    cases hroot : build rs with
    | null => exact absurd hroot hne
    | node id count price left right =>
      rw [hroot] at hprint
      rw [hprint, printToBuf_node hprint]
  · rw [fsyncStockfile_eq, if_pos hfits, overwrite, List.drop_nil, List.append_nil]

def mixed : List Record := [(5, 1, 2), (-3, -4, 10), (5, 7, -8), (-3, 0, 0), (9, 6, 6)]

theorem round_trip_mixed : ∃ file, printToBuf (build mixed) [] = some (.success, file) ∧
    fsyncStockfile (build mixed) [] = some file ∧
      readStockfile .null file ([], [], []) = some (build mixed) :=
  round_trip (by decide) (by decide) ([], [], [])

end SystemSoftware.StockRoundTrip
