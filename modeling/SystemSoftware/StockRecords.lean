import SystemSoftware.StockRuns

/-!
Which records `read_stockfile` finds in a file. The loop looks at neither the
result of `fscanf` nor the number of words that are left, so that it inserts one
record more than the file has whenever the last round does not read three words:
in a file without words, and behind one or two words that are left over. What is
missing in such a round is taken from the round before.
-/
namespace SystemSoftware.StockRecords

open DecimalText StockTree StockFile StockRuns

/-- The groups of three words; one or two words left over make no group. -/
def triples : List Text → List Buffers
  | x :: y :: z :: ws => (x, y, z) :: triples ws
  | _ => []

section Groups

variable {b : Buffers} {ws : List Text}

theorem length_triples (ws : List Text) : (triples ws).length = ws.length / 3 := by
  induction ws using triples.induct with
  | case1 x y z ws ih =>
    rw [triples, List.length_cons, ih]
    simp only [List.length_cons]
    omega
  | case2 ws hshort =>
    have hlt : ws.length < 3 := by
      match ws with
      | [] | [x] | [x, y] => simp
      | x :: y :: z :: ws => exact absurd rfl (hshort x y z ws)
    rw [Nat.div_eq_of_lt hlt]
    unfold triples
    split
    · exact absurd rfl (hshort _ _ _ _)
    · rfl

/-- The rounds of the loop: one for each group, a last one that is not full, and one
for a file without words. -/
theorem length_groups_eq (b : Buffers) (ws : List Text) :
    (groups b ws).length = if ws = [] then 1 else (ws.length + 2) / 3 := by
  induction b, ws using groups.induct with
  | case1 | case2 | case3 | case4 => simp [groups]
  | case5 b x y z w ws ih =>
    rw [if_neg (List.cons_ne_nil _ _)] at ih ⊢
    rw [groups, List.length_cons, ih]
    simp only [List.length_cons]
    omega

/-- Full groups only: every round reads its own three words. -/
theorem groups_full (b : Buffers) (ws : List Text) (hne : ws ≠ []) (hfull : ws.length % 3 = 0) :
    groups b ws = triples ws := by
  induction b, ws using groups.induct with
  | case1 => exact absurd rfl hne
  | case2 | case3 => simp at hfull
  | case4 => rfl
  | case5 b x y z w ws ih =>
    rw [groups, triples, ih (List.cons_ne_nil _ _)]
    simp only [List.length_cons] at hfull ⊢
    omega

end Groups

section Read

variable {file : Text}

/-- `read_stockfile` inserts the records of a file and nothing else exactly when the
file has a word and its words can be grouped by three. -/
theorem reads_records_iff (hwords : ∀ w ∈ words file, w.length < maxline) (root : Stock)
    (b : Buffers) :
    readStockfile root file b = some ((triples (words file)).foldl insertBuffers root) ↔
      words file ≠ [] ∧ (words file).length % 3 = 0 := by
  have hread : readStockfile root file b =
      some ((groups b (words file)).foldl insertBuffers root) := readLoop_eq _ _ _ _ le_rfl hwords
  rw [hread, Option.some.injEq]
  constructor
  · intro heq
    -- Every insertion adds a record, so that the tables tell the rounds.
    have hgroups := (records_foldl (groups b (words file)) root).length_eq
    have htriples := (records_foldl (triples (words file)) root).length_eq
    rw [heq, htriples] at hgroups
    simp only [List.length_append, List.length_map, length_triples, length_groups_eq] at hgroups
    by_cases hnil : words file = []
    · simp [hnil] at hgroups
    · rw [if_neg hnil] at hgroups
      exact ⟨hnil, by omega⟩
  · rintro ⟨hne, hfull⟩
    rw [groups_full b _ hne hfull]

theorem reads_records_two : readStockfile .null (ascii "1 10 5\n2 20 6") ([], [], []) =
    some (.node 1 10 5 .null (.node 2 20 6 .null .null)) := by
  have hwords : ∀ w ∈ words (ascii "1 10 5\n2 20 6"), w.length < maxline := by decide
  rw [(reads_records_iff hwords .null ([], [], [])).mpr (by decide)]
  decide

/-- An empty file is read as one record, and a word left over as a record with the
count and the price of the one before. -/
theorem reads_more :
    readStockfile .null [] ([], [], []) = some (.node 0 0 0 .null .null) ∧
    readStockfile .null [] ([], [], []) ≠ some ((triples (words [])).foldl insertBuffers .null) ∧
    readStockfile .null (ascii "1 10 5\n7\n") ([], [], []) =
      some (.node 1 10 5 .null (.node 7 10 5 .null .null)) ∧
    readStockfile .null (ascii "1 10 5\n7\n") ([], [], []) ≠
      some ((triples (words (ascii "1 10 5\n7\n"))).foldl insertBuffers .null) := by
  decide

end Read

end SystemSoftware.StockRecords
