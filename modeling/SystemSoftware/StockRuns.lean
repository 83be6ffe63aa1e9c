import SystemSoftware.StockFile

/-!
Runs of the stock server over its stock file. `fsync_stockfile` opens the file
without truncating it, so that what stood behind the new text is still read
back as a further record. The records survive a run when every text fits its
buffer and the last one leaves nothing but white space behind it.
-/
namespace SystemSoftware.StockRuns

open DecimalText StockTree StockFile

structure Server where
  root : Stock
  file : Text
  deriving DecidableEq

inductive Op
  | modify (id count : Int32)
  | fsync

def step (s : Server) : Op → Option Server
  | .modify id count => some { s with root := (modify s.root id count).1 }
  | .fsync => do
    let file ← fsyncStockfile s.root s.file
    some { s with file := file }

def run (s : Server) (ops : List Op) : Option Server := ops.foldlM step s

def isInt (w : Text) : Bool :=
  let (negative, digits) := readSign w
  !digits.isEmpty && digits.all isDigit &&
    decide (readNat digits ≤ if negative then 2 ^ 31 else 2 ^ 31 - 1)

structure WellFormed (file : Text) : Prop where
  fits : file.length < maxline
  records : (words file).length ≠ 0 ∧ (words file).length % 3 = 0
  ints : ∀ w ∈ words file, isInt w = true

/-- After the operations and a last `fsync_stockfile`, `read_stockfile` finds the
records of the table in the file. -/
def Persists (b : Buffers) (s : Server) (ops : List Op) : Prop :=
  ∃ s' root, run s (ops ++ [.fsync]) = some s' ∧ readStockfile .null s'.file b = some root ∧
    (records root).Perm (records s'.root)

/-- Every text that is saved fits its buffer, and behind the last one the file
holds white space only. -/
def SavesCleanly : Server → List Op → Prop
  | s, [] => (text s.root).length < maxline ∧
      (s.file.drop (text s.root).length).all isSpace = true
  | s, .modify id count :: ops => SavesCleanly { s with root := (modify s.root id count).1 } ops
  | s, .fsync :: ops => (text s.root).length < maxline ∧
      SavesCleanly { s with file := overwrite s.file (text s.root) } ops

theorem fsyncStockfile_eq (root : Stock) (file : Text) : fsyncStockfile root file =
    if (text root).length < maxline then some (overwrite file (text root)) else none := by
  obtain ⟨st, hprint⟩ := printToBuf_eq root [] (by decide)
  rw [List.length_nil, Nat.zero_add, List.nil_append] at hprint
  rw [fsyncStockfile, hprint]
  split <;> rfl

section Text

def recordWords (r : Record) : Buffers := (printInt r.1, printInt r.2.1, printInt r.2.2)

def readRecord (b : Buffers) : Record := (atoi b.1, atoi b.2.1, atoi b.2.2)

theorem readRecord_recordWords (r : Record) : readRecord (recordWords r) = r := by
  simp only [readRecord, recordWords, atoi_printInt]

theorem words_line (id count price : Int32) (u : Text) : words (line id count price ++ u) =
    printInt id :: printInt count :: printInt price :: words u := by
  have hword : ∀ (x : Int32) (c : UInt8) (v : Text), isSpace c = true →
      words (printInt x ++ c :: v) = printInt x :: words v := fun x c v hc =>
    words_word (printInt_ne_nil x) (printInt_no_space x) v hc
  have hline : line id count price ++ u = printInt id ++ space :: (printInt count ++
      space :: (printInt price ++ newline :: u)) := by
    simp [line]
  rw [hline, hword _ _ _ (by decide), hword _ _ _ (by decide), hword _ _ _ (by decide)]

/-- The words of the table's text, with anything behind it. -/
theorem words_text (t : Stock) (u : Text) : words (text t ++ u) =
    ((records t).flatMap fun r => [printInt r.1, printInt r.2.1, printInt r.2.2]) ++ words u := by
  unfold text
  induction records t with
  | nil => rfl
  | cons r rs ih =>
    rw [List.flatMap_cons, List.append_assoc, words_line, ih]
    rfl

theorem groups_records (b : Buffers) : ∀ rs : List Record, rs ≠ [] →
    groups b (rs.flatMap fun r => [printInt r.1, printInt r.2.1, printInt r.2.2]) =
      rs.map recordWords := by
  intro rs
  induction rs generalizing b with
  | nil => exact fun h => absurd rfl h
  | cons r rs ih =>
    intro _
    cases rs with
    | nil => rfl
    | cons r' rs =>
      have hrec := ih (recordWords r) (List.cons_ne_nil _ _)
      simp only [List.flatMap_cons, List.map_cons, List.cons_append, List.nil_append] at hrec ⊢
      rw [← hrec]
      rfl

/-- Every group takes at most three words. -/
theorem length_groups (b : Buffers) (ws : List Text) : ws.length ≤ 3 * (groups b ws).length := by
  induction b, ws using groups.induct with
  | case1 | case2 | case3 | case4 => simp [groups]
  | case5 b x y z w ws ih =>
    simp only [groups, List.length_cons] at ih ⊢
    omega

theorem records_foldl (bs : List Buffers) : ∀ root : Stock,
    (records (bs.foldl insertBuffers root)).Perm (bs.map readRecord ++ records root) := by
  induction bs with
  | nil => exact fun root => List.Perm.refl _
  | cons b bs ih =>
    intro root
    rw [List.foldl_cons, List.map_cons, List.cons_append]
    refine (ih _).trans ?_
    exact ((records_insert root _ _ _).append_left _).trans List.perm_middle

end Text

section Save

variable {s : Server} {b : Buffers}

theorem readStockfile_eq (root : Stock) {file : Text} (hfile : file.length < maxline)
    (b : Buffers) :
    readStockfile root file b = some ((groups b (words file)).foldl insertBuffers root) :=
  readLoop_eq _ _ _ _ le_rfl fun _ hw => Nat.lt_of_le_of_lt (length_of_mem_words hw) hfile

/-- A file is read as one insertion at least. -/
theorem readStockfile_ne_null {file : Text} {root : Stock} (hfile : file.length < maxline)
    (h : readStockfile .null file b = some root) : root ≠ .null := by
  rw [readStockfile_eq _ hfile, Option.some.injEq] at h
  have hperm := records_foldl (groups b (words file)) .null
  rw [h] at hperm
  rintro rfl
  have hlen := hperm.length_eq
  have hgroups : (groups b (words file)).length ≠ 0 := by
    unfold groups
    split <;> simp
  simp only [records, List.append_nil, List.length_nil, List.length_map] at hlen
  exact hgroups hlen.symm

theorem length_overwrite (file buf : Text) :
    (overwrite file buf).length = max buf.length file.length := by
  simp only [overwrite, List.length_append, List.length_drop]
  omega

/-- What is read back from a saved text and the rest of the old file behind it. -/
theorem reread_iff (hroot : s.root ≠ .null) (hfile : s.file.length < maxline)
    (hfits : (text s.root).length < maxline) :
    (∃ root, readStockfile .null (overwrite s.file (text s.root)) b = some root ∧
      (records root).Perm (records s.root)) ↔
        (s.file.drop (text s.root).length).all isSpace = true := by
  have hne : records s.root ≠ [] := by
    cases hr : s.root with
    | null => exact absurd hr hroot
    | node id count price left right => exact List.cons_ne_nil _ _
  have hlen : (overwrite s.file (text s.root)).length < maxline := by
    rw [length_overwrite]
    omega
  have hread := readStockfile_eq .null hlen b
  have hperm := records_foldl (groups b (words (overwrite s.file (text s.root)))) .null
  rw [records, List.append_nil] at hperm
  rw [overwrite, words_text] at hread hperm
  rw [overwrite, hread]
  have hrest : words (s.file.drop (text s.root).length) = [] ↔
      (s.file.drop (text s.root).length).all isSpace = true := by
    rw [words_eq_nil_iff, List.dropWhile_eq_nil_iff, List.all_eq_true]
  rw [← hrest]
  constructor
  · rintro ⟨root, heq, hroot'⟩
    rw [Option.some.injEq] at heq
    subst heq
    -- More words than those of the records make more groups.
    have hlen := (hperm.symm.trans hroot').length_eq
    have hgroups := length_groups b (((records s.root).flatMap fun r =>
      [printInt r.1, printInt r.2.1, printInt r.2.2]) ++
        words (s.file.drop (text s.root).length))
    have hthree : ((records s.root).flatMap fun r =>
        [printInt r.1, printInt r.2.1, printInt r.2.2]).length = 3 * (records s.root).length := by
      induction records s.root with
      | nil => rfl
      | cons r rs ih =>
        simp only [List.flatMap_cons, List.length_append, List.length_cons, List.length_nil, ih]
        omega
    rw [List.length_map] at hlen
    rw [List.length_append, hthree, hlen] at hgroups
    exact List.eq_nil_of_length_eq_zero (by omega)
  · intro hnil
    refine ⟨_, rfl, ?_⟩
    rw [hnil, List.append_nil, groups_records b _ hne, List.map_map] at hperm
    rw [hnil, List.append_nil, groups_records b _ hne]
    have hback : readRecord ∘ recordWords = id := funext readRecord_recordWords
    rwa [hback, List.map_id] at hperm

theorem persists_iff_of_booted (ops : List Op) : ∀ s : Server, s.root ≠ .null →
    s.file.length < maxline → (Persists b s ops ↔ SavesCleanly s ops) := by
  induction ops with
  | nil =>
    intro s hroot hfile
    have hrun : run s ([] ++ [.fsync]) = step s .fsync := by
      simp only [run, List.nil_append, List.foldlM_cons, List.foldlM_nil]
      cases step s .fsync <;> rfl
    simp only [Persists, SavesCleanly, hrun, step, fsyncStockfile_eq]
    by_cases hfits : (text s.root).length < maxline
    · rw [if_pos hfits, ← reread_iff (b := b) hroot hfile hfits]
      simp [hfits]
    · simp [hfits]
  | cons op ops ih =>
    intro s hroot hfile
    have hrun : ∀ t, step s op = some t → (Persists b s (op :: ops) ↔ Persists b t ops) := by
      intro t ht
      simp only [Persists, run, List.cons_append, List.foldlM_cons, ht, Option.bind_eq_bind,
        Option.bind_some]
    cases op with
    | modify id count =>
      have hroot' : (modify s.root id count).1 ≠ .null := modify_ne_null hroot
      exact (hrun _ rfl).trans (ih ⟨(modify s.root id count).1, s.file⟩ hroot' hfile)
    | fsync =>
      rw [SavesCleanly]
      by_cases hfits : (text s.root).length < maxline
      · have hstep : step s .fsync = some { s with file := overwrite s.file (text s.root) } := by
          rw [step, fsyncStockfile_eq, if_pos hfits]
          rfl
        have hlen : (overwrite s.file (text s.root)).length < maxline := by
          rw [length_overwrite]
          omega
        rw [hrun _ hstep, ih ⟨s.root, overwrite s.file (text s.root)⟩ hroot hlen]
        exact (and_iff_right hfits).symm
      · have hstep : step s .fsync = none := by
          rw [step, fsyncStockfile_eq, if_neg hfits]
          rfl
        have hnone : ¬ Persists b s (.fsync :: ops) := by
          rintro ⟨s', root, hbad, -⟩
          simp [run, List.cons_append, List.foldlM_cons, hstep] at hbad
        exact iff_of_false hnone fun h => hfits h.1

end Save

/-- The records survive exactly the runs that save cleanly. -/
theorem persists_iff {file : Text} (hfile : WellFormed file) (b b' : Buffers) (ops : List Op) :
    ∃ root, readStockfile .null file b = some root ∧
      (Persists b' ⟨root, file⟩ ops ↔ SavesCleanly ⟨root, file⟩ ops) := by
  have hread := readStockfile_eq .null hfile.fits b
  exact ⟨_, hread, persists_iff_of_booted ops _ (readStockfile_ne_null hfile.fits hread) hfile.fits⟩

/-- A count that gains a digit: the new text covers the old one. -/
theorem persists_longer :
    Persists ([], [], []) ⟨.node 1 99 5 .null .null, ascii "1 99 5\n"⟩ [.modify 1 1] := by
  have hfile : WellFormed (ascii "1 99 5\n") :=
    ⟨by decide, by decide, by decide⟩
  obtain ⟨root, hread, hiff⟩ := persists_iff hfile ([], [], []) ([], [], []) [.modify 1 1]
  have hroot : root = .node 1 99 5 .null .null := by
    apply Option.some.inj
    rw [← hread]
    decide
  rw [hroot] at hiff
  exact hiff.mpr ⟨by decide, by decide⟩

/-- A count that loses digits: the end of the old text is read as a second record. -/
theorem persists_shorter : WellFormed (ascii "1 100 5\n") ∧
    readStockfile .null (ascii "1 100 5\n") ([], [], []) = some (.node 1 100 5 .null .null) ∧
    ¬ Persists ([], [], []) ⟨.node 1 100 5 .null .null, ascii "1 100 5\n"⟩ [.modify 1 (-95)] := by
  refine ⟨⟨by decide, by decide, by decide⟩, by decide, ?_⟩
  rintro ⟨s', root, hrun, hread, hperm⟩
  have hs' : s' = ⟨.node 1 5 5 .null .null, ascii "1 5 5\n5\n"⟩ := by
    apply Option.some.inj
    rw [← hrun]
    decide
  subst hs'
  have hroot : root = .node 1 5 5 .null (.node 5 5 5 .null .null) := by
    apply Option.some.inj
    rw [← hread]
    decide
  rw [hroot] at hperm
  exact absurd hperm.length_eq (by decide)

end SystemSoftware.StockRuns
