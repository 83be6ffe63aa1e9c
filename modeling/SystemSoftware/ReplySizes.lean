import SystemSoftware.SessionService
import SystemSoftware.StockRecords
import Mathlib.Algebra.BigOperators.Group.List.Basic
import Mathlib.Data.Nat.Digits.Lemmas

/-!
How long the texts are that the event-driven stock server builds in buffers of
MAXLINE bytes: the table that `print_to_buf` appends to `cmd.result`, the reply
that `execute` assembles and the text that `fsync_stockfile` saves. None of these
functions looks at a size. The width of a table is the sum of the widths of its
ints in decimal and of three separators for each record, and nothing bounds the
number of records that a stock file may have.
-/
namespace SystemSoftware.ReplySizes

open DecimalText StockTree StockFile RequestParser ConnectionPool
open StockRuns (readRecord records_foldl fsyncStockfile_eq)
open SessionService (showHead statusText_short)

def decimalWidth (x : Int32) : ℕ :=
  (if x.toInt < 0 then 1 else 0) + (Nat.log 10 x.toInt.natAbs + 1)

def recordWidth (r : Record) : ℕ :=
  decimalWidth r.1 + decimalWidth r.2.1 + decimalWidth r.2.2 + 3

def fileWidth (b : Buffers) (file : Text) : ℕ :=
  ((groups b (words file)).map fun g => recordWidth (readRecord g)).sum

/-- The texts that are built for a command, each with its terminator, fit MAXLINE. -/
structure RepliesFit (s : Server) (cmd : Command) (connfd : Int) (idx : ℕ) (file : Text) :
    Prop where
  result : (printToBuf s.root []).isSome = true
  reply : (execute s cmd connfd idx).isSome = true
  saved : (fsyncStockfile s.root file).isSome = true

section Width

theorem length_printNat (n : ℕ) : (printNat n).length = Nat.log 10 n + 1 := by
  unfold printNat
  split
  · next hn => rw [hn, Nat.log_zero_right]; rfl
  · next hn =>
    rw [List.length_reverse, List.length_map, Nat.length_digits 10 n (by norm_num) hn]

theorem length_printInt (x : Int32) : (printInt x).length = decimalWidth x := by
  unfold printInt decimalWidth
  split
  · rw [List.length_cons, length_printNat, Nat.add_comm]
  · rw [length_printNat, Nat.zero_add]

theorem length_line (id count price : Int32) :
    (line id count price).length = recordWidth (id, count, price) := by
  simp only [line, recordWidth, List.length_append, List.length_cons, List.length_nil,
    length_printInt]
  omega

theorem length_text (t : Stock) : (text t).length = ((records t).map recordWidth).sum := by
  rw [text, List.length_flatMap]
  congr 1
  exact List.map_congr_left fun r _ => length_line r.1 r.2.1 r.2.2

/-- The table that is read from a file has the width of the records inserted. -/
theorem length_text_read {file : Text} {b : Buffers} {root : Stock}
    (hroot : (groups b (words file)).foldl insertBuffers .null = root) :
    (text root).length = fileWidth b file := by
  have hperm := records_foldl (groups b (words file)) .null
  rw [hroot, records, List.append_nil] at hperm
  rw [length_text, (hperm.map recordWidth).sum_eq, List.map_map, fileWidth]
  rfl

end Width

section Replies

variable {s : Server} {cmd : Command} {connfd : Int} {idx : ℕ} {root : Stock} {file : Text}

theorem printToBuf_isSome_iff (root : Stock) :
    (printToBuf root []).isSome = true ↔ (text root).length < maxline := by
  obtain ⟨st, hprint⟩ := printToBuf_eq root [] (by decide)
  rw [hprint, List.length_nil, Nat.zero_add]
  by_cases hfits : (text root).length < maxline <;> simp [hfits]

theorem fsyncStockfile_isSome_iff (root : Stock) (file : Text) :
    (fsyncStockfile root file).isSome = true ↔ (text root).length < maxline := by
  rw [fsyncStockfile_eq]
  by_cases hfits : (text root).length < maxline <;> simp [hfits]

/-- A handler that leaves `cmd.result` empty has a short reply. -/
theorem execute_short {s' : Server} {st : Status} (hname : cmd.name.length ≤ 4)
    (hrun : runHandler s cmd connfd idx = some (s', st, [])) :
    (execute s cmd connfd idx).isSome = true := by
  obtain ⟨res, hres, hlen⟩ := statusText_short hname st
  simp only [execute, hrun, hres, Option.bind_eq_bind, Option.bind_some]
  rw [strcat_of_lt (by simpa using hlen)]
  rfl

/-- `show` needs room for the table behind its status. -/
theorem execute_show (hfp : cmd.fp = .show) (hname : cmd.name = ascii "show")
    (hroot : s.root ≠ .null) : (execute s cmd connfd idx).isSome = true ↔
      showHead.length + (text s.root).length < maxline := by
  obtain ⟨st, hprint⟩ := printToBuf_eq s.root [] (by decide)
  rw [List.length_nil, Nat.zero_add, List.nil_append] at hprint
  have hhead : statusText (ascii "show") .success = some showHead := by decide
  by_cases htext : (text s.root).length < maxline
  · rw [if_pos htext] at hprint
    obtain rfl : st = .success := by
      cases hr : s.root with
      | null => exact absurd hr hroot
      | node id count price left right =>
        rw [hr] at hprint
        exact printToBuf_node hprint
    simp only [execute, runHandler, hfp, hname, hprint, hhead, Option.bind_eq_bind,
      Option.bind_some, strcat]
    by_cases hfits : showHead.length + (text s.root).length < maxline
    · simp [hfits]
    · simp [hfits]
  · rw [if_neg htext] at hprint
    simp only [execute, runHandler, hfp, hprint, Option.bind_eq_bind, Option.bind_none,
      Option.isSome_none, Bool.false_eq_true, false_iff]
    omega

theorem execute_isSome_iff (s : Server) (connfd : Int) (idx : ℕ) (hcmd : Selected cmd)
    (hroot : s.root ≠ .null) : (execute s cmd connfd idx).isSome = true ↔
      (cmd.fp = .show → showHead.length + (text s.root).length < maxline) := by
  rcases hcmd.cases with ⟨hfp, hname⟩ | ⟨hfp, hflag, hname⟩ | ⟨hfp, hname⟩
  · rw [execute_show hfp hname hroot]
    simp [hfp]
  · obtain ⟨a, b, ha, hb⟩ := hcmd.args hflag
    have hrun : ∃ s' st, runHandler s cmd connfd idx = some (s', st, []) := by
      rcases hfp with hfp | hfp <;>
      · simp only [runHandler, hfp, ha, hb, Option.bind_eq_bind, Option.bind_some]
        exact ⟨_, _, rfl⟩
    obtain ⟨s', st, hrun⟩ := hrun
    rcases hfp with hfp | hfp <;> simp [execute_short hname hrun, hfp]
  · have hrun : ∃ s' st, runHandler s cmd connfd idx = some (s', st, []) := by
      simp only [runHandler, hfp]
      exact ⟨_, _, rfl⟩
    obtain ⟨s', st, hrun⟩ := hrun
    simp [execute_short (by rw [hname]; decide) hrun, hfp]

/-- The texts fit exactly when the records of the file do, behind the status of `show`
where that is the command. -/
theorem replies_fit_iff (hwords : ∀ w ∈ words file, w.length < maxline) (b : Buffers) {buf : Text}
    {rc : Int} {cmd₀ : Command} (hparse : parser buf rc cmd₀ = some (.success, cmd)) (s : Server)
    (connfd : Int) (idx : ℕ) : ∃ root, readStockfile .null file b = some root ∧
      (RepliesFit { s with root := root } cmd connfd idx file ↔
        fileWidth b file + (if cmd.fp = .show then showHead.length else 0) < maxline) := by
  refine ⟨_, readLoop_eq _ _ _ _ le_rfl hwords, ?_⟩
  generalize hroot : (groups b (words file)).foldl insertBuffers .null = root
  have hlen := length_text_read hroot
  have hne : root ≠ .null := by
    rintro rfl
    have hperm := (records_foldl (groups b (words file)) .null).length_eq
    rw [hroot, List.length_append, List.length_map, StockRecords.length_groups_eq] at hperm
    simp only [records, List.length_nil, Nat.add_zero] at hperm
    split at hperm
    · cases hperm
    · next hnil =>
      have hpos := List.length_pos_of_ne_nil hnil
      omega
  have hcmd : Selected cmd := by
    rcases parser_decoded hparse with h | h | h | ⟨-, h⟩
    · cases h
    · cases h
    · cases h
    · exact h
  have hresult := printToBuf_isSome_iff root
  have hreply := execute_isSome_iff { s with root := root } connfd idx hcmd hne
  have hsaved := fsyncStockfile_isSome_iff root file
  rw [hlen] at hresult hreply hsaved
  by_cases hshow : cmd.fp = .show
  · rw [if_pos hshow]
    refine ⟨fun h => ?_, fun h => ⟨hresult.mpr (by omega), hreply.mpr fun _ => by omega,
      hsaved.mpr (by omega)⟩⟩
    have hfits := hreply.mp h.reply hshow
    omega
  · rw [if_neg hshow]
    refine ⟨fun h => hresult.mp h.result, fun h => ⟨hresult.mpr h, hreply.mpr fun hfp => ?_,
      hsaved.mpr h⟩⟩
    exact absurd hfp hshow

def idle : Server := ⟨3, initPool 3, fun _ => ⟨[], .connected, false, [], []⟩, .null⟩

theorem replies_fit_show : ∃ cmd, parser (ascii "show\n") 5 clearCommand = some (.success, cmd) ∧
    ∃ root, readStockfile .null (ascii "1 10 5\n") ([], [], []) = some root ∧
      RepliesFit { idle with root := root } cmd 4 0 (ascii "1 10 5\n") := by
  have hparse : parser (ascii "show\n") 5 clearCommand = some (.success,
      ⟨.noargs, ascii "show", Function.update (fun _ => none) 0 (some []), 1, .show⟩) := rfl
  have hwords : ∀ w ∈ words (ascii "1 10 5\n"), w.length < maxline := by decide
  obtain ⟨root, hread, hiff⟩ := replies_fit_iff hwords ([], [], []) hparse idle 4 0
  exact ⟨_, hparse, root, hread, hiff.mpr (by decide)⟩

end Replies

section Crowded

variable {rs : List Record}

def lines (rs : List Record) : Text := rs.flatMap fun r => line r.1 r.2.1 r.2.2

theorem words_lines (rs : List Record) :
    words (lines rs) = rs.flatMap fun r => [printInt r.1, printInt r.2.1, printInt r.2.2] := by
  induction rs with
  | nil => rfl
  | cons r rs ih =>
    rw [lines, List.flatMap_cons, StockRuns.words_line, ← lines, ih]
    rfl

theorem fileWidth_lines (hrs : rs ≠ []) (b : Buffers) :
    fileWidth b (lines rs) = (rs.map recordWidth).sum := by
  rw [fileWidth, words_lines, StockRuns.groups_records b rs hrs, List.map_map]
  congr 1
  apply List.map_congr_left
  intro r _
  rw [Function.comp_apply, StockRuns.readRecord_recordWords]

def crowded : Text := lines (List.replicate 228 (-2147483648, -2147483648, -2147483648))

/-- They fit none of the buffers. -/
theorem replies_overflow : (∀ w ∈ words crowded, w.length < maxline) ∧
    ∃ root, readStockfile .null crowded ([], [], []) = some root ∧ printToBuf root [] = none ∧
      fsyncStockfile root crowded = none ∧
      ∃ cmd, parser (ascii "show\n") 5 clearCommand = some (.success, cmd) ∧
        execute { idle with root := root } cmd 4 0 = none := by
  have hwords : ∀ w ∈ words crowded, w.length < maxline := by
    intro w hw
    rw [crowded, words_lines, List.mem_flatMap] at hw
    obtain ⟨r, hr, hw⟩ := hw
    rw [List.eq_of_mem_replicate hr] at hw
    have hshort : (printInt (-2147483648)).length < maxline := by decide
    simp only [List.mem_cons, List.not_mem_nil, or_false, or_self] at hw
    rwa [hw]
  refine ⟨hwords, _, readLoop_eq _ _ _ _ le_rfl hwords, ?_⟩
  generalize hroot : (groups ([], [], []) (words crowded)).foldl insertBuffers .null = root
  have hwidth : fileWidth ([], [], []) crowded = 8208 := by
    rw [crowded, fileWidth_lines (by decide), List.map_replicate, List.sum_replicate]
    decide
  have hlen := (length_text_read hroot).trans hwidth
  have hover : ¬ (text root).length < maxline := by
    rw [hlen]
    decide
  have hprint : printToBuf root [] = none := by
    rw [← Option.not_isSome_iff_eq_none, printToBuf_isSome_iff]
    exact hover
  have hparse : parser (ascii "show\n") 5 clearCommand = some (.success,
      ⟨.noargs, ascii "show", Function.update (fun _ => none) 0 (some []), 1, .show⟩) := rfl
  refine ⟨hprint, ?_, _, hparse, ?_⟩
  · rw [← Option.not_isSome_iff_eq_none, fsyncStockfile_isSome_iff]
    exact hover
  · simp only [execute, runHandler, hprint, Option.bind_eq_bind, Option.bind_none]

end Crowded

end SystemSoftware.ReplySizes
