import SystemSoftware.ShellCommands

/-!
The search for a command word of myshell against a scan of the whole table. The
search goes by the first two characters only, but the table is in strict order by
these, so that at most one name can stand in front of a line and the search meets
it. Whatever the line is, the search ends.
-/
namespace SystemSoftware.CommandScan

open DecimalText BinarySearch ShellCommands
open RequestParser (blank spanTo)

def linearScan (line : Text) : Option Command :=
  commandList.find? fun e => e.builtin.name.isPrefixOf line

section Scan

variable {line : Text} {e e' : Command}

theorem nameAt_of_getElem? {i : ℕ} (h : commandList[i]? = some e) : nameAt i = e.builtin.name := by
  rw [nameAt, h]
  rfl

/-- The entries of the table are as `calloc` makes them: only the kind, the name and
the handler are set. -/
theorem entry_eq : ∀ e ∈ commandList,
    newCommand e.f e.builtin.name (if e.f = .function then e.builtin.fp else none) = e := by
  decide

theorem search_entry (he : e ∈ commandList) (hname : e.builtin.name <+: line) :
    ∃ m, commandList[m]? = some e ∧
      search (probe line) (numCommand + 2) 0 numCommand = some (some m) := by
  obtain ⟨m, hlt, hget⟩ := List.mem_iff_getElem.mp he
  have hentry : commandList[m]? = some e := by rw [List.getElem?_eq_getElem hlt, hget]
  refine ⟨m, hentry, search_name (Nat.le_of_lt_succ hlt) ?_⟩
  rw [nameAt_of_getElem? hentry]
  exact List.isPrefixOf_iff_prefix.mpr hname

/-- Only one name of the table can stand in front of a line. -/
theorem entry_unique (he : e ∈ commandList) (hname : e.builtin.name <+: line)
    (he' : e' ∈ commandList) (hname' : e'.builtin.name <+: line) : e = e' := by
  obtain ⟨m, hm, hsearch⟩ := search_entry he hname
  obtain ⟨m', hm', hsearch'⟩ := search_entry he' hname'
  obtain rfl : m = m' := Option.some.inj (Option.some.inj (hsearch.symm.trans hsearch'))
  exact Option.some.inj (hm.symm.trans hm')

theorem linearScan_eq_some_iff :
    linearScan line = some e ↔ e ∈ commandList ∧ e.builtin.name <+: line := by
  have hfound : ∀ {e}, linearScan line = some e → e ∈ commandList ∧ e.builtin.name <+: line := by
    intro e h
    have hname : e.builtin.name.isPrefixOf line = true :=
      List.find?_some (p := fun e : Command => e.builtin.name.isPrefixOf line) h
    exact ⟨List.mem_of_find?_eq_some h, List.isPrefixOf_iff_prefix.mp hname⟩
  refine ⟨hfound, fun ⟨he, hname⟩ => ?_⟩
  have hsome : (linearScan line).isSome = true := by
    rw [linearScan, List.find?_isSome]
    exact ⟨e, he, List.isPrefixOf_iff_prefix.mpr hname⟩
  obtain ⟨e', he'⟩ := Option.isSome_iff_exists.mp hsome
  obtain ⟨hmem, hname'⟩ := hfound he'
  rw [he', entry_unique he hname hmem hname']

theorem linearScan_eq_none_iff :
    linearScan line = none ↔ ∀ e ∈ commandList, ¬ e.builtin.name <+: line := by
  simp only [linearScan, List.find?_eq_none, List.isPrefixOf_iff_prefix]

/-- Where no name is in front, the search ends without an index. -/
theorem search_none (h : linearScan line = none) :
    search (probe line) (numCommand + 2) 0 numCommand = some none := by
  rcases search_ends (probe line) (numCommand + 2) 0 numCommand le_rfl (by decide) (by decide) with
    hnone | ⟨m, -, hle, hprobe⟩
  · exact hnone
  · exfalso
    have hlt : m < commandList.length := by
      have hlen : commandList.length = 30 := rfl
      have hn : numCommand = 29 := rfl
      omega
    have hname : (nameAt m).isPrefixOf line = true := by
      unfold probe at hprobe
      by_contra hno
      simp only [hno, if_false] at hprobe
      split at hprobe <;> split at hprobe <;> cases hprobe
    rw [nameAt_of_getElem? (List.getElem?_eq_getElem hlt), List.isPrefixOf_iff_prefix] at hname
    exact linearScan_eq_none_iff.mp h _ (List.getElem_mem hlt) hname

/-- `find_shell_command` does what a scan of the table would. -/
theorem findShellCommand_scan {c : UInt8} {t : Text} (hc : c ≠ dot) :
    findShellCommand (c :: t) = some (match linearScan (c :: t) with
      | some e => (.ok, (c :: t).drop e.builtin.name.length, some e)
      | none => (.noCommandErr, c :: t, none)) := by
  cases hscan : linearScan (c :: t) with
  | none =>
    simp only [findShellCommand, List.head?_cons, Option.bind_eq_bind, Option.bind_some,
      if_neg hc, search_none hscan]
  | some e =>
    obtain ⟨he, hname⟩ := linearScan_eq_some_iff.mp hscan
    obtain ⟨m, hm, hsearch⟩ := search_entry he hname
    simp only [findShellCommand, List.head?_cons, Option.bind_eq_bind, Option.bind_some,
      if_neg hc, hsearch, hm, entry_eq e he]

/-- A word that begins with a dot is taken up to a blank, a pipe or the newline. -/
theorem findShellCommand_path (t : Text) : findShellCommand (dot :: t) =
    (spanTo endsPath (dot :: t)).map fun x =>
      (.ok, x.2, some (newCommand .relative (strncpy x.1) none)) := by
  simp only [findShellCommand, List.head?_cons, Option.bind_eq_bind, Option.bind_some, if_true]
  cases spanTo endsPath (dot :: t) <;> rfl

/-- The command that is found is a path in front of the line, or the entry of the table. -/
theorem findShellCommand_found {rest : Text} {found : Command}
    (h : findShellCommand line = some (.ok, rest, some found)) :
    (∃ t w, line = dot :: t ∧ found = newCommand .relative (strncpy w) none ∧
      spanTo endsPath line = some (w, rest)) ∨
    line.head? ≠ some dot ∧ linearScan line = some found ∧
      line = found.builtin.name ++ rest := by
  cases line with
  | nil => cases h
  | cons c t =>
    by_cases hdot : c = dot
    · left
      subst hdot
      rw [findShellCommand_path] at h
      obtain ⟨⟨w, rest'⟩, hspan, h⟩ := Option.map_eq_some_iff.mp h
      simp only [Prod.mk.injEq, Option.some.injEq, true_and] at h
      obtain ⟨rfl, rfl⟩ := h
      exact ⟨t, w, rfl, rfl, hspan⟩
    · right
      refine ⟨fun heq => hdot (Option.some.inj heq), ?_⟩
      rw [findShellCommand_scan hdot] at h
      cases hscan : linearScan (c :: t) with
      | none => simp [hscan] at h
      | some e =>
        simp only [hscan, Option.some.injEq, Prod.mk.injEq, true_and] at h
        obtain ⟨rfl, rfl⟩ := h
        obtain ⟨-, hname⟩ := linearScan_eq_some_iff.mp hscan
        exact ⟨rfl, (List.prefix_iff_eq_append.mp hname).symm⟩

end Scan

/-- At any cursor position that is not at a dot, the search finds the entry whose
name is in front, of which there is at most one, or reports that there is none. -/
theorem find_shell_command_agrees {cmdline : Text} {pos : ℕ} (hpos : pos < cmdline.length)
    (hdot : cmdline[pos] ≠ dot) :
    (∀ e ∈ commandList, e.builtin.name <+: cmdline.drop pos ↔ findShellCommand (cmdline.drop pos) =
      some (.ok, cmdline.drop (pos + e.builtin.name.length),
        some (newCommand e.f e.builtin.name e.builtin.fp))) ∧
    ((∀ e ∈ commandList, ¬ e.builtin.name <+: cmdline.drop pos) ↔
      findShellCommand (cmdline.drop pos) = some (.noCommandErr, cmdline.drop pos, none)) ∧
    ∀ e ∈ commandList, ∀ e' ∈ commandList, e.builtin.name <+: cmdline.drop pos →
      e'.builtin.name <+: cmdline.drop pos → e = e' := by
  have hfind := findShellCommand_scan (t := cmdline.drop (pos + 1)) hdot
  rw [← List.drop_eq_getElem_cons hpos] at hfind
  have hcopy : ∀ e ∈ commandList, newCommand e.f e.builtin.name e.builtin.fp = e := by decide
  refine ⟨fun e he => ⟨fun hname => ?_, fun h => ?_⟩, ⟨fun hno => ?_, fun h => ?_⟩, ?_⟩
  · rw [hfind, linearScan_eq_some_iff.mpr ⟨he, hname⟩, hcopy e he, ← List.drop_drop]
  · rw [hcopy e he, hfind] at h
    cases hscan : linearScan (cmdline.drop pos) with
    | none => simp [hscan] at h
    | some e' =>
      simp only [hscan, Option.some.injEq, Prod.mk.injEq, true_and] at h
      obtain ⟨-, hname⟩ := linearScan_eq_some_iff.mp hscan
      exact h.2 ▸ hname
  · rw [hfind, linearScan_eq_none_iff.mpr hno]
  · rw [hfind] at h
    cases hscan : linearScan (cmdline.drop pos) with
    | none => exact linearScan_eq_none_iff.mp hscan
    | some e => simp [hscan] at h
  · exact fun e he e' he' hname hname' => entry_unique he hname he' hname'

theorem find_shell_command_ls : findShellCommand (ascii "ls -l\n") =
    some (.ok, ascii " -l\n", some (newCommand .absolute (ascii "ls") none)) := by
  have hpos : 0 < (ascii "ls -l\n").length := by decide
  have hdot : (ascii "ls -l\n")[0] ≠ dot := (by decide : (108 : UInt8) ≠ dot)
  have hmem : newCommand .absolute (ascii "ls") none ∈ commandList := by decide
  exact ((find_shell_command_agrees hpos hdot).1 _ hmem).mp (by decide)

end SystemSoftware.CommandScan
