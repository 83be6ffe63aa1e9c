import SystemSoftware.ParserRounds

/-!
The parser of myshell ends inside the line. All its loops stop at the newline at
the latest: the comparison with a name because no name contains one, the scan for a
closing quote because it looks for the newline too. A round that does not return has
taken a command word, so that the line of the next round is shorter.
-/
namespace SystemSoftware.ParserTermination

open DecimalText BinarySearch ShellCommands ShellParser ArgumentScan ParserRounds CommandScan
open RequestParser (blank skipBlanks spanTo)

/-- `strncmp` of a name with the line, which reads up to the first difference; `none`
reads on behind the line. -/
def comparePrefix : Text → Text → Option Bool
  | [], _ => some true
  | _ :: _, [] => none
  | a :: name, b :: line => if a = b then comparePrefix name line else some false

/-- A round of the search for the command word, with the characters that it reads. -/
def probeRead (cmdline : Text) (mid : ℕ) : Option Ordering := do
  let name := nameAt mid
  let c := charVal (← cmdline[0]?) - charVal (name.getD 0 0)
  if c = 0 then
    if ← comparePrefix name cmdline then some .eq
    else if 0 < charVal (← cmdline[1]?) - charVal (name.getD 1 0) then some .gt
    else some .lt
  else if 0 < c then some .gt
  else some .lt

section Search

variable {line name : Text} {mid : ℕ}

theorem comparePrefix_eq (hname : newline ∉ name) (hline : newline ∈ line) :
    comparePrefix name line = some (name.isPrefixOf line) := by
  induction name generalizing line with
  | nil => rfl
  | cons a name ih =>
    cases line with
    | nil => cases hline
    | cons b line =>
      rw [comparePrefix]
      by_cases hab : a = b
      · subst hab
        rw [List.mem_cons, not_or] at hname
        have hrest : newline ∈ line := (List.mem_cons.mp hline).resolve_left hname.1
        rw [if_pos rfl, ih hname.2 hrest, List.isPrefixOf, beq_self_eq_true, Bool.true_and]
      · rw [if_neg hab, List.isPrefixOf, beq_false_of_ne hab, Bool.false_and]

theorem newline_notMem_nameAt : ∀ mid ≤ numCommand, newline ∉ nameAt mid := by decide

/-- In front of the newline, a round of the search reads nothing behind it. -/
theorem probeRead_eq (hline : newline ∈ line) (hhead : line.head? ≠ some newline)
    (hmid : mid ≤ numCommand) : probeRead line mid = some (probe line mid) := by
  obtain ⟨c, t, rfl⟩ := List.exists_cons_of_ne_nil (List.ne_nil_of_mem hline)
  have hc : c ≠ newline := fun heq => hhead (congrArg some heq)
  obtain ⟨d, t, rfl⟩ : ∃ d u, t = d :: u := by
    have hmem : newline ∈ t := (List.mem_cons.mp hline).resolve_left hc.symm
    exact List.exists_cons_of_ne_nil (List.ne_nil_of_mem hmem)
  have hcompare := comparePrefix_eq (newline_notMem_nameAt mid hmid) hline
  simp only [probeRead, probe, List.getElem?_cons_zero, List.getElem?_cons_succ,
    Option.bind_eq_bind, Option.bind_some, hcompare, List.getD_cons_zero, List.getD_cons_succ]
  split
  · split
    · rfl
    · split <;> rfl
  · split <;> rfl

end Search

section Rounds

variable {line : Text}

theorem name_spec : ∀ e ∈ commandList, newline ∉ e.builtin.name ∧ 0 < e.builtin.name.length := by
  decide

/-- The search ends, and a command word that is found is taken off the line. -/
theorem findShellCommand_total (h : Terminated line) (hhead : line.head? ≠ some newline) :
    findShellCommand line = some (.noCommandErr, line, none) ∨ ∃ rest cmd,
      findShellCommand line = some (.ok, rest, some cmd) ∧ Terminated rest ∧ rest <:+ line ∧
        rest.length < line.length := by
  obtain ⟨c, t, rfl⟩ := List.exists_cons_of_ne_nil h.ne_nil
  by_cases hdot : c = dot
  · subst hdot
    obtain ⟨w, d, r, hspan, heq, hd⟩ := h.spanTo endsPath (by decide)
    have hw : w ≠ [] := by
      rintro rfl
      rw [← (List.cons.inj heq).1] at hd
      exact absurd hd (by decide)
    have hsuffix : d :: r <:+ dot :: t := heq ▸ List.suffix_append ..
    refine Or.inr ⟨d :: r, newCommand .relative (strncpy w) none, ?_,
      h.of_suffix hsuffix (List.cons_ne_nil _ _), hsuffix, ?_⟩
    · rw [findShellCommand_path, hspan, Option.map_some]
    · have hpos := List.length_pos_of_ne_nil hw
      rw [heq, List.length_append]
      omega
  · have hscan := findShellCommand_scan (t := t) hdot
    cases hfind : linearScan (c :: t) with
    | none =>
      rw [hfind] at hscan
      exact Or.inl hscan
    | some e =>
      rw [hfind] at hscan
      obtain ⟨he, rest, heq⟩ := linearScan_eq_some_iff.mp hfind
      obtain ⟨hnewline, hpos⟩ := name_spec e he
      have hdrop : (c :: t).drop e.builtin.name.length = rest := by rw [← heq, List.drop_left]
      simp only [hdrop] at hscan
      have hne : rest ≠ [] := by
        rintro rfl
        obtain ⟨u, hu, -⟩ := h
        rw [List.append_nil] at heq
        rw [heq, hu] at hnewline
        simp at hnewline
      have hsuffix : rest <:+ c :: t := heq ▸ List.suffix_append ..
      refine Or.inr ⟨rest, e, hscan, h.of_suffix hsuffix hne, hsuffix, ?_⟩
      rw [← heq, List.length_append]
      omega

theorem endStage_total (st : StageRead) (h : Terminated st.rest) : ∃ o, endStage st = some o ∧
    ∀ rest ∈ o.next, Terminated rest ∧ rest <:+ st.rest := by
  obtain ⟨c, r, hrest⟩ := List.exists_cons_of_ne_nil h.ne_nil
  rw [hrest] at h
  simp only [endStage, hrest, List.head?_cons, List.tail_cons, Option.bind_eq_bind,
    Option.bind_some]
  by_cases hamp : c = ampersand
  · subst hamp
    obtain ⟨d, r', hskip, -⟩ := (h.tail (by decide)).skipBlanks
    simp only [if_true, hskip, Option.bind_some, List.head?_cons]
    refine ⟨_, rfl, ?_⟩
    rintro _ ⟨⟩
  · rw [if_neg hamp]
    by_cases hpipe : c = pipe
    · subst hpipe
      refine ⟨.piped st, if_pos rfl, ?_⟩
      rintro _ ⟨⟩
      rw [hrest]
      exact ⟨h.tail (by decide), List.suffix_cons ..⟩
    · refine ⟨.further st, if_neg hpipe, ?_⟩
      rintro _ ⟨⟩
      rw [hrest]
      exact ⟨h, List.suffix_refl _⟩

/-- A round ends inside the line, and the next one has a shorter line. -/
theorem readRound_total (h : Terminated line) : ∃ o, readRound line = some o ∧
    ∀ rest ∈ o.next, Terminated rest ∧ rest <:+ line ∧ rest.length < line.length := by
  obtain ⟨c, t, hskip, -, hstart⟩ := h.skipBlanks
  simp only [readRound, hskip, Option.bind_eq_bind, Option.bind_some, List.head?_cons]
  by_cases hc : c = newline
  · refine ⟨.ended, if_pos hc, ?_⟩
    rintro _ ⟨⟩
  rw [if_neg hc, readStage]
  have hterm := h.of_suffix hstart (List.cons_ne_nil _ _)
  rcases findShellCommand_total hterm (by simpa using hc) with hnone |
    ⟨behind, cmd, hfind, hbehind, hsuffix, hlt⟩
  · rw [hnone]
    refine ⟨.unknown, rfl, ?_⟩
    rintro _ ⟨⟩
  · obtain ⟨d, t', hcall, -, hcalled⟩ := hbehind.skipBlanks
    obtain ⟨args, hargs, hrest, hne⟩ :=
      readArguments_total (maxArgs - 1) (hbehind.of_suffix hcalled (List.cons_ne_nil _ _))
    have hargsTerm := (hbehind.of_suffix hcalled (List.cons_ne_nil _ _)).of_suffix hrest hne
    obtain ⟨e, t'', hskip', -, hrest'⟩ := hargsTerm.skipBlanks
    obtain ⟨o, hend, hnext⟩ := endStage_total ⟨c :: t, cmd, d :: t', args, e :: t''⟩
      (hargsTerm.of_suffix hrest' (List.cons_ne_nil _ _))
    simp only [hfind, hcall, hargs, hskip', Option.bind_eq_bind, Option.bind_some]
    refine ⟨o, hend, fun rest hmem => ?_⟩
    obtain ⟨hterm', hsuffix'⟩ := hnext rest hmem
    have hbelow := ((hsuffix'.trans hrest').trans hrest).trans hcalled
    refine ⟨hterm', (hbelow.trans hsuffix).trans hstart, ?_⟩
    have hle := hbelow.length_le
    have hle' := hstart.length_le
    omega

/-- With a round for every character and one more the line is read to its end. -/
theorem readRounds_total (n : ℕ) : ∀ {line : Text}, Terminated line → line.length ≤ n →
    ∃ os, ∀ rounds, n < rounds → readRounds rounds line = some os := by
  induction n with
  | zero =>
    intro line h hlen
    exact absurd (List.eq_nil_of_length_eq_zero (Nat.le_zero.mp hlen)) h.ne_nil
  | succ n ih =>
    intro line h hlen
    obtain ⟨o, ho, hnext⟩ := readRound_total h
    cases hn : o.next with
    | none =>
      refine ⟨[o], fun rounds hlt => ?_⟩
      obtain ⟨rounds, rfl⟩ := Nat.exists_eq_succ_of_ne_zero (Nat.ne_of_gt (Nat.zero_lt_of_lt hlt))
      simp only [readRounds, ho, hn, Option.bind_eq_bind, Option.bind_some]
    | some rest =>
      obtain ⟨hterm, -, hlt⟩ := hnext rest hn
      obtain ⟨os, hos⟩ := ih hterm (by omega)
      refine ⟨o :: os, fun rounds hrounds => ?_⟩
      obtain ⟨rounds, rfl⟩ :=
        Nat.exists_eq_succ_of_ne_zero (Nat.ne_of_gt (Nat.zero_lt_of_lt hrounds))
      simp only [readRounds, ho, hn, Option.bind_eq_bind, Option.bind_some, hos rounds (by omega),
        Option.map_some]

/-- The stages of a line are ends of it from a command word on. -/
theorem readRounds_starts {rounds : ℕ} {os : List Outcome} (h : Terminated line)
    (hos : readRounds rounds line = some os) : ∀ st ∈ stagesOf os,
    IsRead st ∧ Terminated st.start ∧ st.start <:+ line ∧ st.start.head? ≠ some newline := by
  induction rounds generalizing line os with
  | zero => cases hos
  | succ rounds ih =>
    obtain ⟨o, os', ho, rfl, hnext⟩ := readRounds_succ hos
    intro st hst
    rcases mem_stagesOf_cons.mp hst with hst | hst
    · obtain ⟨hskip, hhead, hread⟩ := readRound_isRead ho hst
      obtain ⟨b, d, t, rfl, hstart, -, -⟩ := RequestTokens.skipBlanks_iff.mp hskip
      have hsuffix : st.start <:+ b ++ d :: t := hstart ▸ List.suffix_append ..
      have hne : st.start ≠ [] := hstart ▸ List.cons_ne_nil _ _
      exact ⟨hread, h.of_suffix hsuffix hne, hsuffix, hhead⟩
    · obtain ⟨-, rfl⟩ | ⟨rest, hn, hos'⟩ := hnext
      · cases hst
      · obtain ⟨o', ho', hall⟩ := readRound_total h
        obtain rfl := Option.some.inj (ho.symm.trans ho')
        obtain ⟨hterm, hsuffix, -⟩ := hall rest hn
        obtain ⟨hread, hstart, hbelow, hhead⟩ := ih hterm hos' st hst
        exact ⟨hread, hstart, hbelow.trans hsuffix, hhead⟩

/-- The arguments of a stage are looked for in the rest of its line. -/
theorem call_terminated {st : StageRead} (hst : IsRead st) (h : Terminated st.start)
    (hhead : st.start.head? ≠ some newline) : Terminated st.call := by
  obtain ⟨⟨behind, hfind, hskip⟩, -⟩ := hst
  rcases findShellCommand_total h hhead with hnone | ⟨rest, cmd, hsome, hrest, -⟩
  · rw [hnone] at hfind
    cases hfind
  · obtain rfl : rest = behind := (Prod.mk.inj (Prod.mk.inj (Option.some.inj
      (hsome.symm.trans hfind))).2).1
    obtain ⟨c, r, hcall, -, hsuffix⟩ := hrest.skipBlanks
    rw [Option.some.inj (hskip.symm.trans hcall)]
    exact hrest.of_suffix hsuffix (List.cons_ne_nil _ _)

end Rounds

/-- The parser with its variables as they are at the call. -/
def called : Parser := ⟨[], none, none, none, .foreground, none⟩

/-- The parser returns after at most a round for each character, every round is the
reading of an outcome inside the line, the line of a further round is a shorter end of
it, and no comparison of the search reads behind the line. -/
structure StaysInside (line : Text) : Prop where
  returns : ∃ s, parser line = some s ∧
    ∀ rounds, line.length < rounds → parserLoop rounds called line = some s
  advances : ∀ rest, rest <:+ line → rest ≠ [] → ∃ o, readRound rest = some o ∧
    (∀ rounds s, parserLoop (rounds + 1) s rest =
      match o.next with
      | none => some (advance s o)
      | some rest => parserLoop rounds (advance s o) rest) ∧
    ∀ rest' ∈ o.next, rest' <:+ rest ∧ rest'.length < rest.length
  search : ∀ rest, rest <:+ line → rest ≠ [] → rest.head? ≠ some newline →
    ∀ mid ≤ numCommand, probeRead rest mid = some (probe rest mid)

/-- Every line that ends with its first newline is parsed inside it. -/
theorem parser_stays_inside {line : Text} (h : Terminated line) : StaysInside line := by
  obtain ⟨os, hos⟩ := readRounds_total line.length h le_rfl
  have hloop : ∀ rounds, line.length < rounds →
      parserLoop rounds called line = some (os.foldl advance called) := by
    intro rounds hlt
    rw [parserLoop_eq, hos rounds hlt, Option.map_some]
  refine ⟨⟨_, hloop _ (Nat.lt_succ_self _), hloop⟩, fun rest hrest hne => ?_,
    fun rest hrest hne hhead mid hmid => ?_⟩
  · obtain ⟨o, ho, hnext⟩ := readRound_total (h.of_suffix hrest hne)
    refine ⟨o, ho, fun rounds s => ?_, fun rest' hmem => (hnext rest' hmem).2⟩
    exact (parserLoop_succ rounds s rest).trans (congrArg (Option.bind · _) ho)
  · obtain ⟨u, hu, -⟩ := h.of_suffix hrest hne
    exact probeRead_eq (by rw [hu]; simp) hhead hmid

theorem parser_returns {line : Text} (h : Terminated line) : ∃ s, parser line = some s := by
  obtain ⟨os, hos⟩ := readRounds_total line.length h le_rfl
  exact ⟨_, by rw [parser_eq, hos _ (Nat.lt_succ_self _), Option.map_some]⟩

/-- A quote that is not closed, a pipe between two others and an empty last stage. -/
theorem parser_stays_inside_stray : StaysInside (ascii "cat \"a | | \" |\n") :=
  parser_stays_inside ⟨ascii "cat \"a | | \" |", by decide, by decide⟩

end SystemSoftware.ParserTermination
