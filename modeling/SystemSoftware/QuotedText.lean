import SystemSoftware.ParserRounds

/-!
A text between double quotes at the end of a command. It is taken as it stands, with
its blanks and ampersands, as long as there is no pipe in it: the scan for the closing
quote gives up at a pipe, and the opening quote is then an argument by itself. No text
with a pipe is ever stored as an argument, and what is stored is read as the text where
its block has room for a terminator.
-/
namespace SystemSoftware.QuotedText

open DecimalText ShellCommands ShellParser PipelineText PipelineCommands ArgumentScan ParserRounds
open CommandScan
open RequestParser (blank skipBlanks spanTo)
open RequestTokens (spanTo_iff)

/-- A command of the table with at most thirteen arguments and behind them a text in
quotes, and the blanks around them. -/
structure QuotedLine where
  lead : Blanks
  entry : Command
  listed : entry ∈ commandList
  arguments : List (Gap × Argument)
  few : arguments.length ≤ 13
  gap : Gap
  content : Text
  unquoted : ∀ c ∈ content, c ≠ dapostrophe ∧ c ≠ newline
  trail : Blanks

def QuotedLine.render (q : QuotedLine) : Text :=
  q.lead.val ++ (q.entry.builtin.name ++ renderArguments q.arguments ++
    (q.gap.val ++ (dapostrophe :: q.content ++ [dapostrophe])) ++ (q.trail.val ++ [newline]))

def argumentsOf (cmd : Command) : List (Option Text) := cmd.arguments.takeWhile Option.isSome

def TakenLiterally (room : ℕ → ℕ) (q : QuotedLine) : Prop := ∃ s cmd bytes,
  parser q.render = some s ∧ s.commands = [cmd] ∧
    (argumentsOf cmd).getLast? = some (some bytes) ∧ cstring room bytes = some q.content

section Stored

variable {room : ℕ → ℕ} {line rest text bytes : Text} {args : Arguments} {st : StageRead}
  {rounds : ℕ}

def Unpiped (text : Text) : Prop := ∀ c ∈ text, c ≠ pipe ∧ c ≠ 0

theorem unpiped_string (hbytes : pipe ∉ bytes) (h : cstring room bytes = some text) :
    Unpiped text := by
  obtain ⟨-, h⟩ := Option.ite_none_right_eq_some.mp h
  obtain rfl := Option.some.inj h
  intro c hc
  have hne : decide (c ≠ 0) = true := List.mem_takeWhile_imp (p := fun c => decide (c ≠ 0)) hc
  refine ⟨fun hpipe => hbytes ?_, of_decide_eq_true hne⟩
  rw [← hpipe]
  exact (List.takeWhile_sublist _).subset hc

theorem unpiped_strncpy {w : Text} (hw : ∀ c ∈ w, c ≠ pipe) : pipe ∉ strncpy w :=
  fun h => hw pipe (List.mem_of_mem_take h) rfl

/-- All scans of an argument stop at a pipe. -/
theorem nextArgument_unpiped (h : nextArgument line = some (.argument text rest)) :
    pipe ∉ text := by
  obtain ⟨c, -, h⟩ := Option.bind_eq_some_iff.mp h
  by_cases hamp : c = ampersand
  · rw [if_pos hamp] at h
    cases h
  rw [if_neg hamp] at h
  by_cases hquote : c = dapostrophe
  · rw [if_pos hquote] at h
    obtain ⟨⟨content, after⟩, hspan, h⟩ := Option.bind_eq_some_iff.mp h
    obtain ⟨-, -, -, -, hcontent, -⟩ := spanTo_iff.mp hspan
    by_cases hclosed : after.head? = some dapostrophe
    · simp only [if_pos hclosed] at h
      obtain ⟨line', -, h⟩ := Option.bind_eq_some_iff.mp h
      rw [← (ArgumentStep.argument.inj (Option.some.inj h)).1]
      refine unpiped_strncpy fun c hc => ?_
      have hstop := hcontent c hc
      simp only [Bool.or_eq_false_iff, decide_eq_false_iff_not] at hstop
      exact hstop.1.2
    · simp only [if_neg hclosed] at h
      obtain ⟨line', -, h⟩ := Option.bind_eq_some_iff.mp h
      rw [← (ArgumentStep.argument.inj (Option.some.inj h)).1]
      decide
  · rw [if_neg hquote] at h
    obtain ⟨⟨w, after⟩, hspan, h⟩ := Option.bind_eq_some_iff.mp h
    obtain ⟨-, -, -, -, hword, -⟩ := spanTo_iff.mp hspan
    by_cases hempty : w = []
    · simp only [if_pos hempty] at h
      cases h
    · simp only [if_neg hempty] at h
      obtain ⟨line', -, h⟩ := Option.bind_eq_some_iff.mp h
      rw [← (ArgumentStep.argument.inj (Option.some.inj h)).1]
      refine unpiped_strncpy fun c hc => ?_
      have hstop := hword c hc
      simp only [endsWord, Bool.or_eq_false_iff, decide_eq_false_iff_not] at hstop
      exact hstop.1.2

theorem readArguments_unpiped (h : readArguments rounds line = some args) :
    ∀ text ∈ args.texts, pipe ∉ text := by
  induction rounds generalizing line args with
  | zero =>
    obtain rfl := Option.some.inj h
    exact fun _ htext => absurd htext List.not_mem_nil
  | succ rounds ih =>
    rw [readArguments] at h
    obtain ⟨step, hstep, h⟩ := Option.bind_eq_some_iff.mp h
    cases step with
    | ampersand | ended =>
      obtain rfl := Option.some.inj h
      exact fun _ htext => absurd htext List.not_mem_nil
    | argument text rest =>
      obtain ⟨args', hargs, h⟩ := Option.bind_eq_some_iff.mp h
      obtain rfl := Option.some.inj h
      exact List.forall_mem_cons.mpr ⟨nextArgument_unpiped hstep, ih hargs⟩

theorem name_unpiped : ∀ e ∈ commandList, pipe ∉ e.builtin.name := by decide

theorem found_unpiped (hst : IsRead st) : pipe ∉ st.found.builtin.name := by
  obtain ⟨⟨behind, hfind, -⟩, -, -⟩ := hst
  rcases findShellCommand_found hfind with ⟨-, w, -, hfound, hspan⟩ | ⟨-, hscan, -⟩
  · obtain ⟨-, -, -, -, hword, -⟩ := spanTo_iff.mp hspan
    rw [hfound]
    refine unpiped_strncpy fun c hc => ?_
    have hstop := hword c hc
    simp only [endsPath, Bool.or_eq_false_iff, decide_eq_false_iff_not] at hstop
    exact hstop.2
  · exact name_unpiped _ (linearScan_eq_some_iff.mp hscan).1

theorem takeWhile_vector (texts : List Text) (k : ℕ) :
    (texts.map some ++ List.replicate k none).takeWhile Option.isSome = texts.map some := by
  rw [List.takeWhile_append_of_pos (by simp)]
  cases k <;> simp [List.replicate_succ]

theorem argumentsOf_cmd (st : StageRead) :
    argumentsOf st.cmd = (st.found.builtin.name :: st.args.texts).map some :=
  takeWhile_vector ..

theorem stored_unpiped (hst : IsRead st) (h : some text ∈ argumentsOf st.cmd) : pipe ∉ text := by
  rw [argumentsOf_cmd, List.mem_map] at h
  obtain ⟨t, ht, heq⟩ := h
  obtain rfl := Option.some.inj heq
  rcases List.mem_cons.mp ht with rfl | ht
  · exact found_unpiped hst
  · exact readArguments_unpiped hst.args _ ht

end Stored

section Line

/-- The stage that a text without pipes makes. -/
def QuotedLine.stage (q : QuotedLine) (h : ∀ c ∈ q.content, quotable c = true) : Stage where
  word := q.entry.builtin.name
  isCommandWord := Or.inl ⟨q.entry, q.listed, rfl⟩
  arguments := q.arguments ++ [(q.gap, .quoted q.content h)]
  few := by
    rw [List.length_append, List.length_singleton]
    exact Nat.succ_le_succ q.few

/-- Where there is no pipe between the quotes, the line is a pipeline of one stage, and the
text is stored. -/
theorem stored_content (q : QuotedLine) (h : Unpiped q.content) : ∃ s cmd,
    parser q.render = some s ∧ s.commands = [cmd] ∧
      (argumentsOf cmd).getLast? = some (some q.content) := by
  have hquotable : ∀ c ∈ q.content, quotable c = true := fun c hc =>
    quotable_iff.mpr ⟨(q.unquoted c hc).1, (h c hc).1, (q.unquoted c hc).2, (h c hc).2⟩
  have hlast := fun n => @parserLoop_last _ _ n holds_initial rfl
    q.lead (q.stage hquotable) ⟨q.lead, q.stage hquotable, [], none, q.trail⟩
  obtain ⟨s, hs, -, -, hloop⟩ := hlast (q.render.length - 1)
  have hrender : q.lead.val ++ ((q.stage hquotable).render ++
      Pipeline.ending ⟨q.lead, q.stage hquotable, [], none, q.trail⟩) = q.render := by
    simp [QuotedLine.stage, Stage.render, Pipeline.ending, QuotedLine.render, renderArguments,
      Argument.render]
  have hpos : 0 < q.render.length := by simp [QuotedLine.render]
  have htexts : (q.stage hquotable).texts =
      q.entry.builtin.name :: q.arguments.map (·.2.text) ++ [q.content] := by
    simp only [Stage.texts, QuotedLine.stage, List.map_append, List.map_cons, List.map_nil,
      List.cons_append, Argument.text]
  obtain ⟨cmd, hcmd, hdec, -⟩ := hs.entry 0 _ rfl
  refine ⟨s, cmd, ?_, ?_, ?_⟩
  · rw [hrender, (by omega : q.render.length - 1 + 2 = q.render.length + 1)] at hloop
    exact hloop
  · obtain ⟨first, hfirst⟩ := List.length_eq_one_iff.mp hs.length_eq
    rw [hfirst] at hcmd ⊢
    rw [Option.some.inj hcmd]
  · rw [argumentsOf, hdec.arguments, Stage.vector, takeWhile_vector, htexts, List.map_append]
    exact List.getLast?_concat

theorem unpiped_of_taken {room : ℕ → ℕ} {q : QuotedLine} (h : TakenLiterally room q) :
    Unpiped q.content ∧ q.content.length < room q.content.length := by
  obtain ⟨s, cmd, bytes, hs, hcommands, hlast, hstring⟩ := h
  obtain ⟨sts, -, hread, heq⟩ := parser_stages hs
  have hlen := congrArg List.length heq
  rw [length_linkedCommands, List.length_map, hcommands] at hlen
  obtain ⟨st, rfl⟩ := List.length_eq_one_iff.mp hlen.symm
  have hcmd : cmd.arguments = st.cmd.arguments := by
    rw [List.cons.inj (hcommands.symm.trans heq) |>.1]
  have hstored : some bytes ∈ argumentsOf st.cmd := by
    rw [argumentsOf, ← hcmd]
    exact List.mem_of_getLast? hlast
  have hunpiped := unpiped_string
    (stored_unpiped (hread st (List.mem_singleton_self st)) hstored) hstring
  -- nothing but the text can have been stored then
  obtain ⟨s', cmd', hs', hcommands', hlast'⟩ := stored_content q hunpiped
  obtain rfl : s = s' := Option.some.inj (hs.symm.trans hs')
  obtain rfl : cmd = cmd' := (List.cons.inj (hcommands.symm.trans hcommands')).1
  obtain rfl : bytes = q.content :=
    Option.some.inj (Option.some.inj (hlast.symm.trans hlast'))
  exact ⟨hunpiped, ((cstring_eq_some_iff fun h => (hunpiped 0 h).2 rfl).mp hstring).2⟩

/-- The text is taken literally exactly when it has no pipe and there is room for a terminator
behind it. -/
theorem quoted_literal_iff (room : ℕ → ℕ) (q : QuotedLine) : TakenLiterally room q ↔
    (∀ c ∈ q.content, c ≠ pipe ∧ c ≠ 0) ∧ q.content.length < room q.content.length := by
  refine ⟨unpiped_of_taken, fun h => ?_⟩
  obtain ⟨hunpiped, hroom⟩ := h
  obtain ⟨s, cmd, hs, hcommands, hlast⟩ := stored_content q hunpiped
  exact ⟨s, cmd, _, hs, hcommands, hlast,
    (cstring_eq_some_iff fun h => (hunpiped 0 h).2 rfl).mpr ⟨rfl, hroom⟩⟩

theorem exists_cat {content : Text} (h : ∀ c ∈ content, c ≠ dapostrophe ∧ c ≠ newline) :
    ∃ q : QuotedLine, q.content = content ∧
      q.render = ascii "cat " ++ (dapostrophe :: content ++ [dapostrophe, newline]) :=
  ⟨⟨⟨[], nofun⟩, newCommand .absolute (ascii "cat") none, by decide, [], by decide,
    ⟨ascii " ", by decide, by decide⟩, content, h, ⟨[], nofun⟩⟩, rfl, by
      simp [QuotedLine.render, renderArguments, newCommand, ascii]⟩

/-- A text with a pipe, for every allocator, and one of 24 characters for that of glibc. -/
theorem quoted_pipe : (∃ q : QuotedLine, q.render = ascii "cat \"a|b\"\n" ∧
      ∀ room, ¬ TakenLiterally room q) ∧
    ∃ q : QuotedLine, q.render = ascii "cat \"aaaaaaaaaaaaaaaaaaaaaaaa\"\n" ∧
      ¬ TakenLiterally usableSize q := by
  constructor
  · obtain ⟨q, hcontent, hrender⟩ := exists_cat (by decide +kernel : ∀ c ∈ ascii "a|b", _)
    refine ⟨q, hrender.trans (by decide), fun room h => ?_⟩
    exact ((unpiped_of_taken h).1 pipe (by rw [hcontent]; decide)).1 rfl
  · obtain ⟨q, hcontent, hrender⟩ :=
      exists_cat (by decide +kernel : ∀ c ∈ ascii "aaaaaaaaaaaaaaaaaaaaaaaa", _)
    refine ⟨q, hrender.trans (by decide), fun h => ?_⟩
    exact absurd (unpiped_of_taken h).2 (by rw [hcontent]; decide)

end Line

end SystemSoftware.QuotedText
