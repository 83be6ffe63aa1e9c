import SystemSoftware.ParserTermination

/-!
Which word a command of the table is taken for. The search for a command compares
only as many characters as the name has, and the arguments are read from where the
name ends: a word that goes on behind a name is split there, and its end becomes the
first argument.
-/
namespace SystemSoftware.CommandWords

open DecimalText ShellCommands ShellParser ArgumentScan ParserRounds CommandScan ParserTermination
open RequestParser (blank skipBlanks spanTo)

/-- The command word in front: all characters up to a blank, a pipe, an ampersand or
the newline. -/
def wordOf (start : Text) : Text := start.takeWhile fun c => !endsWord c

def NamesWord (cmd : Command) (start : Text) : Prop :=
  cmd.f ≠ .relative → cmd.builtin.name = wordOf start

/-- Every command of the table that the parser lists is named by the whole word at the
beginning of its stage. -/
def WholeWords (line : Text) : Prop := ∃ s sts, parser line = some s ∧ stagesIn line = some sts ∧
  List.Forall₂ (fun cmd st => NamesWord cmd st.start) s.commands sts

def Apart (start : Text) : Prop :=
  ∀ e ∈ commandList, e.builtin.name <+: start →
    ∀ c ∈ (start.drop e.builtin.name.length).head?, endsWord c = true

section Stage

variable {st : StageRead} {line start : Text} {e : Command}

theorem name_unbroken : ∀ e ∈ commandList, ∀ c ∈ e.builtin.name, endsWord c = false := by
  have hall : (commandList.all fun e => e.builtin.name.all fun c => !endsWord c) = true := by decide
  simpa only [List.all_eq_true, Bool.not_eq_true'] using hall

-- Decided along the table and the line, not over all values of a character.
instance (start : Text) : Decidable (Apart start) :=
  decidable_of_iff ((commandList.all fun e => !e.builtin.name.isPrefixOf start ||
    (start.drop e.builtin.name.length).head?.all endsWord) = true) (by
      simp only [Apart, List.all_eq_true, Bool.or_eq_true, Bool.not_eq_true', Option.all_eq_true,
        ← List.isPrefixOf_iff_prefix, ← Bool.not_eq_true, imp_iff_not_or, Option.mem_def])

theorem entry_listed : ∀ e ∈ commandList, e.f ≠ .relative := by decide

theorem name_not_dot :
    ∀ e ∈ commandList, e.builtin.name.head? ≠ some dot ∧ e.builtin.name ≠ [] := by decide

/-- A name is the whole word exactly when the character behind it ends a word. -/
theorem name_eq_wordOf_iff (he : e ∈ commandList) (hname : e.builtin.name <+: start) :
    e.builtin.name = wordOf start ↔
      ∀ c ∈ (start.drop e.builtin.name.length).head?, endsWord c = true := by
  obtain ⟨rest, rfl⟩ := hname
  have hword : wordOf (e.builtin.name ++ rest) = e.builtin.name ++ wordOf rest := by
    rw [wordOf, List.takeWhile_append_of_pos fun c hc => by simp [name_unbroken e he c hc], wordOf]
  rw [hword, List.drop_left, List.self_eq_append_right]
  cases rest with
  | nil => exact iff_of_true rfl nofun
  | cons c rest =>
    cases hc : endsWord c <;> simp [wordOf, hc]

/-- A stage has the whole word as its name exactly when no name ends inside the word. -/
theorem namesWord_iff (hst : IsRead st) : NamesWord st.cmd st.start ↔ Apart st.start := by
  obtain ⟨⟨behind, hfind, -⟩, -, -⟩ := hst
  have hcmd : st.cmd.f = st.found.f ∧ st.cmd.builtin = st.found.builtin := ⟨rfl, rfl⟩
  rw [NamesWord, hcmd.1, hcmd.2]
  rcases findShellCommand_found hfind with ⟨t, w, hstart, hfound, -⟩ | ⟨-, hscan, -⟩
  · have hpath : st.found.f = .relative := by
      rw [hfound]
      rfl
    refine iff_of_true (fun hno => absurd hpath hno) fun e he hname => ?_
    obtain ⟨hhead, hne⟩ := name_not_dot e he
    obtain ⟨d, u, hcons⟩ := List.exists_cons_of_ne_nil hne
    rw [hcons, hstart, List.cons_prefix_cons] at hname
    rw [hcons, hname.1] at hhead
    exact absurd rfl hhead
  · obtain ⟨he, hname⟩ := linearScan_eq_some_iff.mp hscan
    have hiff := name_eq_wordOf_iff he hname
    refine ⟨fun h e' he' hname' => ?_, fun h _ => hiff.mpr (h _ he hname)⟩
    obtain rfl := entry_unique he hname he' hname'
    exact hiff.mp (h (entry_listed _ he))

/-- The commands of a line are whole words exactly when no stage begins with a name of
the table that goes on with another character of a word. -/
theorem whole_words_iff (h : Terminated line) : WholeWords line ↔
    ∃ sts, stagesIn line = some sts ∧ ∀ st ∈ sts, Apart st.start := by
  obtain ⟨s, hs⟩ := parser_returns h
  obtain ⟨sts, hsts, hread, hcommands⟩ := parser_stages hs
  have hwords : List.Forall₂ (fun cmd st => NamesWord cmd st.start) s.commands sts ↔
      ∀ st ∈ sts, NamesWord st.cmd st.start := by
    rw [hcommands]
    exact forall₂_linkedCommands (P := fun cmd st => NamesWord cmd st.start)
      (fun _ _ _ _ => Iff.rfl) sts
  constructor
  · rintro ⟨s', sts', hs', hsts', hall⟩
    obtain rfl := Option.some.inj (hs.symm.trans hs')
    obtain rfl := Option.some.inj (hsts.symm.trans hsts')
    exact ⟨sts, hsts, fun st hst => (namesWord_iff (hread st hst)).mp (hwords.mp hall st hst)⟩
  · rintro ⟨sts', hsts', hall⟩
    obtain rfl := Option.some.inj (hsts.symm.trans hsts')
    exact ⟨s, sts, hs, hsts, hwords.mpr fun st hst =>
      (namesWord_iff (hread st hst)).mpr (hall st hst)⟩

/-- Names that are followed by a blank, a pipe or the newline. -/
theorem whole_words_pipeline : WholeWords (ascii "cat a|ls\n") := by
  have h : Terminated (ascii "cat a|ls\n") := ⟨ascii "cat a|ls", by decide, by decide⟩
  have hstarts : (stagesIn (ascii "cat a|ls\n")).map (fun sts => sts.map (·.start)) =
      some [ascii "cat a|ls\n", ascii "ls\n"] := by decide
  obtain ⟨sts, hsts, heq⟩ := Option.map_eq_some_iff.mp hstarts
  refine (whole_words_iff h).mpr ⟨sts, hsts, fun st hst => ?_⟩
  have hmem := List.mem_map_of_mem (f := fun st : StageRead => st.start) hst
  rw [heq] at hmem
  have hapart : ∀ start ∈ [ascii "cat a|ls\n", ascii "ls\n"], Apart start := by decide
  exact hapart _ hmem

/-- The word catx is taken for the command cat with the argument x. -/
theorem whole_words_catx : Terminated (ascii "catx\n") ∧ ¬ WholeWords (ascii "catx\n") := by
  refine ⟨⟨ascii "catx", by decide, by decide⟩, ?_⟩
  rintro ⟨s, sts, hs, hsts, hall⟩
  have hname : (parser (ascii "catx\n")).map (fun s => s.commands.map fun cmd =>
      (cmd.f, cmd.builtin.name, cmd.arguments.take 3)) =
        some [(.absolute, ascii "cat", [some (ascii "cat"), some (ascii "x"), none])] := by
    decide
  have hstart : (stagesIn (ascii "catx\n")).map (fun sts => sts.map (·.start)) =
      some [ascii "catx\n"] := by decide
  rw [hs, Option.map_some, Option.some.injEq] at hname
  rw [hsts, Option.map_some, Option.some.injEq] at hstart
  generalize s.commands = commands at hall hname
  cases hall with
  | nil => cases hname
  | @cons cmd st _ _ hfirst _ =>
    have hcmd : cmd.f = .absolute ∧ cmd.builtin.name = ascii "cat" := by
      have hfields := (List.cons.inj hname).1
      exact ⟨(Prod.mk.inj hfields).1, (Prod.mk.inj (Prod.mk.inj hfields).2).1⟩
    have hline : st.start = ascii "catx\n" := (List.cons.inj hstart).1
    have hword := hfirst (by rw [hcmd.1]; decide)
    rw [hcmd.2, hline] at hword
    exact absurd hword (by decide)

end Stage

end SystemSoftware.CommandWords
