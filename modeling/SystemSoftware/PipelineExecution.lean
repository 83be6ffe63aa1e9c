import SystemSoftware.PipelineTables

/-!
From a command line to the processes that execute it: what interpreter and its child do
with the list of the parser, execute_commands in every process that it makes, and
switch_case_cmd in the children. Each stage of a pipeline is executed by one process, with
the words of the stage as its arguments, between the two pipes that it stands between.
-/
namespace SystemSoftware.PipelineExecution

open DecimalText ShellCommands ShellParser PipelineText PipelineTables DescriptorTable
open PipelineWiring
open PipelineCommands (Linked Decodes Reads Holds previousOf nextOf parser_holds linked_range)
open ParserRounds (parser_stages linkedCommands_getElem?)
open CommandScan (findShellCommand_found linearScan_eq_some_iff)

abbrev Arguments := List (Option Text)

/-- What a process does with a command; a call of `execv` that does not fail is the last. -/
inductive Act
  | handle (fp : Handler) (arguments : Arguments)
  | sendContinue
  | execv (path : Text) (arguments : Arguments)
  | complain (text : Text)
  | exit
  deriving DecidableEq

/-- `char bin[20]` and `char usr_bin[23]`. -/
abbrev binSize : ℕ := 20
abbrev usrBinSize : ℕ := 23

section Execute

variable (room : ℕ → ℕ) (runs : Text → Bool)

/-- `execute_function_command`; the handler of `exit` does not return. `none` is an argument
that has no terminator in its block. -/
def executeFunctionCommand (cmd : Command) : Option (List Act) := do
  let fp ← cmd.builtin.fp
  let arguments ← strings room cmd.arguments
  some (.handle fp arguments :: if fp = .exit then [] else [.sendContinue])

/-- `switch_case_cmd` where `execv` finds the programs of these paths; `none` is also a name
that runs over the end of its array. -/
def switchCaseCmd (cmd : Command) : Option (List Act) := do
  match cmd.f with
  | .function =>
    let acts ← executeFunctionCommand room cmd
    some (acts ++ if cmd.builtin.fp = some .exit then [] else [.exit])
  | .absolute =>
    let name ← cmd.name room
    let arguments ← strings room cmd.arguments
    let bin := ascii "/bin/" ++ name
    let usrBin := ascii "/usr/bin/" ++ name
    if binSize ≤ bin.length then none
    else if runs bin then some [.execv bin arguments]
    else if usrBinSize ≤ usrBin.length then none
    else some (.execv bin arguments :: .execv usrBin arguments ::
      if runs usrBin then [] else [.complain (ascii "Executing falied\n"), .exit])
  | .relative =>
    let name ← cmd.name room
    let arguments ← strings room cmd.arguments
    some (.execv name arguments :: if runs name then [] else
      [.complain (ascii "MYSHELL: " ++ name ++ ascii " : No such executable file"), .exit])

end Execute

/-- The command that `interpreter` executes in the shell itself, and the list that it leaves
to its child. -/
structure Interpreted where
  builtin : Option Command
  firstCommand : Option ℕ

def interpreter (s : Parser) : Option Interpreted :=
  match s.firstCommand with
  | none => some ⟨none, none⟩
  | some first => do
    let cmd ← s.commands[first]?
    if cmd.f = .function ∧ s.mode = .foreground ∧ cmd.redirectto = none then
      some ⟨some cmd, cmd.redirectto⟩
    else some ⟨none, some first⟩

/-- How the child goes on: it exits with what it has written, or calls `execute_commands`. -/
inductive Child
  | exits (written : Text)
  | executes
  deriving DecidableEq

/-- The child of `interpreter`. What it writes goes up to the terminator of the text, and a
status that nobody has set has no value. -/
def childOf (status : Option Status) (firstCommand : Option ℕ) : Option Child := do
  let status ← status
  if firstCommand = none then
    some (.exits (if status = .noCommandErr then ascii "No Command Error\n" ++ [0] else []))
  else
    match status with
    | .ok => some .executes
    | .buffering => some (.exits [])
    | .syntaxErr => some (.exits (ascii "Syntax Error\n" ++ [0]))
    | .noCommandErr => some (.exits (ascii "No Command Error\n" ++ [0]))

/-- What becomes of a stage in a process of its own, by its word and its arguments. -/
def acts (runs : Text → Bool) (stage : Stage) : List Act :=
  match commandList.find? (·.builtin.name = stage.word) with
  | none => .execv stage.word stage.vector :: if runs stage.word then [] else
    [.complain (ascii "MYSHELL: " ++ stage.word ++ ascii " : No such executable file"), .exit]
  | some e =>
    match e.builtin.fp with
    | some .exit => [.handle .exit stage.vector]
    | some fp => [.handle fp stage.vector, .sendContinue, .exit]
    | none =>
      .execv (ascii "/bin/" ++ stage.word) stage.vector ::
        if runs (ascii "/bin/" ++ stage.word) then [] else
          .execv (ascii "/usr/bin/" ++ stage.word) stage.vector ::
            if runs (ascii "/usr/bin/" ++ stage.word) then [] else
              [.complain (ascii "Executing falied\n"), .exit]

def Alone (p : Pipeline) : Prop :=
  p.first.flag = .function ∧ p.piped = [] ∧ p.background = none

section Commands

variable {room : ℕ → ℕ} {line : Text} {s : Parser} {cmd : Command} {stage : Stage}
  {runs : Text → Bool}

def Listed (cmd : Command) : Prop :=
  (∃ e ∈ commandList, cmd.f = e.f ∧ cmd.builtin = e.builtin) ∨ cmd.f = .relative

theorem parser_listed (h : parser line = some s) (hcmd : cmd ∈ s.commands) : Listed cmd := by
  obtain ⟨sts, -, hread, hcommands⟩ := parser_stages h
  rw [hcommands] at hcmd
  obtain ⟨i, hi, hget⟩ := List.getElem_of_mem hcmd
  have hlinked := linkedCommands_getElem? (sts.map ParserRounds.StageRead.cmd) i
  rw [List.getElem?_eq_getElem hi, hget] at hlinked
  obtain ⟨found, hfound, rfl⟩ := Option.map_eq_some_iff.mp hlinked.symm
  rw [List.getElem?_map] at hfound
  obtain ⟨st, hst, rfl⟩ := Option.map_eq_some_iff.mp hfound
  obtain ⟨⟨behind, hfind, -⟩, -, -⟩ := hread st (List.mem_of_getElem? hst)
  rcases findShellCommand_found hfind with ⟨t, w, -, hpath, -⟩ | ⟨-, hscan, -⟩
  · exact Or.inr (congrArg Command.f hpath)
  · exact Or.inl ⟨st.found, (linearScan_eq_some_iff.mp hscan).1, rfl, rfl⟩

/-- The names of the programs fit into the arrays for their paths. -/
theorem entry_kinds : ∀ e ∈ commandList, (e.f = .function ∧ e.builtin.fp.isSome) ∨
    (e.f = .absolute ∧ e.builtin.fp = none ∧ e.builtin.name.length ≤ 8) := by decide

/-- A command whose strings are a stage is executed as the stage says. -/
theorem switchCaseCmd_eq (hdec : Decodes cmd stage) (hreads : Reads room cmd stage)
    (hlisted : Listed cmd) : switchCaseCmd room runs cmd = some (acts runs stage) := by
  rcases hlisted with ⟨e, he, hf, hbuiltin⟩ | hpath
  · have hname : stage.word = e.builtin.name :=
      hdec.name.symm.trans (congrArg Builtin.name hbuiltin)
    have hfind : commandList.find? (·.builtin.name = stage.word) = some e := by
      rw [hname]
      exact find_listed e he
    rw [acts, hfind, switchCaseCmd, hf]
    rcases entry_kinds e he with ⟨hfun, hsome⟩ | ⟨habs, hnone, hlen⟩
    · obtain ⟨fp, hfp⟩ := Option.isSome_iff_exists.mp hsome
      simp only [hfun, executeFunctionCommand, hbuiltin, hfp, hreads.arguments,
        Option.bind_eq_bind, Option.bind_some]
      cases fp <;> rfl
    · have hbin : (ascii "/bin/" ++ e.builtin.name).length < binSize := by
        rw [List.length_append, show (ascii "/bin/").length = 5 from rfl]
        simp only [binSize]
        omega
      have husrBin : (ascii "/usr/bin/" ++ e.builtin.name).length < usrBinSize := by
        rw [List.length_append, show (ascii "/usr/bin/").length = 9 from rfl]
        simp only [usrBinSize]
        omega
      simp only [habs, hnone, hreads.name, hname, hreads.arguments, Option.bind_eq_bind,
        Option.bind_some, if_neg (not_le.mpr hbin), if_neg (not_le.mpr husrBin)]
      split <;> rfl
  · have hflag : stage.flag = .relative := hdec.f.symm.trans hpath
    rw [Stage.flag] at hflag
    split at hflag
    · next e hfind =>
      have he := List.mem_of_find?_eq_some hfind
      rcases entry_kinds e he with ⟨hfun, -⟩ | ⟨habs, -⟩
      · rw [hfun] at hflag
        cases hflag
      · rw [habs] at hflag
        cases hflag
    · next hfind =>
      rw [acts, hfind, switchCaseCmd, hpath]
      simp only [hreads.name, hreads.arguments, Option.bind_eq_bind, Option.bind_some]

end Commands

section Processes

variable {F : Type} {commands : List Command} {fork : ℕ → ℤ} {ids : List ℕ}

/-- The process in which the k-th fork is the first that returns 0 executes command k, with
the descriptors of that round. -/
theorem executeLoop_child : ∀ {rounds i k id : ℕ} {previous ptr : Option ℕ} {s : Process F},
    Linked commands previous ptr ids → ids.length < rounds → ids[k]? = some id →
    (∀ j < k, fork (i + j) ≠ 0) → fork (i + k) = 0 →
    ∃ s', executeLoop commands fork rounds i ptr s = some (s', .executes id) ∧
      (PipelineWiring.rounds s.shell i previous ids).1[k]? = some (id, s'.shell.table) := by
  induction ids with
  | nil =>
    intro rounds i k id previous ptr s _ _ hk
    rw [List.getElem?_nil] at hk
    cases hk
  | cons first ids ih =>
    intro rounds i k id previous ptr s hlinked hrounds hk hothers hfork
    obtain ⟨rounds, rfl⟩ := Nat.exists_eq_succ_of_ne_zero
      (Nat.ne_of_gt (Nat.zero_lt_of_lt hrounds))
    obtain ⟨rfl, cmd, hcmd, hfrom, hrest⟩ := hlinked
    rw [executeLoop, hcmd, Option.bind_eq_bind, Option.bind_some]
    cases k with
    | zero =>
      obtain rfl : first = id := Option.some.inj hk
      rw [if_pos (show fork i = 0 from hfork), hfrom, linked_isSome hrest]
      exact ⟨_, rfl, rfl⟩
    | succ k =>
      have hpid : fork i ≠ 0 := hothers 0 (Nat.succ_pos k)
      rw [if_neg hpid]
      have hshift : ∀ j, i + 1 + j = i + (j + 1) := fun j => by omega
      exact ih hrest (Nat.lt_of_succ_lt_succ hrounds) hk
        (fun j hj => by rw [hshift]; exact hothers (j + 1) (Nat.succ_lt_succ hj))
        (by rw [hshift]; exact hfork)

/-- The process in which no fork returns 0 comes back, with a process for each command. -/
theorem executeLoop_leader : ∀ {rounds i : ℕ} {previous ptr : Option ℕ} {s : Process F},
    Linked commands previous ptr ids → ids.length < rounds →
    (∀ j < ids.length, fork (i + j) ≠ 0) →
    ∃ s', executeLoop commands fork rounds i ptr s = some (s', .returned) ∧
      s'.recorded = s.recorded ++ (List.range' i ids.length).map fork := by
  induction ids with
  | nil =>
    intro rounds i previous ptr s hlinked hrounds _
    obtain ⟨rounds, rfl⟩ := Nat.exists_eq_succ_of_ne_zero (Nat.ne_of_gt hrounds)
    rw [show ptr = none from hlinked]
    exact ⟨s, rfl, (List.append_nil _).symm⟩
  | cons first ids ih =>
    intro rounds i previous ptr s hlinked hrounds hforks
    obtain ⟨rounds, rfl⟩ := Nat.exists_eq_succ_of_ne_zero
      (Nat.ne_of_gt (Nat.zero_lt_of_lt hrounds))
    obtain ⟨rfl, cmd, hcmd, hfrom, hrest⟩ := hlinked
    rw [executeLoop, hcmd, Option.bind_eq_bind, Option.bind_some]
    have hpid : fork i ≠ 0 := hforks 0 (Nat.succ_pos _)
    rw [if_neg hpid]
    have hshift : ∀ j, i + 1 + j = i + (j + 1) := fun j => by omega
    obtain ⟨s', hs', hrecorded⟩ := ih (i := i + 1) (s := (s.pipe (i + 1)).parent i (fork i)) hrest
      (Nat.lt_of_succ_lt_succ hrounds)
      (fun j hj => by rw [hshift]; exact hforks (j + 1) (Nat.succ_lt_succ hj))
    have hstored : ((s.pipe (i + 1)).parent i (fork i)).recorded = s.recorded ++ [fork i] := by
      simp only [Process.recorded, Process.pipe, Process.parent, List.filterMap_append,
        List.append_assoc]
      rfl
    refine ⟨s', hs', ?_⟩
    rw [hrecorded, hstored, List.length_cons, List.range'_succ, List.map_cons, List.append_assoc,
      List.singleton_append]

end Processes

section Descriptors

variable {F C : Type} {t : Table (Entry F)} {cmds : List C} {c : C × Table (Entry F)}

/-- The child of round k, by whether there are commands in front of it and behind it. -/
theorem rounds_getElem? (cmds : List C) : ∀ (i k : ℕ) (previous : Option C),
    (rounds (before t i) i previous cmds).1[k]? = cmds[k]?.map fun cmd =>
      (cmd, ((before t (i + k)).pipe (i + k + 1)).child (i + k)
        (previous.isSome || decide (0 < k)) (decide (k + 1 < cmds.length))) := by
  induction cmds with
  | nil => exact fun _ _ _ => rfl
  | cons cmd rest ih =>
    intro i k previous
    rw [rounds_cons]
    cases k with
    | zero => cases rest <;> simp
    | succ k =>
      have hshift : i + 1 + k = i + (k + 1) := by omega
      rw [List.getElem?_cons_succ, ih, List.getElem?_cons_succ, hshift]
      simp

/-- The descriptors of the children of at most three commands: the ends of the two pipes
that a command stands between, and the files of the shell. -/
theorem entry_child (hstd : ∀ d < 3, entry t d ≠ none) (hlen : cmds.length ≤ 3) {k : ℕ}
    (hc : (rounds (before t 0) 0 none cmds).1[k]? = some c) (z : ℕ) :
    entry c.2 z = if z = 0 ∧ 0 < k then some (.readEnd k)
      else if z = 1 ∧ k + 1 < cmds.length then some (.writeEnd (k + 1)) else entry t z := by
  obtain ⟨a, b, c', d, h⟩ := exists_lowest t
  have ha : 2 < a := by
    by_contra hle
    exact hstd a (by omega) (h.free a (Or.inl rfl))
  rw [rounds_getElem?] at hc
  obtain ⟨cmd, hcmd, rfl⟩ := Option.map_eq_some_iff.mp hc
  have hk : k < cmds.length := (List.getElem?_eq_some_iff.mp hcmd).1
  obtain - | - | - | k := k
  · have hchild := (round_zero h ha).2 (decide (0 + 1 < cmds.length)) z
    simpa using hchild
  · have hchild := (round_one h ha).2 (decide (1 + 1 < cmds.length)) z
    simpa using hchild
  · have hchild := (round_two h ha).2 (decide (2 + 1 < cmds.length)) z
    simpa using hchild
  · omega

end Descriptors

section Lines

variable {F : Type} {room : ℕ → ℕ} {s : Parser} {p : Pipeline} {runs : Text → Bool}

theorem foreground_iff (hmode : s.mode = .background ↔ p.background.isSome) :
    s.mode = .foreground ↔ p.background = none := by
  cases hm : s.mode with
  | background =>
    refine iff_of_false (fun h => Mode.noConfusion h) fun h => ?_
    rw [h] at hmode
    cases hmode.mp hm
  | foreground =>
    refine iff_of_true rfl (Option.not_isSome_iff_eq_none.mp fun h => ?_)
    rw [hmode.mpr h] at hm
    cases hm

/-- What `interpreter` makes of the list: a builtin by itself is executed by the shell, and
every other list goes to the child. -/
theorem interpreter_spec (hs : Holds s p.stages)
    (hmode : s.mode = .background ↔ p.background.isSome) :
    ∃ cmd, s.commands[0]? = some cmd ∧ Decodes cmd p.first ∧
      ((Alone p ∧ interpreter s = some ⟨some cmd, none⟩) ∨
        (¬ Alone p ∧ interpreter s = some ⟨none, some 0⟩)) := by
  obtain ⟨cmd, hcmd, hdec, -, hto⟩ := hs.entry 0 p.first rfl
  have hfirst : s.firstCommand = some 0 := by
    rw [hs.first, if_neg (by simp [Pipeline.stages])]
  have hend : cmd.redirectto = none ↔ p.piped = [] := by
    rw [hto, nextOf]
    cases hp : p.piped <;> simp [Pipeline.stages, hp]
  have halone : (cmd.f = .function ∧ s.mode = .foreground ∧ cmd.redirectto = none) ↔ Alone p := by
    rw [hdec.f, foreground_iff hmode, hend, Alone]
    tauto
  refine ⟨cmd, hcmd, hdec, ?_⟩
  rw [interpreter, hfirst]
  simp only [hcmd, Option.bind_eq_bind, Option.bind_some]
  by_cases h : Alone p
  · rw [if_pos (halone.mpr h)]
    exact Or.inl ⟨h, by rw [(halone.mpr h).2.2]⟩
  · rw [if_neg (fun hcond => h (halone.mp hcond))]
    exact Or.inr ⟨h, rfl⟩

/-- A builtin by itself is called with the words of the line. -/
theorem executeFunctionCommand_eq {cmd : Command} (hdec : Decodes cmd p.first)
    (hreads : Reads room cmd p.first) (hlisted : Listed cmd) (halone : Alone p) :
    ∃ e ∈ commandList, e.builtin.name = p.first.word ∧ ∃ fp, e.builtin.fp = some fp ∧
      executeFunctionCommand room cmd =
        some (.handle fp p.first.vector :: if fp = .exit then [] else [.sendContinue]) := by
  have hf : cmd.f = .function := hdec.f.trans halone.1
  rcases hlisted with ⟨e, he, hkind, hbuiltin⟩ | hpath
  · rcases entry_kinds e he with ⟨-, hsome⟩ | ⟨habs, -⟩
    · obtain ⟨fp, hfp⟩ := Option.isSome_iff_exists.mp hsome
      refine ⟨e, he, ?_, fp, hfp, ?_⟩
      · rw [← hbuiltin, hdec.name]
      · rw [executeFunctionCommand, hbuiltin, hfp, hreads.arguments]
        rfl
    · rw [hkind, habs] at hf
      cases hf
  · rw [hpath] at hf
    cases hf

/-- What becomes of a line with a pipeline. A builtin by itself is called by the shell, in
the foreground, and the child has nothing to do. Otherwise the child makes one process for
each stage, which executes it with the words of the stage as its arguments; in pipelines of
up to three stages its descriptors are the two ends it needs and the files of the shell. All
this where the texts of the line have room for their terminators. -/
theorem pipeline_executed {t : Table (Entry F)} (hstd : ∀ d < 3, entry t d ≠ none)
    (p : Pipeline) (runs : Text → Bool) (hfits : ∀ stage ∈ p.stages, stage.Fits room) :
    ∃ s plan, parser p.render = some s ∧ interpreter s = some plan ∧
      (Alone p → childOf s.status plan.firstCommand = some (.exits []) ∧
        ∃ cmd, plan.builtin = some cmd ∧ ∃ e ∈ commandList, e.builtin.name = p.first.word ∧
          ∃ fp, e.builtin.fp = some fp ∧ executeFunctionCommand room cmd =
            some (.handle fp p.first.vector :: if fp = .exit then [] else [.sendContinue])) ∧
      (¬ Alone p → childOf s.status plan.firstCommand = some .executes ∧ plan.builtin = none ∧
        (∀ (fork : ℕ → ℤ) (k : ℕ) (stage : Stage), p.stages[k]? = some stage →
          (∀ j < k, fork j ≠ 0) → fork k = 0 → ∃ proc id cmd,
            executeCommands s.commands fork t plan.firstCommand = some (proc, .executes id) ∧
            s.commands[id]? = some cmd ∧ switchCaseCmd room runs cmd = some (acts runs stage) ∧
            (p.stages.length ≤ 3 → ∀ z, entry proc.shell.table z =
              if z = 0 ∧ 0 < k then some (.readEnd k)
              else if z = 1 ∧ k + 1 < p.stages.length then some (.writeEnd (k + 1))
              else entry t z)) ∧
        ∀ fork : ℕ → ℤ, (∀ j < p.stages.length, fork j ≠ 0) → ∃ proc,
          executeCommands s.commands fork t plan.firstCommand = some (proc, .returned) ∧
          proc.recorded = (List.range p.stages.length).map fork) := by
  obtain ⟨s, hparse, hs, hstatus, hmode⟩ := parser_holds p
  obtain ⟨cmd, hcmd, hdec, ⟨halone, hplan⟩ | ⟨hnot, hplan⟩⟩ := interpreter_spec hs hmode
  · refine ⟨s, _, hparse, hplan, fun _ => ⟨?_, cmd, rfl, ?_⟩, fun h => absurd halone h⟩
    · rw [childOf, hstatus]
      rfl
    · exact executeFunctionCommand_eq hdec (hdec.reads (hfits _ List.mem_cons_self))
        (parser_listed hparse (List.mem_of_getElem? hcmd)) halone
  have hlinked := linked_range hs p.stages.length 0 (Nat.zero_add _)
  rw [if_neg (by simp [Pipeline.stages])] at hlinked
  have hrounds : (List.range' 0 p.stages.length).length < s.commands.length + 1 := by
    rw [List.length_range', hs.length_eq]
    exact Nat.lt_succ_self _
  refine ⟨s, _, hparse, hplan, fun h => absurd h hnot, fun _ => ⟨?_, rfl, ?_, ?_⟩⟩
  · rw [childOf, hstatus]
    rfl
  · intro fork k stage hstage hothers hfork
    have hk : k < p.stages.length := (List.getElem?_eq_some_iff.mp hstage).1
    have hid : (List.range' 0 p.stages.length)[k]? = some k := by
      rw [List.getElem?_range' hk, Nat.zero_add, Nat.one_mul]
    obtain ⟨proc, hproc, htable⟩ := executeLoop_child (i := 0)
      (s := Process.pipe ⟨⟨t, fun _ => (0, 0), 0⟩, List.replicate maxCmd 0, []⟩ 0) hlinked hrounds
      hid (fun j hj => by rw [Nat.zero_add]; exact hothers j hj) (by rw [Nat.zero_add]; exact hfork)
    obtain ⟨cmd', hcmd', hdec', -⟩ := hs.entry k stage hstage
    refine ⟨proc, k, cmd', hproc, hcmd', ?_, fun hlen z => ?_⟩
    · exact switchCaseCmd_eq hdec' (hdec'.reads (hfits _ (List.mem_of_getElem? hstage)))
        (parser_listed hparse (List.mem_of_getElem? hcmd'))
    · have hshort : (List.range' 0 p.stages.length).length ≤ 3 := by rwa [List.length_range']
      have hentry := entry_child hstd hshort htable z
      rwa [List.length_range'] at hentry
  · intro fork hforks
    obtain ⟨proc, hproc, hrecorded⟩ := executeLoop_leader (i := 0)
      (s := Process.pipe ⟨⟨t, fun _ => (0, 0), 0⟩, List.replicate maxCmd 0, []⟩ 0) hlinked hrounds
      (fun j hj => by
        rw [List.length_range'] at hj
        rw [Nat.zero_add]
        exact hforks j hj)
    refine ⟨proc, hproc, ?_⟩
    rw [hrecorded, List.length_range', ← List.range_eq_range']
    rfl

end Lines

def wordStage (word : Text) (h : IsCommandWord word) : Stage := ⟨word, h, [], by decide⟩

def catSort : Pipeline where
  lead := ⟨[], by decide⟩
  first := wordStage (ascii "cat") (Or.inl (by decide))
  piped := [(⟨[space], by decide⟩, ⟨[space], by decide⟩,
    wordStage (ascii "sort") (Or.inl (by decide)))]
  background := none
  trail := ⟨[], by decide⟩

theorem pipeline_executed_cat_sort : ∃ s plan proc id,
    parser (ascii "cat | sort\n") = some s ∧ interpreter s = some plan ∧
    executeCommands s.commands (fun k => if k = 1 then 0 else 7) standard plan.firstCommand =
      some (proc, .executes id) ∧
    entry proc.shell.table 0 = some (.readEnd 1) ∧ entry proc.shell.table 1 = some (.file 1) := by
  have hfits : ∀ stage ∈ catSort.stages, stage.Fits usableSize := by
    intro stage hstage
    rcases List.mem_cons.mp hstage with rfl | hstage
    · exact ⟨by decide, fun _ => by decide⟩
    · rw [List.mem_singleton.mp hstage]
      exact ⟨by decide, fun _ => by decide⟩
  obtain ⟨s, plan, hs, hplan, -, h⟩ := pipeline_executed (t := standard) (by decide) catSort
    (fun _ => true) hfits
  obtain ⟨-, -, hchild, -⟩ := h fun halone => List.cons_ne_nil _ _ halone.2.1
  obtain ⟨proc, id, -, hproc, -, -, htable⟩ := hchild (fun k => if k = 1 then 0 else 7) 1
    (wordStage (ascii "sort") (Or.inl (by decide))) rfl (by decide) rfl
  exact ⟨s, plan, proc, id, hs, hplan, hproc, htable (by decide) 0, htable (by decide) 1⟩

end SystemSoftware.PipelineExecution
