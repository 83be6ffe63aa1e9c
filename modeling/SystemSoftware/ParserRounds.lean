import SystemSoftware.ArgumentScan
import SystemSoftware.PipelineCommands
import SystemSoftware.CommandScan

/-!
The parser of myshell round by round. What a round of its loop reads from the line
does not depend on the commands so far, so that a line is first read into a list of
outcomes and the commands, the links, the mode and the status are built from that
list. The commands of the list are linked in both directions in their order, for
every line that is read to its end.
-/
namespace SystemSoftware.ParserRounds

open DecimalText ShellCommands ShellParser ArgumentScan
open RequestParser (blank skipBlanks spanTo)
open PipelineCommands (previousOf nextOf Linked)

/-- A stage as it is read: the line from its command word on, the command that
`find_shell_command` makes, the line from the first argument on, the arguments and
the line behind the blanks behind them. -/
structure StageRead where
  start : Text
  found : Command
  call : Text
  args : Arguments
  rest : Text
  deriving DecidableEq

def StageRead.cmd (st : StageRead) : Command := st.args.fill st.found

/-- What a round of the parser meets: the end of the line, a word that is no command, or
a stage. Behind a stage with an ampersand the line should end. -/
inductive Outcome
  | ended
  | unknown
  | background (st : StageRead) (clean : Bool)
  | piped (st : StageRead)
  | further (st : StageRead)
  deriving DecidableEq

namespace Outcome

def stage? : Outcome → Option StageRead
  | ended | unknown => none
  | background st _ | piped st | further st => some st

def next : Outcome → Option Text
  | ended | unknown | background _ _ => none
  | piped st => some st.rest.tail
  | further st => some st.rest

def status (status : Option Status) : Outcome → Option Status
  | ended => status
  | unknown => some .noCommandErr
  | background _ clean => some (if clean then .ok else .syntaxErr)
  | piped _ => some .buffering
  | further _ => some .ok

def mode (mode : Mode) : Outcome → Mode
  | background _ _ => .background
  | _ => mode

end Outcome

def readStage (start : Text) : Option (Option StageRead) := do
  match ← findShellCommand start with
  | (.ok, line, some found) => do
    let call ← skipBlanks line
    let args ← readArguments (maxArgs - 1) call
    let rest ← skipBlanks args.rest
    some (some ⟨start, found, call, args, rest⟩)
  | _ => some none

/-- What stands behind a stage. -/
def endStage (st : StageRead) : Option Outcome := do
  let c ← st.rest.head?
  if c = ampersand then
    let line ← skipBlanks st.rest.tail
    some (.background st ((← line.head?) = newline))
  else if c = pipe then some (.piped st)
  else some (.further st)

def readRound (line : Text) : Option Outcome := do
  let line ← skipBlanks line
  if (← line.head?) = newline then some .ended
  else
    match ← readStage line with
    | none => some .unknown
    | some st => endStage st

def advance (s : Parser) (o : Outcome) : Parser :=
  let s := { s with status := o.status s.status, mode := o.mode s.mode }
  match o.stage? with
  | none => s
  | some st => link s st.cmd

def readRounds : ℕ → Text → Option (List Outcome)
  | 0, _ => none
  | rounds + 1, line => do
    let o ← readRound line
    match o.next with
    | none => some [o]
    | some rest => (readRounds rounds rest).map (o :: ·)

section Find

variable {line rest : Text} {r : Status × Text × Option Command} {cmd : Command}

/-- The search gives a fresh command, or reports that there is none. -/
theorem findShellCommand_cases (h : findShellCommand line = some r) :
    (∃ rest f name fp, r = (.ok, rest, some (newCommand f name fp))) ∨
      ∃ rest, r = (.noCommandErr, rest, none) := by
  simp only [findShellCommand, Option.bind_eq_bind, Option.bind_eq_some_iff] at h
  obtain ⟨c, -, h⟩ := h
  split at h
  · obtain ⟨⟨name, rest⟩, -, h⟩ := Option.bind_eq_some_iff.mp h
    exact Or.inl ⟨_, _, _, _, (Option.some.inj h).symm⟩
  · obtain ⟨m, -, h⟩ := Option.bind_eq_some_iff.mp h
    cases m with
    | none => exact Or.inr ⟨_, (Option.some.inj h).symm⟩
    | some m =>
      obtain ⟨e, -, h⟩ := Option.bind_eq_some_iff.mp h
      exact Or.inl ⟨_, _, _, _, (Option.some.inj h).symm⟩

/-- The new command stands behind the others, with a link back. -/
theorem link_getElem? (s : Parser) (hfrom : cmd.redirectfrom = none) :
    (link s cmd).commands[s.commands.length]? =
      some { cmd with redirectfrom := s.previousCommand } := by
  rw [link]
  cases s.previousCommand with
  | none =>
    rw [List.getElem?_append_right le_rfl, Nat.sub_self, ← hfrom]
    rfl
  | some p =>
    rw [List.getElem?_append_right (by rw [List.length_modify]), List.length_modify, Nat.sub_self]
    rfl

/-- Filling the new command in its place. -/
theorem link_fill (s : Parser) (args : Arguments) (hfrom : cmd.redirectfrom = none) :
    (link s cmd).commands.set s.commands.length
      (args.fill { cmd with redirectfrom := s.previousCommand }) =
        (link s (args.fill cmd)).commands := by
  rw [link, link]
  cases s.previousCommand with
  | none =>
    have hcmd : { cmd with redirectfrom := none } = cmd := by rw [← hfrom]
    simp only [hcmd, List.set_append_right _ _ le_rfl, Nat.sub_self, List.set_cons_zero]
  | some p =>
    have hlen : (s.commands.modify p fun c =>
        { c with redirectto := some s.commands.length }).length = s.commands.length :=
      List.length_modify ..
    simp only [List.set_append_right _ _ hlen.le, hlen, Nat.sub_self, List.set_cons_zero]
    rfl

end Find

section Rounds

theorem parserLoop_succ (rounds : ℕ) (s : Parser) (line : Text) :
    parserLoop (rounds + 1) s line = (readRound line).bind fun o =>
      match o.next with
      | none => some (advance s o)
      | some rest => parserLoop rounds (advance s o) rest := by
  cases line with
  | nil => rfl
  | cons c t =>
    rw [parserLoop, readRound]
    simp only [List.head?_cons, Option.bind_eq_bind, Option.bind_some]
    by_cases hc : c = newline
    · subst hc
      rfl
    rw [if_neg hc, Option.bind_assoc]
    refine Option.bind_congr fun line _ => ?_
    rw [Option.bind_assoc]
    refine Option.bind_congr fun d _ => ?_
    by_cases hd : d = newline
    · rw [if_pos hd, if_pos hd]
      rfl
    rw [if_neg hd, if_neg hd, readStage, Option.bind_assoc]
    simp only [Option.bind_eq_bind, Option.bind_assoc]
    refine Option.bind_congr fun r hr => ?_
    rcases findShellCommand_cases hr with ⟨rest, f, name, fp, rfl⟩ | ⟨rest, rfl⟩
    · have hfrom : (newCommand f name fp).redirectfrom = none := rfl
      generalize newCommand f name fp = found at hfrom
      have hget := link_getElem? { s with status := some .ok } hfrom
      have hfill := fun args => link_fill { s with status := some .ok } args hfrom
      generalize hs : { s with status := some Status.ok } = s₁ at hget hfill
      have hlen : s.commands.length = s₁.commands.length := by rw [← hs]
      simp only [ne_eq, not_true_eq_false, if_false, Option.bind_some, Option.bind_assoc, hlen,
        hget, findArguments_eq]
      refine Option.bind_congr fun call _ => ?_
      cases readArguments (maxArgs - 1) call with
      | none => rfl
      | some args =>
        simp only [Option.map_some, Option.bind_some, not_true_eq_false, if_false, hfill]
        refine Option.bind_congr fun rest _ => ?_
        simp only [endStage, Option.bind_eq_bind]
        rw [Option.bind_assoc]
        refine Option.bind_congr fun e _ => ?_
        subst hs
        by_cases hamp : e = ampersand
        · rw [if_pos hamp, if_pos hamp, Option.bind_assoc]
          refine Option.bind_congr fun tail _ => ?_
          rw [Option.bind_assoc]
          refine Option.bind_congr fun d _ => ?_
          by_cases hd : d = newline
          · simp only [hd, not_true_eq_false, if_false, decide_true]
            rfl
          · simp only [hd, not_false_eq_true, if_true, decide_false]
            rfl
        · rw [if_neg hamp, if_neg hamp]
          by_cases hpipe : e = pipe
          · rw [if_pos hpipe, if_pos hpipe]
            rfl
          · rw [if_neg hpipe, if_neg hpipe]
            rfl
    · rfl

/-- The loop reads the line into outcomes and takes them in order. -/
theorem parserLoop_eq (rounds : ℕ) : ∀ (s : Parser) (line : Text),
    parserLoop rounds s line = (readRounds rounds line).map fun os => os.foldl advance s := by
  induction rounds with
  | zero => exact fun _ _ => rfl
  | succ rounds ih =>
    intro s line
    rw [parserLoop_succ, readRounds, Option.bind_eq_bind, Option.map_bind]
    refine Option.bind_congr fun o _ => ?_
    cases hnext : o.next with
    | none => simp [hnext]
    | some rest =>
      simp only [hnext, Function.comp_apply, ih, Option.map_map]
      rfl

end Rounds

section Commands

variable {cmds : List Command} {cmd : Command} {mode : Mode} {status : Option Status}

def linkedCommands (cmds : List Command) : List Command :=
  cmds.mapIdx fun i cmd =>
    { cmd with redirectfrom := previousOf i, redirectto := nextOf cmds.length i }

def parserOf (cmds : List Command) (mode : Mode) (status : Option Status) : Parser where
  commands := linkedCommands cmds
  firstCommand := if cmds = [] then none else some 0
  lastCommand := previousOf cmds.length
  previousCommand := previousOf cmds.length
  mode := mode
  status := status

theorem length_linkedCommands (cmds : List Command) :
    (linkedCommands cmds).length = cmds.length := List.length_mapIdx

theorem linkedCommands_getElem? (cmds : List Command) (i : ℕ) : (linkedCommands cmds)[i]? =
    cmds[i]?.map fun cmd =>
      { cmd with redirectfrom := previousOf i, redirectto := nextOf cmds.length i } :=
  List.getElem?_mapIdx

/-- The commands that were there get a link on where they were the last. -/
theorem link_old {i : ℕ} {c : Command} (hi : cmds[i]? = some c) :
    (link (parserOf cmds mode status) cmd).commands[i]? =
      some { c with redirectfrom := previousOf i, redirectto := some (i + 1) } := by
  have hlt : i < cmds.length := (List.getElem?_eq_some_iff.mp hi).1
  obtain ⟨p, hp⟩ : ∃ p, cmds.length = p + 1 := Nat.exists_eq_succ_of_ne_zero (by omega)
  have hget := linkedCommands_getElem? cmds i
  rw [hi, Option.map_some] at hget
  have hprevious : (parserOf cmds mode status).previousCommand = some p := by
    simp only [parserOf, hp]
    rfl
  have hcommands : (parserOf cmds mode status).commands = linkedCommands cmds := rfl
  simp only [link, hprevious, hcommands]
  rw [List.getElem?_append_left (by rw [List.length_modify, length_linkedCommands]; omega),
    List.getElem?_modify, hget, Option.map_eq_map, Option.map_some, length_linkedCommands]
  by_cases hpi : p = i
  · rw [if_pos hpi, hp, hpi]
  · rw [if_neg hpi, nextOf, if_pos (by omega)]

/-- Links do not matter for a property of the other fields. -/
theorem forall₂_linkedCommands {P : Command → StageRead → Prop}
    (hlinks : ∀ cmd n m st, P { cmd with redirectto := n, redirectfrom := m } st ↔ P cmd st)
    (sts : List StageRead) :
    List.Forall₂ P (linkedCommands (sts.map StageRead.cmd)) sts ↔ ∀ st ∈ sts, P st.cmd st := by
  rw [List.forall₂_iff_get]
  have hlen : (linkedCommands (sts.map StageRead.cmd)).length = sts.length := by
    rw [length_linkedCommands, List.length_map]
  have hget : ∀ i (h₁ : i < (linkedCommands (sts.map StageRead.cmd)).length) (h₂ : i < sts.length),
      P ((linkedCommands (sts.map StageRead.cmd)).get ⟨i, h₁⟩) (sts.get ⟨i, h₂⟩) ↔
        P sts[i].cmd sts[i] := by
    intro i h₁ h₂
    have hentry := linkedCommands_getElem? (sts.map StageRead.cmd) i
    rw [List.getElem?_eq_getElem h₁, List.getElem?_map, List.getElem?_eq_getElem h₂,
      Option.map_some, Option.map_some, Option.some.injEq] at hentry
    rw [List.get_eq_getElem, List.get_eq_getElem, hentry]
    exact hlinks _ _ _ _
  constructor
  · rintro ⟨-, hall⟩ st hst
    obtain ⟨i, hi, rfl⟩ := List.mem_iff_getElem.mp hst
    exact (hget i (hlen ▸ hi) hi).mp (hall i (hlen ▸ hi) hi)
  · exact fun hall => ⟨hlen, fun i h₁ h₂ => (hget i h₁ h₂).mpr (hall _ (List.getElem_mem h₂))⟩

/-- One more command at the end of the row. -/
theorem link_parserOf (hto : cmd.redirectto = none) (hfrom : cmd.redirectfrom = none) :
    link (parserOf cmds mode status) cmd = parserOf (cmds ++ [cmd]) mode status := by
  have hlen : (cmds ++ [cmd]).length = cmds.length + 1 := List.length_append
  have hn : (parserOf cmds mode status).commands.length = cmds.length := length_linkedCommands cmds
  have hcommands : (link (parserOf cmds mode status) cmd).commands =
      linkedCommands (cmds ++ [cmd]) := by
    apply List.ext_getElem?
    intro i
    rw [linkedCommands_getElem?, hlen]
    rcases Nat.lt_trichotomy i cmds.length with hlt | rfl | hgt
    · have hi := List.getElem?_eq_getElem hlt
      rw [link_old hi, List.getElem?_append_left hlt, hi, Option.map_some, nextOf,
        if_pos (by omega)]
    · have hget := link_getElem? (parserOf cmds mode status) hfrom
      rw [hn] at hget
      rw [hget, List.getElem?_append_right le_rfl, Nat.sub_self, nextOf, if_neg (by omega), ← hto]
      rfl
    · rw [List.getElem?_eq_none, List.getElem?_eq_none (by omega), Option.map_none]
      rw [PipelineCommands.length_link, hn]
      omega
  have hfirst : (link (parserOf cmds mode status) cmd).firstCommand = some 0 := by
    rw [link]
    simp only [hn]
    cases cmds <;> rfl
  have hlast : some cmds.length = previousOf (cmds ++ [cmd]).length := by rw [hlen]; rfl
  have hfields : link (parserOf cmds mode status) cmd =
      ⟨(link (parserOf cmds mode status) cmd).commands,
        (link (parserOf cmds mode status) cmd).firstCommand,
        some (parserOf cmds mode status).commands.length,
        some (parserOf cmds mode status).commands.length, mode, status⟩ := rfl
  rw [hfields, hcommands, hfirst, hn, hlast, parserOf, if_neg (by simp)]

end Commands

section Stages

variable {line : Text} {o : Outcome} {os : List Outcome} {st : StageRead}

structure IsRead (st : StageRead) : Prop where
  found : ∃ behind, findShellCommand st.start = some (.ok, behind, some st.found) ∧
    skipBlanks behind = some st.call
  args : readArguments (maxArgs - 1) st.call = some st.args
  rest : skipBlanks st.args.rest = some st.rest

theorem readStage_isRead {start : Text} (h : readStage start = some (some st)) :
    st.start = start ∧ IsRead st := by
  simp only [readStage, Option.bind_eq_bind, Option.bind_eq_some_iff] at h
  obtain ⟨r, hfind, h⟩ := h
  rcases findShellCommand_cases hfind with ⟨behind, f, name, fp, rfl⟩ | ⟨behind, rfl⟩
  · simp only [Option.bind_eq_some_iff] at h
    obtain ⟨call, hcall, args, hargs, rest, hrest, h⟩ := h
    obtain rfl := Option.some.inj (Option.some.inj h)
    exact ⟨rfl, ⟨behind, hfind, hcall⟩, hargs, hrest⟩
  · cases h

theorem endStage_stage (h : endStage st = some o) : o.stage? = some st := by
  simp only [endStage, Option.bind_eq_bind, Option.bind_eq_some_iff] at h
  obtain ⟨c, -, h⟩ := h
  split at h
  · obtain ⟨_, -, h⟩ := Option.bind_eq_some_iff.mp h
    obtain ⟨_, -, h⟩ := Option.bind_eq_some_iff.mp h
    exact Option.some.inj h ▸ rfl
  · split at h
    · exact Option.some.inj h ▸ rfl
    · exact Option.some.inj h ▸ rfl

/-- What a round meets behind the blanks. -/
theorem readRound_cases (h : readRound line = some o) : ∃ start, skipBlanks line = some start ∧
    ((start.head? = some newline ∧ o = .ended) ∨ start.head? ≠ some newline ∧
      ((readStage start = some none ∧ o = .unknown) ∨
        ∃ st, readStage start = some (some st) ∧ endStage st = some o)) := by
  simp only [readRound, Option.bind_eq_bind, Option.bind_eq_some_iff] at h
  obtain ⟨start, hskip, c, hhead, h⟩ := h
  refine ⟨start, hskip, ?_⟩
  by_cases hc : c = newline
  · rw [if_pos hc] at h
    exact Or.inl ⟨by rw [hhead, hc], (Option.some.inj h).symm⟩
  · rw [if_neg hc] at h
    refine Or.inr ⟨fun heq => hc (Option.some.inj (hhead.symm.trans heq)), ?_⟩
    obtain ⟨r, hread, hend⟩ := Option.bind_eq_some_iff.mp h
    cases r with
    | none => exact Or.inl ⟨hread, (Option.some.inj hend).symm⟩
    | some st => exact Or.inr ⟨st, hread, hend⟩

/-- A round with a stage has read it behind the blanks. -/
theorem readRound_isRead (h : readRound line = some o) (hst : o.stage? = some st) :
    skipBlanks line = some st.start ∧ st.start.head? ≠ some newline ∧ IsRead st := by
  obtain ⟨start, hskip, hend | ⟨hhead, hunknown | ⟨st', hread, hend⟩⟩⟩ := readRound_cases h
  · rw [hend.2] at hst
    cases hst
  · rw [hunknown.2] at hst
    cases hst
  · obtain ⟨rfl, hst'⟩ := readStage_isRead hread
    obtain rfl : st' = st := Option.some.inj ((endStage_stage hend).symm.trans hst)
    exact ⟨hskip, hhead, hst'⟩

theorem IsRead.fresh (h : IsRead st) : st.cmd.redirectto = none ∧ st.cmd.redirectfrom = none := by
  obtain ⟨⟨behind, hfind, -⟩, -, -⟩ := h
  rcases findShellCommand_cases hfind with ⟨_, f, name, fp, heq⟩ | ⟨_, heq⟩
  · have hfound := (Prod.mk.inj (Prod.mk.inj heq).2).2
    rw [StageRead.cmd, Option.some.inj hfound]
    exact ⟨rfl, rfl⟩
  · cases heq

def stagesOf (os : List Outcome) : List StageRead := os.filterMap Outcome.stage?

def commandsOf (os : List Outcome) : List Command := (stagesOf os).map StageRead.cmd

def modeOf (os : List Outcome) (mode : Mode) : Mode := os.foldl (fun mode o => o.mode mode) mode

def statusOf (os : List Outcome) (status : Option Status) : Option Status :=
  os.foldl (fun status o => o.status status) status

/-- The rounds are a first one and those of its next line, if it has one. -/
theorem readRounds_succ {rounds : ℕ} (h : readRounds (rounds + 1) line = some os) :
    ∃ o os', readRound line = some o ∧ os = o :: os' ∧ (o.next = none ∧ os' = [] ∨
      ∃ rest, o.next = some rest ∧ readRounds rounds rest = some os') := by
  simp only [readRounds, Option.bind_eq_bind, Option.bind_eq_some_iff] at h
  obtain ⟨o, ho, h⟩ := h
  cases hnext : o.next with
  | none =>
    rw [hnext] at h
    exact ⟨o, [], ho, (Option.some.inj h).symm, Or.inl ⟨hnext, rfl⟩⟩
  | some rest =>
    rw [hnext] at h
    obtain ⟨os', hos, rfl⟩ := Option.map_eq_some_iff.mp h
    exact ⟨o, os', ho, rfl, Or.inr ⟨rest, hnext, hos⟩⟩

theorem mem_stagesOf_cons : st ∈ stagesOf (o :: os) ↔ o.stage? = some st ∨ st ∈ stagesOf os := by
  simp only [stagesOf, List.mem_filterMap, List.exists_mem_cons_iff]

theorem readRounds_isRead {rounds : ℕ} (h : readRounds rounds line = some os) :
    ∀ st ∈ stagesOf os, IsRead st := by
  induction rounds generalizing line os with
  | zero => cases h
  | succ rounds ih =>
    obtain ⟨o, os', ho, rfl, hnext⟩ := readRounds_succ h
    intro st hst
    rcases mem_stagesOf_cons.mp hst with hst | hst
    · exact (readRound_isRead ho hst).2.2
    · obtain ⟨-, rfl⟩ | ⟨rest, -, hos⟩ := hnext
      · cases hst
      · exact ih hos st hst

theorem foldl_advance (os : List Outcome) : ∀ (cmds : List Command) (mode : Mode)
    (status : Option Status), (∀ st ∈ stagesOf os, IsRead st) →
    os.foldl advance (parserOf cmds mode status) =
      parserOf (cmds ++ commandsOf os) (modeOf os mode) (statusOf os status) := by
  induction os with
  | nil => exact fun cmds mode status _ => by rw [commandsOf]; simp [stagesOf, modeOf, statusOf]
  | cons o os ih =>
    intro cmds mode status hread
    have hrest : ∀ st ∈ stagesOf os, IsRead st := by
      intro st hst
      obtain ⟨o', ho', heq⟩ := List.mem_filterMap.mp hst
      exact hread st (List.mem_filterMap.mpr ⟨o', List.mem_cons_of_mem _ ho', heq⟩)
    rw [List.foldl_cons]
    cases hst : o.stage? with
    | none =>
      have hadvance : advance (parserOf cmds mode status) o =
          parserOf cmds (o.mode mode) (o.status status) := by
        simp only [advance, hst]
        rfl
      rw [hadvance, ih _ _ _ hrest, commandsOf, commandsOf, stagesOf, stagesOf,
        List.filterMap_cons_none hst]
      rfl
    | some st =>
      obtain ⟨hto, hfrom⟩ := (hread st (List.mem_filterMap.mpr ⟨o, List.mem_cons_self, hst⟩)).fresh
      have hadvance : advance (parserOf cmds mode status) o =
          link (parserOf cmds (o.mode mode) (o.status status)) st.cmd := by
        simp only [advance, hst]
        rfl
      rw [hadvance, link_parserOf hto hfrom, ih _ _ _ hrest, commandsOf, commandsOf, stagesOf,
        stagesOf, List.filterMap_cons_some hst, List.map_cons, List.append_assoc]
      rfl

/-- The parser reads the line into outcomes and builds its result from these. -/
theorem parser_eq (line : Text) : parser line = (readRounds (line.length + 1) line).map fun os =>
    parserOf (commandsOf os) (modeOf os .foreground) (statusOf os none) := by
  have hinit : (⟨[], none, none, none, .foreground, none⟩ : Parser) =
      parserOf [] .foreground none := rfl
  rw [parser, hinit, parserLoop_eq]
  refine Option.map_congr fun os hos => ?_
  exact foldl_advance os [] _ _ (readRounds_isRead hos)

def stagesIn (line : Text) : Option (List StageRead) :=
  (readRounds (line.length + 1) line).map stagesOf

/-- The commands of the parser are those of the stages, but for their links. -/
theorem parser_stages {s : Parser} (h : parser line = some s) : ∃ sts, stagesIn line = some sts ∧
    (∀ st ∈ sts, IsRead st) ∧ s.commands = linkedCommands (sts.map StageRead.cmd) := by
  rw [parser_eq] at h
  obtain ⟨os, hos, rfl⟩ := Option.map_eq_some_iff.mp h
  exact ⟨stagesOf os, by rw [stagesIn, hos]; rfl, readRounds_isRead hos, rfl⟩

/-- The list that starts at the first command has all commands in their order. -/
theorem parser_linked {s : Parser} (h : parser line = some s) :
    Linked s.commands none s.firstCommand (List.range' 0 s.commands.length) := by
  rw [parser_eq] at h
  obtain ⟨os, -, rfl⟩ := Option.map_eq_some_iff.mp h
  generalize commandsOf os = cmds
  have hlen : (parserOf cmds (modeOf os .foreground) (statusOf os none)).commands.length =
      cmds.length := length_linkedCommands cmds
  have hfirst : (parserOf cmds (modeOf os .foreground) (statusOf os none)).firstCommand =
      if cmds.length = 0 then none else some 0 := by
    cases cmds <;> rfl
  rw [hlen, hfirst]
  refine PipelineCommands.linked_entries (fun i hi => ?_) cmds.length 0 (Nat.zero_add _)
  have hget := linkedCommands_getElem? cmds i
  rw [List.getElem?_eq_getElem hi, Option.map_some] at hget
  exact ⟨_, hget, rfl, rfl⟩

end Stages

end SystemSoftware.ParserRounds
