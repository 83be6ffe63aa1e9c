import SystemSoftware.PipelineWiring
import SystemSoftware.ParserTermination

/-!
The arrays fds and pid_list of MAXCMD entries: execute_commands of execute.c over the
linked list of the parser, and the handlers of sig.c that signal the processes of a
pipeline. The loop uses one pair of descriptors more than there are commands, and the
handlers stop at an entry of pid_list that nobody wrote. Every use of the two arrays
is listed with its index.
-/
namespace SystemSoftware.PipelineTables

open DecimalText ShellCommands ShellParser ArgumentScan ParserRounds ParserTermination
open DescriptorTable PipelineWiring
open PipelineCommands (Linked)

abbrev maxCmd : ℕ := 16
abbrev maxLine : ℕ := 4096

inductive Access
  | fds (i : ℕ)
  | pidList (i : ℕ) (pid : ℤ)

def Access.index : Access → ℕ
  | fds i => i
  | pidList i _ => i

def Access.pid? : Access → Option ℤ
  | fds _ => none
  | pidList _ pid => some pid

/-- A process that executes a pipeline and its uses of the two arrays so far. A store
behind `pid_list` is listed and changes no entry. -/
structure Process (F : Type) where
  shell : Shell F
  pidList : List ℤ
  accesses : List Access

/-- How `execute_commands` ends in a process: by the exit for an empty list, in a child
that goes on to execute its command, or by returning. -/
inductive Ended
  | exited
  | executes (cmd : ℕ)
  | returned
  deriving DecidableEq

section Model

variable {F : Type}

def Process.recorded (s : Process F) : List ℤ := s.accesses.filterMap Access.pid?

def Process.pipe (s : Process F) (i : ℕ) : Process F :=
  { s with shell := s.shell.pipe i, accesses := s.accesses ++ [.fds i] }

def Process.child (s : Process F) (i : ℕ) (redirectfrom redirectto : Bool) : Process F :=
  { s with
    shell := { s.shell with table := s.shell.child i redirectfrom redirectto }
    accesses := s.accesses ++ (if redirectfrom then [.fds i] else []) ++
      (if redirectto then [.fds (i + 1)] else []) ++
      [.fds i, .fds i, .fds (i + 1), .fds (i + 1)] }

def Process.parent (s : Process F) (i : ℕ) (pid : ℤ) : Process F where
  shell := s.shell.parent i
  pidList := s.pidList.set i pid
  accesses := s.accesses ++ [.fds i, .fds (i + 1), .fds i, .pidList i pid]

/-- At most `rounds` rounds of the loop from command i on, in the process in which the
call of `fork` for command i gives `fork i`. -/
def executeLoop (commands : List Command) (fork : ℕ → ℤ) :
    ℕ → ℕ → Option ℕ → Process F → Option (Process F × Ended)
  | 0, _, _, _ => none
  | _ + 1, _, none, s => some (s, .returned)
  | rounds + 1, i, some curCmd, s => do
    let cmd ← commands[curCmd]?
    let s := s.pipe (i + 1)
    let pid := fork i
    if pid = 0 then
      some (s.child i cmd.redirectfrom.isSome cmd.redirectto.isSome, .executes curCmd)
    else executeLoop commands fork rounds (i + 1) cmd.redirectto (s.parent i pid)

/-- `execute_commands` in a process that has not used the arrays before. -/
def executeCommands (commands : List Command) (fork : ℕ → ℤ) (t : Table (Entry F))
    (curCmd : Option ℕ) : Option (Process F × Ended) :=
  let s : Process F := ⟨⟨t, fun _ => (0, 0), 0⟩, List.replicate maxCmd 0, []⟩
  match curCmd with
  | none => some (s, .exited)
  | some cmd => executeLoop commands fork (commands.length + 1) 0 (some cmd) (s.pipe 0)

end Model

inductive Signal
  | cont
  | kill
  deriving DecidableEq

inductive Call
  | kill (pid : ℤ) (sig : Signal)
  | tcsetpgrp (fd : ℕ) (pgrp : ℤ)
  | sigsuspend
  | exit (status : ℕ)
  deriving DecidableEq

/-- The loop of both handlers over `pid_list`; `none` when it reads on behind the array. -/
def sendAll (sig : Signal) : List ℤ → Option (List Call)
  | [] => none
  | pid :: rest => if pid = 0 then some [] else (sendAll sig rest).map (.kill pid sig :: ·)

def sigusr1Handler (getpid : ℤ) (pidList : List ℤ) : Option (List Call) :=
  (sendAll .cont pidList).map
    (· ++ [.tcsetpgrp 0 getpid, .tcsetpgrp 1 getpid, .sigsuspend])

def sigusr2Handler (pidList : List ℤ) : Option (List Call) :=
  (sendAll .kill pidList).map (· ++ [.exit 0])

section Handlers

variable {sig : Signal} {pids rest : List ℤ}

theorem sendAll_append (hpids : ∀ pid ∈ pids, pid ≠ 0) :
    sendAll sig (pids ++ rest) =
      (sendAll sig rest).map (pids.map (fun pid => .kill pid sig) ++ ·) := by
  induction pids with
  | nil => simp
  | cons pid pids ih =>
    rw [List.cons_append, sendAll, if_neg (hpids pid List.mem_cons_self),
      ih fun q hq => hpids q (List.mem_cons_of_mem pid hq), Option.map_map]
    rfl

/-- The handlers stop in an array that holds these entries and zeros from its start on. -/
theorem sendAll_take (hpids : ∀ pid ∈ pids, pid ≠ 0) (n : ℕ) :
    sendAll sig ((pids ++ List.replicate n 0).take n) =
      if pids.length < n then some (pids.map fun pid => .kill pid sig) else none := by
  split
  · next hlt =>
    obtain ⟨m, hm⟩ := Nat.exists_eq_succ_of_ne_zero (show n - pids.length ≠ 0 by omega)
    rw [List.take_append, List.take_of_length_le hlt.le, List.take_replicate,
      sendAll_append hpids, Nat.min_eq_left (Nat.sub_le _ _), hm, List.replicate_succ]
    simp [sendAll]
  · next hge =>
    have hnone : sendAll sig (pids.take n ++ []) = none :=
      sendAll_append fun pid hpid => hpids pid (List.mem_of_mem_take hpid)
    rw [List.take_append_of_le_length (Nat.le_of_not_lt hge), ← hnone, List.append_nil]

end Handlers

section Rounds

variable {F : Type} {s : Process F} {pids : List ℤ} {pid : ℤ}

/-- Storing one pid more, where the array has room for it. -/
theorem set_take_zeros (pids : List ℤ) (pid : ℤ) (n : ℕ) :
    ((pids ++ List.replicate n 0).take n).set pids.length pid =
      ((pids ++ [pid]) ++ List.replicate n 0).take n := by
  rw [List.append_assoc, List.singleton_append, List.take_append, List.take_append]
  by_cases hlt : pids.length < n
  · obtain ⟨m, hm⟩ := Nat.exists_eq_succ_of_ne_zero (show n - pids.length ≠ 0 by omega)
    rw [List.take_of_length_le hlt.le, List.set_append_right _ _ le_rfl, Nat.sub_self, hm,
      List.take_replicate, List.take_succ_cons, List.take_replicate, Nat.min_eq_left (by omega),
      Nat.min_eq_left (by omega), List.replicate_succ, List.set_cons_zero]
  · have hfull : (pids.take n).length = n := by
      rw [List.length_take]
      omega
    rw [Nat.sub_eq_zero_of_le (Nat.le_of_not_lt hlt), List.take_zero, List.take_zero,
      List.append_nil, List.set_eq_of_length_le (by omega)]

/-- The process in front of a round of the loop, with the pids that it has stored. -/
structure AtRound (s : Process F) (pids : List ℤ) : Prop where
  fds : ∀ j, .fds j ∈ s.accesses ↔ j ≤ pids.length
  stores : ∀ j pid, .pidList j pid ∈ s.accesses ↔ pids[j]? = some pid
  recorded : s.recorded = pids
  pidList : s.pidList = (pids ++ List.replicate maxCmd 0).take maxCmd
  nonzero : ∀ pid ∈ pids, pid ≠ 0

theorem atRound_start (shell : Shell F) :
    AtRound (Process.pipe ⟨shell, List.replicate maxCmd 0, []⟩ 0) [] := by
  refine ⟨fun j => ?_, fun j pid => ?_, rfl, rfl, nofun⟩
  · simp [Process.pipe]
  · simp [Process.pipe]

/-- What a round of the parent does to the arrays. -/
theorem AtRound.parent (h : AtRound s pids) (hpid : pid ≠ 0) :
    AtRound ((s.pipe (pids.length + 1)).parent pids.length pid) (pids ++ [pid]) := by
  have haccesses : ((s.pipe (pids.length + 1)).parent pids.length pid).accesses =
      s.accesses ++ [.fds (pids.length + 1), .fds pids.length, .fds (pids.length + 1),
        .fds pids.length, .pidList pids.length pid] := by
    simp [Process.pipe, Process.parent]
  refine ⟨fun j => ?_, fun j q => ?_, ?_, ?_, ?_⟩
  · rw [haccesses, List.mem_append, h.fds, List.length_append, List.length_singleton]
    simp only [List.mem_cons, Access.fds.injEq, List.not_mem_nil, reduceCtorEq, or_false]
    omega
  · rw [haccesses, List.mem_append, h.stores]
    simp only [List.mem_cons, Access.pidList.injEq, List.not_mem_nil, reduceCtorEq, or_false,
      false_or]
    rw [List.getElem?_append]
    split
    · next hlt => simp [hlt.ne]
    · next hge =>
      rw [List.getElem?_eq_none (Nat.le_of_not_lt hge)]
      rcases Nat.lt_or_eq_of_le (Nat.le_of_not_lt hge) with hgt | rfl
      · rw [List.getElem?_eq_none (by simp; omega)]
        simp [hgt.ne']
      · simp [eq_comm]
  · rw [Process.recorded, haccesses, List.filterMap_append, ← Process.recorded, h.recorded]
    rfl
  · exact (congrArg (·.set pids.length pid) h.pidList).trans (set_take_zeros pids pid maxCmd)
  · intro q hq
    rcases List.mem_append.mp hq with hq | hq
    · exact h.nonzero q hq
    · rwa [List.mem_singleton.mp hq]

/-- The child of a round uses the pairs of descriptors in front of its command and behind it. -/
theorem AtRound.child (h : AtRound s pids) (redirectfrom redirectto : Bool) :
    ∀ a ∈ ((s.pipe (pids.length + 1)).child pids.length redirectfrom redirectto).accesses,
      a.index ≤ pids.length + 1 := by
  have hold : ∀ a ∈ s.accesses, a.index ≤ pids.length := by
    rintro (j | ⟨j, q⟩) ha
    · exact (h.fds j).mp ha
    · exact (List.getElem?_eq_some_iff.mp ((h.stores j q).mp ha)).1.le
  intro a ha
  simp only [Process.child, Process.pipe, List.mem_append, List.mem_cons, List.not_mem_nil,
    or_false] at ha
  rcases ha with (((ha | rfl) | ha) | ha) | ha
  · exact (hold a ha).trans (Nat.le_succ _)
  · exact le_rfl
  · split at ha
    · rw [List.mem_singleton.mp ha]
      exact Nat.le_succ _
    · cases ha
  · split at ha
    · rw [List.mem_singleton.mp ha]
      exact le_rfl
    · cases ha
  · rcases ha with rfl | rfl | rfl | rfl
    · exact Nat.le_succ _
    · exact Nat.le_succ _
    · exact le_rfl
    · exact le_rfl

/-- The loop ends in the child of some command, or with a pid stored for every command. -/
theorem executeLoop_spec {commands : List Command} (fork : ℕ → ℤ) {ids : List ℕ} :
    ∀ {rounds : ℕ} {previous ptr : Option ℕ} {s : Process F} {pids : List ℤ},
    Linked commands previous ptr ids → AtRound s pids → ids.length < rounds →
    ∃ s' e, executeLoop commands fork rounds pids.length ptr s = some (s', e) ∧
      ((∃ k < ids.length, fork (pids.length + k) = 0 ∧ (∃ cmd, e = .executes cmd) ∧
          ∀ a ∈ s'.accesses, a.index ≤ pids.length + k + 1) ∨
        e = .returned ∧ ∃ pids', pids'.length = pids.length + ids.length ∧ AtRound s' pids') := by
  induction ids with
  | nil =>
    intro rounds previous ptr s pids hlinked hs hrounds
    obtain ⟨rounds, rfl⟩ := Nat.exists_eq_succ_of_ne_zero (Nat.ne_of_gt hrounds)
    rw [show ptr = none from hlinked]
    exact ⟨s, .returned, rfl, Or.inr ⟨rfl, pids, rfl, hs⟩⟩
  | cons id ids ih =>
    intro rounds previous ptr s pids hlinked hs hrounds
    obtain ⟨rounds, rfl⟩ := Nat.exists_eq_succ_of_ne_zero (Nat.ne_of_gt (Nat.zero_lt_of_lt hrounds))
    obtain ⟨rfl, cmd, hcmd, -, hrest⟩ := hlinked
    rw [executeLoop, hcmd, Option.bind_eq_bind, Option.bind_some]
    by_cases hpid : fork pids.length = 0
    · rw [if_pos hpid]
      exact ⟨_, _, rfl, Or.inl ⟨0, Nat.zero_lt_succ _, hpid, ⟨id, rfl⟩, hs.child _ _⟩⟩
    · rw [if_neg hpid]
      have hnext := ih hrest (hs.parent hpid) (Nat.lt_of_succ_lt_succ hrounds)
      rw [List.length_append, List.length_singleton] at hnext
      obtain ⟨s', e, hrun, hend⟩ := hnext
      refine ⟨s', e, hrun, ?_⟩
      rcases hend with ⟨k, hk, hfork, hcmd', hbound⟩ | ⟨he, pids', hlen, hs'⟩
      · refine Or.inl ⟨k + 1, Nat.succ_lt_succ hk, ?_, hcmd', ?_⟩
        · rw [← hfork]
          congr 1
          omega
        · intro a ha
          have hle := hbound a ha
          omega
      · refine Or.inr ⟨he, pids', ?_, hs'⟩
        rw [hlen, List.length_cons]
        omega

end Rounds

section Wiring

variable {F : Type} {commands : List Command} {fork : ℕ → ℤ} {ids : List ℕ} {e : Ended}

theorem linked_isSome {previous ptr : Option ℕ} (h : Linked commands previous ptr ids) :
    ptr.isSome = ids.head?.isSome := by
  cases ids with
  | nil => rw [show ptr = none from h]; rfl
  | cons id ids => rw [h.1]; rfl

/-- Along the linked list the descriptors are those of the rounds over its commands. -/
theorem executeLoop_rounds : ∀ {rounds i : ℕ} {previous ptr : Option ℕ} {s s' : Process F},
    Linked commands previous ptr ids →
    executeLoop commands fork rounds i ptr s = some (s', e) →
    (e = .returned → s'.shell.table = (PipelineWiring.rounds s.shell i previous ids).2) ∧
      ∀ cmd, e = .executes cmd →
        (cmd, s'.shell.table) ∈ (PipelineWiring.rounds s.shell i previous ids).1 := by
  induction ids with
  | nil =>
    intro rounds i previous ptr s s' hlinked hrun
    rw [show ptr = none from hlinked] at hrun
    cases rounds with
    | zero => cases hrun
    | succ rounds =>
      obtain ⟨rfl, rfl⟩ := Prod.mk.inj (Option.some.inj hrun)
      exact ⟨fun _ => rfl, nofun⟩
  | cons id ids ih =>
    intro rounds i previous ptr s s' hlinked hrun
    obtain ⟨rfl, cmd, hcmd, hfrom, hrest⟩ := hlinked
    cases rounds with
    | zero => cases hrun
    | succ rounds =>
      rw [executeLoop, hcmd, Option.bind_eq_bind, Option.bind_some] at hrun
      by_cases hpid : fork i = 0
      · rw [if_pos hpid] at hrun
        obtain ⟨rfl, rfl⟩ := Prod.mk.inj (Option.some.inj hrun)
        refine ⟨nofun, fun cmd' hcmd' => ?_⟩
        obtain rfl := Ended.executes.inj hcmd'
        rw [hfrom, linked_isSome hrest]
        exact List.mem_cons_self
      · rw [if_neg hpid] at hrun
        obtain ⟨hreturned, hexecutes⟩ := ih hrest hrun
        exact ⟨hreturned, fun cmd' hcmd' => List.mem_cons_of_mem _ (hexecutes cmd' hcmd')⟩

/-- The function on the linked list and that on a list of commands wire the same
processes. -/
theorem executeCommands_wiring {t : Table (Entry F)} {first : Option ℕ} {s : Process F}
    (hlinked : Linked commands none first ids)
    (hrun : executeCommands commands fork t first = some (s, e)) :
    (e = .exited ∧ PipelineWiring.executeCommands t ids = none) ∨
      ∃ children parent, PipelineWiring.executeCommands t ids = some (children, parent) ∧
        (e = .returned → s.shell.table = parent) ∧
        ∀ cmd, e = .executes cmd → (cmd, s.shell.table) ∈ children := by
  cases ids with
  | nil =>
    rw [show first = none from hlinked] at hrun
    obtain ⟨-, rfl⟩ := Prod.mk.inj (Option.some.inj hrun)
    exact Or.inl ⟨rfl, rfl⟩
  | cons id ids =>
    rw [hlinked.1, executeCommands] at hrun
    rw [hlinked.1] at hlinked
    have hloop := executeLoop_rounds hlinked hrun
    have hstart : (Process.pipe ⟨⟨t, fun _ => (0, 0), 0⟩, List.replicate maxCmd 0, []⟩ 0).shell =
        before t 0 := rfl
    rw [hstart] at hloop
    exact Or.inr ⟨_, _, executeCommands_eq t (List.cons_ne_nil id ids), hloop⟩

end Wiring

section Tables

variable {F : Type} {s : Process F} {pids : List ℤ}

/-- The last pair of descriptors used is that behind the last command. -/
theorem AtRound.fds_inside (h : AtRound s pids) :
    (∀ j, .fds j ∈ s.accesses → j < maxCmd) ↔ pids.length < maxCmd := by
  simp only [h.fds]
  exact ⟨fun hall => hall _ le_rfl, fun hlt j hj => hj.trans_lt hlt⟩

theorem AtRound.stores_inside (h : AtRound s pids) :
    (∀ j pid, .pidList j pid ∈ s.accesses → j < maxCmd) ↔ pids.length ≤ maxCmd := by
  simp only [h.stores]
  constructor
  · intro hall
    by_contra hgt
    exact absurd (hall maxCmd _ (List.getElem?_eq_getElem (Nat.lt_of_not_le hgt))) (lt_irrefl _)
  · intro hle j pid hj
    exact (List.getElem?_eq_some_iff.mp hj).1.trans_le hle

theorem AtRound.sendAll_eq (h : AtRound s pids) (sig : Signal) : sendAll sig s.pidList =
    if pids.length < maxCmd then some (pids.map fun pid => .kill pid sig) else none := by
  rw [h.pidList]
  exact sendAll_take h.nonzero maxCmd

/-- The arrays suffice for a process: they are used inside, and where `execute_commands`
has returned, a zero stands behind the pids that it stored and the handlers signal these. -/
structure Fits (s : Process F) (e : Ended) : Prop where
  inside : ∀ a ∈ s.accesses, a.index < maxCmd
  sentinel : e = .returned → ∃ j < maxCmd, s.recorded.length ≤ j ∧ s.pidList[j]? = some 0
  continued : e = .returned → ∀ getpid, sigusr1Handler getpid s.pidList =
    some ((s.recorded.map fun pid => .kill pid .cont) ++
      [.tcsetpgrp 0 getpid, .tcsetpgrp 1 getpid, .sigsuspend])
  killed : e = .returned → sigusr2Handler s.pidList =
    some ((s.recorded.map fun pid => .kill pid .kill) ++ [.exit 0])

/-- The arrays suffice for every process that executes the list of commands. -/
def TablesFit (F : Type) (commands : List Command) (first : Option ℕ) : Prop :=
  ∀ (fork : ℕ → ℤ) (t : Table (Entry F)), ∃ s e,
    executeCommands commands fork t first = some (s, e) ∧ Fits s e

theorem AtRound.fits (h : AtRound s pids) (hlt : pids.length < maxCmd) :
    Fits s .returned := by
  refine ⟨?_, fun _ => ⟨pids.length, hlt, ?_, ?_⟩, fun _ getpid => ?_, fun _ => ?_⟩
  · rintro (j | ⟨j, pid⟩) ha
    · exact h.fds_inside.mpr hlt j ha
    · exact h.stores_inside.mpr hlt.le j pid ha
  · rw [h.recorded]
  · rw [h.pidList, List.getElem?_take_of_lt hlt, List.getElem?_append_right le_rfl, Nat.sub_self]
    rfl
  · rw [sigusr1Handler, h.sendAll_eq, if_pos hlt, h.recorded]
    rfl
  · rw [sigusr2Handler, h.sendAll_eq, if_pos hlt, h.recorded]
    rfl

/-- Fifteen commands fit, and no more. -/
theorem tablesFit_iff_length {commands : List Command} {first : Option ℕ} {ids : List ℕ}
    (hlinked : Linked commands none first ids) (hlen : ids.length ≤ commands.length) :
    TablesFit F commands first ↔ ids.length < maxCmd := by
  cases hids : ids with
  | nil =>
    refine iff_of_true (fun fork t => ?_) (by decide)
    rw [hids] at hlinked
    rw [show first = none from hlinked]
    exact ⟨_, .exited, rfl, nofun, nofun, nofun, nofun⟩
  | cons id rest =>
    have hfirst : first = some id := by
      rw [hids] at hlinked
      exact hlinked.1
    subst hfirst
    have hrun : ∀ fork (t : Table (Entry F)), executeCommands commands fork t (some id) =
        executeLoop commands fork (commands.length + 1) 0 (some id)
          (Process.pipe ⟨⟨t, fun _ => (0, 0), 0⟩, List.replicate maxCmd 0, []⟩ 0) :=
      fun _ _ => rfl
    have hspec := fun fork (t : Table (Entry F)) => executeLoop_spec fork hlinked
      (atRound_start ⟨t, fun _ => (0, 0), 0⟩) (Nat.lt_succ_of_le hlen)
    rw [← hids]
    constructor
    · intro h
      obtain ⟨s, e, hs, hfits⟩ := h (fun _ => 1) []
      obtain ⟨s', e', hs', hend⟩ := hspec (fun _ => 1) []
      rw [hrun] at hs
      obtain ⟨rfl, rfl⟩ := Prod.mk.inj (Option.some.inj (hs.symm.trans hs'))
      rcases hend with ⟨k, -, hfork, -⟩ | ⟨-, pids, hpids, hround⟩
      · exact absurd hfork one_ne_zero
      · have hlt := hround.fds_inside.mp fun j hj => hfits.inside _ hj
        rwa [hpids, List.length_nil, Nat.zero_add] at hlt
    · intro hlt fork t
      obtain ⟨s, e, hs, hend⟩ := hspec fork t
      refine ⟨s, e, (hrun fork t).trans hs, ?_⟩
      rcases hend with ⟨k, hk, -, ⟨cmd, rfl⟩, hbound⟩ | ⟨rfl, pids, hpids, hround⟩
      · refine ⟨fun a ha => ?_, nofun, nofun, nofun⟩
        have hle := hbound a ha
        rw [List.length_nil] at hle
        omega
      · refine hround.fits ?_
        rw [hpids, List.length_nil]
        omega

/-- The arrays suffice for exactly the lines with at most fifteen commands. -/
theorem tables_fit_iff (F : Type) {line : Text} (h : Terminated line) :
    ∃ s sts, parser line = some s ∧ stagesIn line = some sts ∧
      (TablesFit F s.commands s.firstCommand ↔ sts.length ≤ 15) := by
  obtain ⟨s, hs⟩ := parser_returns h
  obtain ⟨sts, hsts, -, hcommands⟩ := parser_stages hs
  have hlen : s.commands.length = sts.length := by
    rw [hcommands, length_linkedCommands, List.length_map]
  refine ⟨s, sts, hs, hsts, (tablesFit_iff_length (parser_linked hs) ?_).trans ?_⟩
  · rw [List.length_range']
  · rw [List.length_range', hlen]
    exact Nat.lt_succ_iff

theorem tables_fit_two : ∃ s, parser (ascii "ls|cat\n") = some s ∧
    TablesFit ℕ s.commands s.firstCommand := by
  have hterm : Terminated (ascii "ls|cat\n") := ⟨ascii "ls|cat", by decide, by decide⟩
  obtain ⟨s, sts, hs, hsts, hiff⟩ := tables_fit_iff ℕ hterm
  have hlen : (stagesIn (ascii "ls|cat\n")).map List.length = some 2 := by decide
  rw [hsts, Option.map_some, Option.some.injEq] at hlen
  exact ⟨s, hs, hiff.mpr (by omega)⟩

def sixteenStages : Text := ascii "ls|ls|ls|ls|ls|ls|ls|ls|ls|ls|ls|ls|ls|ls|ls|ls\n"

/-- Sixteen commands use fds[16] and leave no zero in pid_list. -/
theorem tables_fit_sixteen : Terminated sixteenStages ∧ sixteenStages.length ≤ maxLine - 1 ∧
    ∃ s, parser sixteenStages = some s ∧ ¬TablesFit ℕ s.commands s.firstCommand := by
  have hterm : Terminated sixteenStages :=
    ⟨ascii "ls|ls|ls|ls|ls|ls|ls|ls|ls|ls|ls|ls|ls|ls|ls|ls", by decide, by decide⟩
  obtain ⟨s, hs⟩ := parser_returns hterm
  obtain ⟨sts, hsts, -, hcommands⟩ := parser_stages hs
  have hlen : (stagesIn sixteenStages).map List.length = some 16 := by decide
  rw [hsts, Option.map_some, Option.some.injEq] at hlen
  refine ⟨hterm, by decide, s, hs, fun h => ?_⟩
  have hlt := (tablesFit_iff_length (parser_linked hs) (by rw [List.length_range'])).mp h
  rw [List.length_range', hcommands, length_linkedCommands, List.length_map, hlen] at hlt
  exact absurd hlt (by decide)

end Tables

end SystemSoftware.PipelineTables
