import SystemSoftware.PipelineText

/-!
The list of commands that the parser of myshell builds from the text of a
pipeline. After each stage the commands allocated so far stand in the order of
the stages, each with links to its neighbours; the whole text is read and the
list that starts at `first_command` is that of all stages. Whether the strings of
the commands are the texts of the stages depends on the lengths of these alone.
-/
namespace SystemSoftware.PipelineCommands

open DecimalText ShellCommands ShellParser PipelineText
open RequestParser (blank skipBlanks skipBlanks_append)

structure Decodes (cmd : Command) (stage : Stage) : Prop where
  name : cmd.builtin.name = stage.word
  f : cmd.f = stage.flag
  arguments : cmd.arguments = stage.vector

/-- Who reads the strings of the command finds the stage. -/
structure Reads (room : ℕ → ℕ) (cmd : Command) (stage : Stage) : Prop where
  name : cmd.name room = some stage.word
  f : cmd.f = stage.flag
  arguments : strings room cmd.arguments = some stage.vector

/-- The list from `ptr` on through `redirectto` has the numbers `ids`, and each
`redirectfrom` leads back to the command before it. -/
def Linked (commands : List Command) (previous ptr : Option ℕ) : List ℕ → Prop
  | [] => ptr = none
  | id :: ids => ptr = some id ∧ ∃ cmd, commands[id]? = some cmd ∧ cmd.redirectfrom = previous ∧
      Linked commands (some id) cmd.redirectto ids

def previousOf : ℕ → Option ℕ
  | 0 => none
  | i + 1 => some i

def nextOf (n i : ℕ) : Option ℕ := if i + 1 < n then some (i + 1) else none

/-- The parser has read the stages. -/
structure Holds (s : Parser) (stages : List Stage) : Prop where
  length_eq : s.commands.length = stages.length
  entry : ∀ i stage, stages[i]? = some stage → ∃ cmd, s.commands[i]? = some cmd ∧
    Decodes cmd stage ∧ cmd.redirectfrom = previousOf i ∧
    cmd.redirectto = nextOf stages.length i
  first : s.firstCommand = if stages.length = 0 then none else some 0
  last : s.lastCommand = previousOf stages.length
  previous : s.previousCommand = previousOf stages.length

/-- The status and the mode do not matter. -/
theorem Holds.congr {s : Parser} {stages : List Stage} (hs : Holds s stages)
    (status : Option Status) (mode : Mode) : Holds { s with status := status, mode := mode } stages :=
  ⟨hs.length_eq, hs.entry, hs.first, hs.last, hs.previous⟩

section Link

variable {s : Parser} {stages : List Stage} {stage : Stage} {cbuf cmd : Command} {i argc : ℕ}

theorem length_link (s : Parser) (cbuf : Command) :
    (link s cbuf).commands.length = s.commands.length + 1 := by
  rw [link]
  cases s.previousCommand <;> simp

/-- Linking puts a link on into the last of the commands so far. -/
theorem link_old (hs : Holds s stages) (hi : s.commands[i]? = some cmd) :
    (link s cbuf).commands[i]? = some (if i + 1 = stages.length then
      { cmd with redirectto := some stages.length } else cmd) := by
  have hlt : i < s.commands.length := (List.getElem?_eq_some_iff.mp hi).1
  rw [link, hs.previous, ← hs.length_eq]
  cases hn : s.commands.length with
  | zero => omega
  | succ m =>
    rw [hn] at hlt
    simp only [previousOf]
    rw [List.getElem?_append_left (by rw [List.length_modify]; omega), List.getElem?_modify, hi,
      Option.map_eq_map, Option.map_some]
    by_cases him : m = i
    · rw [if_pos him, if_pos (by omega)]
    · rw [if_neg him, if_neg (by omega)]

theorem link_new (hs : Holds s stages) (hfrom : cbuf.redirectfrom = none) :
    (link s cbuf).commands[s.commands.length]? =
      some { cbuf with redirectfrom := previousOf stages.length } := by
  rw [link, hs.previous, ← hs.length_eq]
  cases hn : s.commands.length with
  | zero =>
    simp only [previousOf]
    rw [List.getElem?_append_right (by omega), hn, ← hfrom]
    rfl
  | succ m =>
    simp only [previousOf]
    rw [List.getElem?_append_right (by rw [List.length_modify]; omega), List.length_modify, hn,
      Nat.sub_self]
    rfl

def addStage (s : Parser) (cbuf cmd : Command) : Parser :=
  { link s cbuf with
    commands := (link s cbuf).commands.set s.commands.length cmd
    status := some .ok }

/-- Reading one more stage. -/
theorem holds_addStage (hs : Holds s stages) (hcmd : Decodes cmd stage)
    (hfrom : cmd.redirectfrom = previousOf stages.length) (hto : cmd.redirectto = none) :
    Holds (addStage s cbuf cmd) (stages ++ [stage]) := by
  have hlen : (stages ++ [stage]).length = stages.length + 1 := by simp
  refine ⟨?_, ?_, ?_, ?_, ?_⟩
  · rw [addStage, List.length_set, length_link, hs.length_eq, hlen]
  · intro i stage' hstage
    rw [hlen]
    rcases Nat.lt_trichotomy i stages.length with hlt | rfl | hgt
    · rw [List.getElem?_append_left hlt] at hstage
      obtain ⟨old, hold, hdec, hbefore, hbehind⟩ := hs.entry i stage' hstage
      refine ⟨if i + 1 = stages.length then { old with redirectto := some stages.length } else old,
        ?_, ?_⟩
      · rw [addStage, List.getElem?_set_ne (by rw [hs.length_eq]; omega)]
        exact link_old hs hold
      · have hnext : nextOf (stages.length + 1) i = some (i + 1) := if_pos (by omega)
        by_cases hi : i + 1 = stages.length
        · rw [if_pos hi, hnext, hi]
          exact ⟨⟨hdec.name, hdec.f, hdec.arguments⟩, hbefore, rfl⟩
        · rw [nextOf, if_pos (by omega)] at hbehind
          rw [if_neg hi, hnext]
          exact ⟨hdec, hbefore, hbehind⟩
    · rw [List.getElem?_append_right le_rfl, Nat.sub_self] at hstage
      obtain rfl : stage = stage' := Option.some.inj hstage
      refine ⟨cmd, ?_, hcmd, hfrom, ?_⟩
      · rw [addStage, ← hs.length_eq, List.getElem?_set_self (by rw [length_link]; omega)]
      · rw [hto, nextOf, if_neg (by omega)]
    · rw [List.getElem?_eq_none (by omega)] at hstage
      cases hstage
  · rw [addStage, link, hs.first, hs.length_eq, hlen]
    by_cases hn : stages.length = 0 <;> simp [hn]
  · rw [addStage, link, hs.length_eq, hlen]
    rfl
  · rw [addStage, link, hs.length_eq, hlen]
    rfl

end Link

section Loop

variable {s : Parser} {stages : List Stage} {rounds : ℕ}

/-- The rest of the round of `parserLoop` behind the arguments of a stage. -/
def afterStage (rounds : ℕ) (s : Parser) (stop : UInt8) (more : Text) : Option Parser :=
  if stop = ampersand then do
    let line ← skipBlanks more
    let s := { s with mode := .background }
    if (← line.head?) ≠ newline then some { s with status := some .syntaxErr } else some s
  else if stop = pipe then parserLoop rounds { s with status := some .buffering } more
  else parserLoop rounds s (stop :: more)

theorem newCommand_redirectfrom (f : CmdFlag) (name : Text) (fp : Option Handler) :
    (newCommand f name fp).redirectfrom = none := rfl

theorem newCommand_linked_name (f : CmdFlag) (name : Text) (fp : Option Handler)
    (p : Option ℕ) : { newCommand f name fp with redirectfrom := p }.builtin.name = name := rfl

theorem head_of_lead (lead : Blanks) (t : Text) {c : UInt8} (hc : c ≠ newline) :
    ∃ d, (lead.val ++ c :: t).head? = some d ∧ d ≠ newline := by
  obtain ⟨b, hb⟩ := lead
  cases b with
  | nil => exact ⟨c, rfl, hc⟩
  | cons d b =>
    refine ⟨d, rfl, ?_⟩
    rintro rfl
    exact absurd (hb newline List.mem_cons_self) (by decide)

/-- A round of the parser at a stage, with any blanks in front. -/
theorem parserLoop_stage (rounds : ℕ) (hs : Holds s stages) (lead : Blanks) (stage : Stage) (sep : Separator)
    (more : Text) : ∃ s', Holds s' (stages ++ [stage]) ∧ s'.mode = s.mode ∧
      s'.status = some .ok ∧
      parserLoop (rounds + 1) s
        (lead.val ++ (stage.render ++ (sep.blanks ++ sep.stop :: more))) =
          afterStage rounds s' sep.stop more := by
  obtain ⟨c, t, hword, hblank, hnewline⟩ := stage.isCommandWord.cons
  obtain ⟨fp, hfind⟩ := findShellCommand_stage stage sep more
  have hs₁ : Holds { s with status := some .ok } stages := hs.congr _ _
  have hnew := link_new hs₁ (newCommand_redirectfrom stage.flag stage.word fp)
  obtain ⟨n, hargs⟩ := findArguments_stage stage sep more
    (newCommand_linked_name stage.flag stage.word fp (previousOf stages.length))
  have htext : stage.render ++ (sep.blanks ++ sep.stop :: more) =
      stage.word ++ behind stage.arguments sep more := List.append_assoc ..
  have hline : stage.word ++ behind stage.arguments sep more =
      c :: (t ++ behind stage.arguments sep more) := by rw [hword, List.cons_append]
  have hskip : skipBlanks (lead.val ++ c :: (t ++ behind stage.arguments sep more)) =
      some (c :: (t ++ behind stage.arguments sep more)) := skipBlanks_append lead.property hblank
  have hstop : skipBlanks (sep.stop :: more) = some (sep.stop :: more) :=
    skipBlanks_append (b := []) (fun _ hc => absurd hc List.not_mem_nil) sep.stop_not_blank
  obtain ⟨d, hhead, hd⟩ := head_of_lead lead (t ++ behind stage.arguments sep more) hnewline
  rw [hline] at hfind
  rw [htext, hline]
  refine ⟨addStage { s with status := some .ok } (newCommand stage.flag stage.word fp)
    { newCommand stage.flag stage.word fp with
      redirectfrom := previousOf stages.length
      argc := n
      arguments := stage.vector }, ?_, rfl, rfl, ?_⟩
  · apply holds_addStage hs₁
    · exact ⟨rfl, rfl, rfl⟩
    · rfl
    · rfl
  · simp only [parserLoop, hhead, if_neg hd, hskip, List.head?_cons, if_neg hnewline, hfind,
      ne_eq, not_true_eq_false, if_false, Option.bind_eq_bind, Option.bind_some, hnew,
      skipBlanks_behind, hargs, hstop]
    rfl

/-- The end of the line, where the last round stops. -/
theorem afterStage_newline (s : Parser) : afterStage (rounds + 1) s newline [] = some s := by
  rw [afterStage, if_neg (by decide), if_neg (by decide), parserLoop]
  simp

theorem afterStage_pipe (s : Parser) (more : Text) : afterStage rounds s pipe more =
    parserLoop rounds { s with status := some .buffering } more := by
  rw [afterStage, if_neg (by decide), if_pos rfl]

theorem afterStage_ampersand (s : Parser) (trail : Blanks) :
    afterStage rounds s ampersand (trail.val ++ [newline]) =
      some { s with mode := .background } := by
  rw [afterStage, if_pos rfl, skipBlanks_append trail.property (by decide)]
  simp

/-- The last stage, with what ends the line. -/
theorem parserLoop_last (hs : Holds s stages) (hmode : s.mode = .foreground) (lead : Blanks)
    (stage : Stage) (p : Pipeline) : ∃ s', Holds s' (stages ++ [stage]) ∧ s'.status = some .ok ∧
      (s'.mode = .background ↔ p.background.isSome) ∧
      parserLoop (rounds + 2) s (lead.val ++ (stage.render ++ p.ending)) = some s' := by
  cases hb : p.background with
  | none =>
    obtain ⟨s', hs', hmode', hstatus, hloop⟩ := parserLoop_stage (rounds + 1) hs lead stage
      ⟨p.trail.val, newline, p.trail.property, Or.inl rfl⟩ []
    refine ⟨s', hs', hstatus, ?_, ?_⟩
    · rw [hmode', hmode]
      simp
    · rw [Pipeline.ending, hb]
      exact hloop.trans (afterStage_newline s')
  | some gap =>
    obtain ⟨s', hs', hmode', hstatus, hloop⟩ := parserLoop_stage (rounds + 1) hs lead stage
      ⟨gap.val, ampersand, gap.property.2, Or.inr (Or.inr ⟨rfl, gap.property.1⟩)⟩
      (p.trail.val ++ [newline])
    refine ⟨{ s' with mode := .background }, hs'.congr _ _, hstatus, ?_, ?_⟩
    · simp
    · rw [Pipeline.ending, hb]
      exact hloop.trans (afterStage_ampersand s' p.trail)

/-- The loop reads all stages; each round reads one. -/
theorem parserLoop_piped (p : Pipeline) (piped : List Piped) : ∀ (s : Parser) (stages : List Stage)
    (lead : Blanks) (stage : Stage) (rounds : ℕ), Holds s stages → s.mode = .foreground →
    ∃ s', Holds s' (stages ++ stage :: piped.map (·.2.2)) ∧ s'.status = some .ok ∧
      (s'.mode = .background ↔ p.background.isSome) ∧
      parserLoop (piped.length + (rounds + 2)) s
        (lead.val ++ (stage.render ++ Pipeline.renderPiped piped p.ending)) = some s' := by
  induction piped with
  | nil =>
    intro s stages lead stage rounds hs hmode
    rw [List.length_nil, Nat.zero_add]
    exact parserLoop_last hs hmode lead stage p
  | cons next piped ih =>
    intro s stages lead stage rounds hs hmode
    obtain ⟨b, a, stage'⟩ := next
    obtain ⟨s₁, hs₁, hmode₁, -, hloop⟩ := parserLoop_stage (piped.length + (rounds + 2)) hs lead
      stage ⟨b.val, pipe, b.property, Or.inr (Or.inl rfl)⟩
      (a.val ++ (stage'.render ++ Pipeline.renderPiped piped p.ending))
    obtain ⟨s', hs', hstatus, hbackground, hrest⟩ := ih { s₁ with status := some .buffering }
      (stages ++ [stage]) a stage' rounds (hs₁.congr _ _) (hmode₁.trans hmode)
    refine ⟨s', ?_, hstatus, hbackground, ?_⟩
    · rw [List.map_cons]
      rwa [List.append_assoc, List.singleton_append] at hs'
    · rw [List.length_cons, Nat.add_right_comm]
      exact (hloop.trans (afterStage_pipe s₁ _)).trans hrest

end Loop

section Text

/-- The text has a character for every pipe and the newline. -/
theorem length_renderPiped (piped : List Piped) (ending : Text) :
    piped.length + ending.length ≤ (Pipeline.renderPiped piped ending).length := by
  induction piped with
  | nil => rw [Pipeline.renderPiped, List.length_nil, Nat.zero_add]
  | cons next piped ih =>
    rw [Pipeline.renderPiped]
    simp only [List.length_append, List.length_cons]
    omega

theorem Pipeline.ending_pos (p : Pipeline) : 0 < p.ending.length := by
  rw [Pipeline.ending]
  cases p.background <;> simp

theorem Pipeline.length_render (p : Pipeline) : p.piped.length + 1 ≤ p.render.length := by
  have h := length_renderPiped p.piped p.ending
  have hpos := Pipeline.ending_pos p
  rw [Pipeline.render]
  simp only [List.length_append]
  omega

end Text

section List

variable {s : Parser} {stages : List Stage}

/-- Commands that are linked to their neighbours form a list from each of them on. -/
theorem linked_entries {commands : List Command} {n : ℕ}
    (hentry : ∀ i < n, ∃ cmd, commands[i]? = some cmd ∧ cmd.redirectfrom = previousOf i ∧
      cmd.redirectto = nextOf n i) (k : ℕ) : ∀ i, i + k = n →
    Linked commands (previousOf i) (if k = 0 then none else some i) (List.range' i k) := by
  induction k with
  | zero => exact fun _ _ => rfl
  | succ k ih =>
    intro i hik
    obtain ⟨cmd, hcmd, hbefore, hbehind⟩ := hentry i (by omega)
    refine ⟨rfl, cmd, hcmd, hbefore, ?_⟩
    have hnext : cmd.redirectto = if k = 0 then none else some (i + 1) := by
      rw [hbehind, nextOf]
      by_cases hk : k = 0
      · rw [if_neg (by omega), if_pos hk]
      · rw [if_pos (by omega), if_neg hk]
    rw [hnext]
    exact ih (i + 1) (by omega)

/-- The list from some command on. -/
theorem linked_range (hs : Holds s stages) (k : ℕ) : ∀ i, i + k = stages.length →
    Linked s.commands (previousOf i) (if k = 0 then none else some i) (List.range' i k) := by
  apply linked_entries
  intro i hi
  obtain ⟨cmd, hcmd, -, hbefore, hbehind⟩ := hs.entry i _ (List.getElem?_eq_getElem hi)
  exact ⟨cmd, hcmd, hbefore, hbehind⟩

theorem last_range (hs : Holds s stages) :
    s.lastCommand = (List.range' 0 stages.length).getLast? := by
  rw [hs.last]
  cases hn : stages.length with
  | zero => rfl
  | succ m => simp [previousOf, List.getLast?_range']

end List

theorem holds_initial : Holds ⟨[], none, none, none, .foreground, none⟩ [] :=
  ⟨rfl, fun _ _ h => by simp at h, rfl, rfl, rfl⟩

theorem parser_holds (p : Pipeline) : ∃ s, parser p.render = some s ∧ Holds s p.stages ∧
    s.status = some .ok ∧ (s.mode = .background ↔ p.background.isSome) := by
  have hlen := Pipeline.length_render p
  obtain ⟨rounds, hrounds⟩ : ∃ rounds, p.render.length + 1 = p.piped.length + (rounds + 2) :=
    ⟨p.render.length - (p.piped.length + 1), by omega⟩
  obtain ⟨s, hs, hstatus, hmode, hloop⟩ :=
    parserLoop_piped p p.piped _ _ p.lead p.first rounds holds_initial rfl
  rw [List.nil_append] at hs
  refine ⟨s, ?_, hs, hstatus, hmode⟩
  rw [parser, hrounds]
  exact hloop

section Strings

variable {room : ℕ → ℕ} {s : Parser} {stages : List Stage} {stage stage' : Stage} {cmd : Command}

theorem strings_vector (hdec : Decodes cmd stage') :
    strings room cmd.arguments = some stage.vector ↔ stage'.vector = stage.vector ∧
      ∀ t ∈ stage'.texts, t.length < room t.length := by
  rw [hdec.arguments, strings_eq_some_iff fun t ht => stage'.no_zero t (Stage.mem_vector.mp ht)]
  simp only [Stage.mem_vector]

/-- Where the blocks have room, the strings are the texts. -/
theorem Decodes.reads (hdec : Decodes cmd stage) (hfits : stage.Fits room) :
    Reads room cmd stage := by
  refine ⟨?_, hdec.f, (strings_vector hdec).mpr ⟨rfl, hfits.texts⟩⟩
  rw [Command.name, hdec.name, hdec.f]
  by_cases hpath : stage.flag = .relative
  · rw [if_pos hpath]
    exact (cstring_eq_some_iff stage.isCommandWord.no_zero).mpr
      ⟨rfl, hfits.texts _ List.mem_cons_self⟩
  · rw [if_neg hpath, if_pos (hfits.name hpath)]

/-- Strings that are the texts of a stage are in blocks that have room for them. -/
theorem Reads.fits (hreads : Reads room cmd stage) (hdec : Decodes cmd stage') :
    stage.Fits room := by
  obtain ⟨hvector, hlt⟩ := (strings_vector hdec).mp hreads.arguments
  refine ⟨fun t ht => hlt t (Stage.mem_vector.mp ?_), fun hflag => ?_⟩
  · rw [hvector]
    exact Stage.mem_vector.mpr ht
  · have hname := hreads.name
    rw [Command.name, hreads.f, if_neg hflag, Option.ite_none_right_eq_some,
      Option.some.injEq] at hname
    rw [← hname.2]
    exact hname.1

theorem Holds.decodes (hs : Holds s stages) (hcmd : cmd ∈ s.commands) :
    ∃ stage, Decodes cmd stage := by
  obtain ⟨i, hi, rfl⟩ := List.getElem_of_mem hcmd
  obtain ⟨cmd, hcmd, hdec, -⟩ := hs.entry i _ (List.getElem?_eq_getElem (hs.length_eq ▸ hi))
  rw [List.getElem?_eq_getElem hi] at hcmd
  exact ⟨_, Option.some.inj hcmd ▸ hdec⟩

theorem reads_range (hs : Holds s stages) (hfits : ∀ stage ∈ stages, stage.Fits room) :
    List.Forall₂ (fun id stage => ∃ cmd, s.commands[id]? = some cmd ∧ Reads room cmd stage)
      (List.range' 0 stages.length) stages := by
  rw [List.forall₂_iff_get]
  refine ⟨List.length_range', fun i hi hi' => ?_⟩
  obtain ⟨cmd, hcmd, hdec, -⟩ := hs.entry i _ (List.getElem?_eq_getElem hi')
  refine ⟨cmd, ?_, hdec.reads (hfits _ (List.getElem_mem hi'))⟩
  rw [List.get_eq_getElem, List.getElem_range', Nat.zero_add, Nat.one_mul]
  exact hcmd

end Strings

/-- Parsing the text of the pipeline gives its stages as a list of commands, linked both ways
from the first command to the last, whose strings are the texts of the stages. -/
def Decoded (room : ℕ → ℕ) (p : Pipeline) : Prop := ∃ s ids, parser p.render = some s ∧
  s.status = some .ok ∧ (s.mode = .background ↔ p.background.isSome) ∧
  Linked s.commands none s.firstCommand ids ∧ s.lastCommand = ids.getLast? ∧
  List.Forall₂ (fun id stage => ∃ cmd, s.commands[id]? = some cmd ∧ Reads room cmd stage)
    ids p.stages

theorem fits_of_decoded {room : ℕ → ℕ} {p : Pipeline} (h : Decoded room p) :
    ∀ stage ∈ p.stages, stage.Fits room := by
  obtain ⟨s, ids, hparse, -, -, -, -, hreads⟩ := h
  obtain ⟨s', hparse', hs, -, -⟩ := parser_holds p
  obtain rfl : s = s' := Option.some.inj (hparse.symm.trans hparse')
  intro stage hstage
  obtain ⟨hlen, hall⟩ := List.forall₂_iff_get.mp hreads
  obtain ⟨k, hk, rfl⟩ := List.getElem_of_mem hstage
  obtain ⟨cmd, hcmd, hread⟩ := hall k (hlen ▸ hk) hk
  obtain ⟨stage', hdec⟩ := hs.decodes (List.mem_of_getElem? hcmd)
  exact hread.fits hdec

/-- A pipeline is decoded exactly when each of its texts is shorter than the block for as many
bytes, and the names of the table than the block of a pointer. -/
theorem parser_render_iff (room : ℕ → ℕ) (p : Pipeline) :
    Decoded room p ↔ ∀ stage ∈ p.stages, stage.Fits room := by
  refine ⟨fits_of_decoded, fun hfits => ?_⟩
  obtain ⟨s, hparse, hs, hstatus, hmode⟩ := parser_holds p
  refine ⟨s, List.range' 0 p.stages.length, hparse, hstatus, hmode, ?_, last_range hs,
    reads_range hs hfits⟩
  have hlinked := linked_range hs p.stages.length 0 (Nat.zero_add _)
  rw [hs.first]
  exact hlinked

/-- The block of a word of 24 characters has no room for a terminator. -/
theorem parser_render_unterminated : ∃ p : Pipeline,
    p.render = ascii "cat aaaaaaaaaaaaaaaaaaaaaaaa\n" ∧ ¬ Decoded usableSize p := by
  refine ⟨⟨⟨[], nofun⟩, ⟨ascii "cat", Or.inl (by decide), [(⟨ascii " ", by decide, by decide⟩,
    .word (ascii "aaaaaaaaaaaaaaaaaaaaaaaa") (by decide) (by decide +kernel))], by decide⟩, [], none,
    ⟨[], nofun⟩⟩, by decide, fun h => ?_⟩
  have hroom := (fits_of_decoded h _ List.mem_cons_self).texts (ascii "aaaaaaaaaaaaaaaaaaaaaaaa")
    (by decide)
  exact absurd hroom (by decide)

end SystemSoftware.PipelineCommands
