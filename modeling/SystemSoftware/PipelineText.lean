import SystemSoftware.ShellParser

/-!
Pipelines as a user writes them, and what the parser of myshell makes of them.
A pipeline is kept with its layout, the blanks between its tokens. Parsing the
text of a pipeline gives back its stages, each as one command with its word and
its arguments, linked to its neighbours in both directions.
-/
namespace SystemSoftware.PipelineText

open DecimalText ShellCommands ShellParser
open RequestParser (blank skipBlanks spanTo skipBlanks_append spanTo_append)

/-- A character of a word. The zero byte is the terminator of the line. -/
def plainChar (c : UInt8) : Bool :=
  !(blank c || c = pipe || c = ampersand || c = dapostrophe || c = newline || c = 0)

def quotable (c : UInt8) : Bool := !(c = dapostrophe || c = pipe || c = newline || c = 0)

abbrev Blanks := {t : Text // ∀ c ∈ t, blank c = true}

abbrev Gap := {t : Text // t ≠ [] ∧ ∀ c ∈ t, blank c = true}

inductive Argument
  | word (w : Text) (hne : w ≠ []) (hplain : ∀ c ∈ w, plainChar c = true)
  | quoted (content : Text) (hquotable : ∀ c ∈ content, quotable c = true)

namespace Argument

def text : Argument → Text
  | word w _ _ => w
  | quoted content _ => content

def render : Argument → Text
  | word w _ _ => w
  | quoted content _ => dapostrophe :: content ++ [dapostrophe]

end Argument

def IsCommandWord (w : Text) : Prop :=
  (∃ e ∈ commandList, e.builtin.name = w) ∨ ∃ t, w = dot :: t ∧ ∀ c ∈ t, plainChar c = true

structure Stage where
  word : Text
  isCommandWord : IsCommandWord word
  arguments : List (Gap × Argument)
  few : arguments.length ≤ 14

namespace Stage

def flag (stage : Stage) : CmdFlag :=
  match commandList.find? (·.builtin.name = stage.word) with
  | some e => e.f
  | none => .relative

def texts (stage : Stage) : List Text := stage.word :: stage.arguments.map (·.2.text)

/-- The texts of the stage and behind them null pointers, at least one. -/
def vector (stage : Stage) : List (Option Text) :=
  stage.texts.map some ++ List.replicate (maxArgs - stage.texts.length) none

/-- The blocks for the texts of the stage have room for their terminators. -/
structure Fits (room : ℕ → ℕ) (stage : Stage) : Prop where
  texts : ∀ t ∈ stage.texts, t.length < room t.length
  name : stage.flag ≠ .relative → stage.word.length < room pointerSize

end Stage

def renderArguments (args : List (Gap × Argument)) : Text :=
  args.flatMap fun a => a.1.val ++ a.2.render

def Stage.render (stage : Stage) : Text := stage.word ++ renderArguments stage.arguments

abbrev Piped := Blanks × Blanks × Stage

structure Pipeline where
  lead : Blanks
  first : Stage
  piped : List Piped
  background : Option Gap
  trail : Blanks

namespace Pipeline

def stages (p : Pipeline) : List Stage := p.first :: p.piped.map (·.2.2)

def ending (p : Pipeline) : Text :=
  match p.background with
  | none => p.trail.val ++ [newline]
  | some gap => gap.val ++ ampersand :: (p.trail.val ++ [newline])

def renderPiped (piped : List Piped) (ending : Text) : Text :=
  match piped with
  | [] => ending
  | (before, after, stage) :: piped =>
    before.val ++ pipe :: (after.val ++ (stage.render ++ renderPiped piped ending))

def render (p : Pipeline) : Text :=
  p.lead.val ++ (p.first.render ++ renderPiped p.piped p.ending)

end Pipeline

/-- The blanks behind a stage and the character that ends it. An ampersand has a
blank in front. -/
structure Separator where
  blanks : Text
  stop : UInt8
  all_blank : ∀ c ∈ blanks, blank c = true
  stops : stop = newline ∨ stop = pipe ∨ stop = ampersand ∧ blanks ≠ []

def behind (args : List (Gap × Argument)) (sep : Separator) (more : Text) : Text :=
  renderArguments args ++ (sep.blanks ++ sep.stop :: more)

/-- The same behind the next blanks. -/
def reached (args : List (Gap × Argument)) (sep : Separator) (more : Text) : Text :=
  match args with
  | [] => sep.stop :: more
  | a :: args => a.2.render ++ behind args sep more

section Characters

variable {c : UInt8}

theorem plainChar_iff : plainChar c = true ↔
    blank c = false ∧ c ≠ pipe ∧ c ≠ ampersand ∧ c ≠ dapostrophe ∧ c ≠ newline ∧ c ≠ 0 := by
  simp only [plainChar, Bool.not_eq_true', Bool.or_eq_false_iff, decide_eq_false_iff_not, and_assoc]

theorem quotable_iff : quotable c = true ↔
    c ≠ dapostrophe ∧ c ≠ pipe ∧ c ≠ newline ∧ c ≠ 0 := by
  simp only [quotable, Bool.not_eq_true', Bool.or_eq_false_iff, decide_eq_false_iff_not, and_assoc]

theorem Separator.stop_not_blank (sep : Separator) : blank sep.stop = false := by
  rcases sep.stops with h | h | ⟨h, -⟩ <;> rw [h] <;> decide

end Characters

section Arguments

variable {cmd : Command} {d : UInt8} {rest line more : Text} {sep : Separator} {rounds argc : ℕ}
  {args : List (Gap × Argument)}

/-- Behind a word comes a blank, a newline or a pipe. -/
theorem behind_cons (args : List (Gap × Argument)) (sep : Separator) (more : Text) :
    ∃ d rest, behind args sep more = d :: rest ∧ (blank d = true ∨ d = newline ∨ d = pipe) := by
  cases args with
  | nil =>
    cases hb : sep.blanks with
    | nil =>
      refine ⟨sep.stop, more, by rw [behind, hb]; rfl, Or.inr ?_⟩
      rcases sep.stops with h | h | ⟨-, hne⟩
      · exact Or.inl h
      · exact Or.inr h
      · exact absurd hb hne
    | cons c b =>
      have hc : blank c = true := sep.all_blank c (by rw [hb]; exact List.mem_cons_self)
      exact ⟨c, b ++ sep.stop :: more, by rw [behind, hb]; rfl, Or.inl hc⟩
  | cons a args =>
    obtain ⟨⟨gap, hne, hgap⟩, a⟩ := a
    obtain ⟨c, gap, rfl⟩ := List.exists_cons_of_ne_nil hne
    exact ⟨c, _, rfl, Or.inl (hgap c List.mem_cons_self)⟩

theorem Argument.render_cons (a : Argument) :
    ∃ c t, a.render = c :: t ∧ blank c = false := by
  cases a with
  | word w hne hplain =>
    obtain ⟨c, t, rfl⟩ := List.exists_cons_of_ne_nil hne
    exact ⟨c, t, rfl, (plainChar_iff.mp (hplain c List.mem_cons_self)).1⟩
  | quoted content _ => exact ⟨dapostrophe, content ++ [dapostrophe], rfl, by decide⟩

theorem skipBlanks_behind (args : List (Gap × Argument)) (sep : Separator) (more : Text) :
    skipBlanks (behind args sep more) = some (reached args sep more) := by
  cases args with
  | nil => exact skipBlanks_append sep.all_blank sep.stop_not_blank
  | cons a args =>
    obtain ⟨c, t, hrender, hc⟩ := a.2.render_cons
    have hsplit : behind (a :: args) sep more = a.1.val ++ c :: (t ++ behind args sep more) := by
      simp only [behind, renderArguments, List.flatMap_cons, hrender, List.append_assoc,
        List.cons_append]
    rw [hsplit, skipBlanks_append a.1.property.2 hc, reached, hrender, List.cons_append]

/-- One round of the loop reads one argument and the blanks behind it. -/
theorem argumentLoop_argument (a : Argument) (hd : blank d = true ∨ d = newline ∨ d = pipe)
    (hskip : skipBlanks (d :: rest) = some line) :
    argumentLoop cmd (rounds + 1) argc (a.render ++ d :: rest) =
      argumentLoop (setArgument cmd argc (some a.text)) rounds (argc + 1) line := by
  cases a with
  | word w hne hplain =>
    obtain ⟨c, t, rfl⟩ := List.exists_cons_of_ne_nil hne
    obtain ⟨-, -, hamp, hquote, -, -⟩ := plainChar_iff.mp (hplain c List.mem_cons_self)
    have hspan : spanTo (fun c => blank c || c = newline || c = pipe || c = ampersand)
        (c :: t ++ d :: rest) = some (c :: t, d :: rest) := by
      apply spanTo_append
      · intro c hc
        obtain ⟨h₁, h₂, h₃, -, h₅, -⟩ := plainChar_iff.mp (hplain c hc)
        simp [h₁, h₂, h₃, h₅]
      · rcases hd with h | rfl | rfl <;> simp [*]
    have hcopy : strncpy (c :: t) = c :: t :=
      strncpy_of_no_zero fun c hc => (plainChar_iff.mp (hplain c hc)).2.2.2.2.2
    have hhead : (c :: t ++ d :: rest).head? = some c := rfl
    simp only [Argument.render, Argument.text, argumentLoop, hhead, hspan, Option.bind_eq_bind,
      Option.bind_some, if_neg hamp, if_neg hquote, if_neg hne, hcopy, hskip]
  | quoted content hquotable =>
    have hspan : spanTo (fun c => c = dapostrophe || c = pipe || c = newline)
        (content ++ dapostrophe :: d :: rest) = some (content, dapostrophe :: d :: rest) := by
      apply spanTo_append
      · intro c hc
        obtain ⟨h₁, h₂, h₃, -⟩ := quotable_iff.mp (hquotable c hc)
        simp [h₁, h₂, h₃]
      · decide
    have hcopy : strncpy content = content :=
      strncpy_of_no_zero fun c hc => (quotable_iff.mp (hquotable c hc)).2.2.2
    have htext : dapostrophe :: content ++ [dapostrophe] ++ d :: rest =
        dapostrophe :: (content ++ dapostrophe :: d :: rest) := by simp
    simp only [Argument.render, Argument.text, argumentLoop, htext, List.head?_cons, List.tail_cons,
      hspan, Option.bind_eq_bind, Option.bind_some, if_neg (by decide : ¬ dapostrophe = ampersand),
      if_true, hcopy, hskip]

theorem set_append_replicate {α : Type*} (pre : List (Option α)) (x : Option α) (k : ℕ) :
    (pre ++ List.replicate (k + 1) none).set pre.length x = pre ++ [x] ++ List.replicate k none := by
  rw [List.set_append_right _ _ le_rfl, Nat.sub_self, List.replicate_succ, List.set_cons_zero,
    List.append_assoc, List.singleton_append]

/-- The loop ends at the separator; closing the arguments stores a null pointer
where there is one already. -/
theorem argumentLoop_end {pre : List (Option Text)} (sep : Separator) (more : Text)
    (hvec : cmd.arguments = pre ++ List.replicate (rounds + 1) none) :
    ∃ n, argumentLoop cmd (rounds + 1) pre.length (sep.stop :: more) =
      some ({ cmd with argc := n }, sep.stop :: more) := by
  by_cases hamp : sep.stop = ampersand
  · refine ⟨cmd.argc, ?_⟩
    simp only [argumentLoop, List.head?_cons, Option.bind_eq_bind, Option.bind_some, if_pos hamp]
  · have hstops : sep.stop = newline ∨ sep.stop = pipe :=
      (or_assoc.mpr sep.stops).resolve_right fun h => hamp h.1
    have hquote : sep.stop ≠ dapostrophe := by
      rcases hstops with h | h <;> rw [h] <;> decide
    have hspan : spanTo (fun c => blank c || c = newline || c = pipe || c = ampersand)
        (sep.stop :: more) = some ([], sep.stop :: more) := by
      apply spanTo_append (w := [])
      · exact fun _ hc => absurd hc List.not_mem_nil
      · rcases hstops with h | h <;> rw [h] <;> decide
    have hset : cmd.arguments.set pre.length none = cmd.arguments := by
      rw [hvec, set_append_replicate, List.append_assoc, List.singleton_append,
        List.replicate_succ]
    refine ⟨pre.length, ?_⟩
    simp only [argumentLoop, List.head?_cons, hspan, Option.bind_eq_bind, Option.bind_some,
      if_neg hamp, if_neg hquote, if_true, closeArguments, setArgument, hset]

/-- The loop stores the texts of the arguments one behind another. -/
theorem argumentLoop_arguments (args : List (Gap × Argument)) (sep : Separator) (more : Text)
    (k : ℕ) : ∀ (cmd : Command) (pre : List (Option Text)),
    cmd.arguments = pre ++ List.replicate (args.length + (k + 1)) none →
    ∃ n, argumentLoop cmd (args.length + (k + 1)) pre.length (reached args sep more) =
      some ({ cmd with
        argc := n
        arguments := pre ++ args.map (fun a => some a.2.text) ++ List.replicate (k + 1) none },
        sep.stop :: more) := by
  induction args with
  | nil =>
    intro cmd pre hvec
    rw [List.length_nil, Nat.zero_add] at hvec ⊢
    obtain ⟨n, hend⟩ := argumentLoop_end sep more hvec
    refine ⟨n, ?_⟩
    rw [reached, hend, List.map_nil, List.append_nil, ← hvec]
  | cons a args ih =>
    intro cmd pre hvec
    obtain ⟨d, rest, hbehind, hd⟩ := behind_cons args sep more
    have hskip := skipBlanks_behind args sep more
    have hrounds : (a :: args).length + (k + 1) = args.length + (k + 1) + 1 := by
      rw [List.length_cons]
      omega
    rw [hrounds] at hvec ⊢
    have hset : (setArgument cmd pre.length (some a.2.text)).arguments =
        pre ++ [some a.2.text] ++ List.replicate (args.length + (k + 1)) none := by
      rw [setArgument, hvec, set_append_replicate]
    obtain ⟨n, hrec⟩ := ih _ _ hset
    refine ⟨n, ?_⟩
    rw [List.length_append, List.length_singleton] at hrec
    rw [hbehind] at hskip
    rw [reached, hbehind, argumentLoop_argument a.2 hd hskip, hrec]
    simp only [setArgument, List.map_cons, List.append_assoc, List.cons_append, List.nil_append]

/-- `find_arguments` reads the arguments of a stage. -/
theorem findArguments_stage (stage : Stage) (sep : Separator) (more : Text)
    (hname : cmd.builtin.name = stage.word) :
    ∃ n, findArguments cmd (reached stage.arguments sep more) =
      some (.ok, { cmd with argc := n, arguments := stage.vector }, sep.stop :: more) := by
  have hfew := stage.few
  have hmax : maxArgs = 16 := rfl
  obtain ⟨k, hk⟩ : ∃ k, maxArgs - 1 = stage.arguments.length + (k + 1) :=
    ⟨14 - stage.arguments.length, by omega⟩
  have hvec : (setArgument { cmd with arguments := List.replicate maxArgs none } 0
      (some cmd.builtin.name)).arguments =
        [some stage.word] ++ List.replicate (stage.arguments.length + (k + 1)) none := by
    rw [← hk, ← hname]
    rfl
  obtain ⟨n, hloop⟩ := argumentLoop_arguments stage.arguments sep more k _ _ hvec
  have hvector : stage.vector = [some stage.word] ++
      stage.arguments.map (fun a => some a.2.text) ++ List.replicate (k + 1) none := by
    have hlen : maxArgs - stage.texts.length = k + 1 := by
      rw [Stage.texts, List.length_cons, List.length_map]
      omega
    rw [Stage.vector, hlen, Stage.texts, List.map_cons, List.map_map]
    rfl
  refine ⟨n, ?_⟩
  simp only [setArgument, List.length_singleton] at hloop
  rw [findArguments, hk, hvector]
  simp only [setArgument, hloop, Option.bind_eq_bind, Option.bind_some]

end Arguments

section Word

theorem IsCommandWord.cons {w : Text} (hw : IsCommandWord w) :
    ∃ c t, w = c :: t ∧ blank c = false ∧ c ≠ newline := by
  rcases hw with ⟨e, he, rfl⟩ | ⟨t, rfl, -⟩
  · obtain ⟨c, t, heq, -, hblank, hnewline⟩ := name_cons e he
    exact ⟨c, t, heq, hblank, hnewline⟩
  · exact ⟨dot, t, rfl, by decide, by decide⟩

theorem find_listed : ∀ e ∈ commandList,
    commandList.find? (·.builtin.name = e.builtin.name) = some e := by decide

/-- `find_shell_command` reads the command word of a stage. -/
theorem findShellCommand_stage (stage : Stage) (sep : Separator) (more : Text) :
    ∃ fp, findShellCommand (stage.word ++ behind stage.arguments sep more) =
      some (.ok, behind stage.arguments sep more, some (newCommand stage.flag stage.word fp)) := by
  rcases stage.isCommandWord with ⟨e, he, hname⟩ | ⟨t, hdot, hplain⟩
  · have hflag : stage.flag = e.f := by rw [Stage.flag, ← hname, find_listed e he]
    rw [hflag, ← hname]
    exact ⟨_, findShellCommand_listed he⟩
  · have hflag : stage.flag = .relative := by
      have hnone : commandList.find? (·.builtin.name = stage.word) = none := by
        apply List.find?_eq_none.mpr
        intro e he heq
        obtain ⟨c, u, hcons, hc, -⟩ := name_cons e he
        rw [decide_eq_true_eq, hcons, hdot] at heq
        exact hc (List.cons.inj heq).1
      rw [Stage.flag, hnone]
    obtain ⟨d, rest, hbehind, hd⟩ := behind_cons stage.arguments sep more
    rw [hflag, hdot, hbehind]
    refine ⟨none, findShellCommand_dot (fun c hc => ?_) (fun c hc => ?_) hd⟩
    · obtain ⟨h₁, h₂, -, -, h₅, -⟩ := plainChar_iff.mp (hplain c hc)
      exact ⟨h₁, h₅, h₂⟩
    · exact (plainChar_iff.mp (hplain c hc)).2.2.2.2.2

theorem IsCommandWord.no_zero {w : Text} (hw : IsCommandWord w) : 0 ∉ w := by
  rcases hw with ⟨e, he, rfl⟩ | ⟨t, rfl, hplain⟩
  · have hall : ∀ e ∈ commandList, 0 ∉ e.builtin.name := by decide
    exact hall e he
  · intro h
    rcases List.mem_cons.mp h with hdot | ht
    · exact absurd hdot (by decide)
    · exact (plainChar_iff.mp (hplain 0 ht)).2.2.2.2.2 rfl

theorem Argument.no_zero (a : Argument) : 0 ∉ a.text := by
  intro h
  cases a with
  | word w _ hplain => exact (plainChar_iff.mp (hplain 0 h)).2.2.2.2.2 rfl
  | quoted content hquotable => exact (quotable_iff.mp (hquotable 0 h)).2.2.2 rfl

theorem Stage.no_zero (stage : Stage) : ∀ t ∈ stage.texts, 0 ∉ t := by
  intro t ht
  rcases List.mem_cons.mp ht with rfl | ht
  · exact stage.isCommandWord.no_zero
  · obtain ⟨a, -, rfl⟩ := List.mem_map.mp ht
    exact a.2.no_zero

theorem Stage.mem_vector {stage : Stage} {t : Text} :
    some t ∈ stage.vector ↔ t ∈ stage.texts := by
  simp [Stage.vector]

end Word

end SystemSoftware.PipelineText
