import SystemSoftware.ShellCommands

/-!
The parser of myshell: interpreter.c over the bytes of a command line. It reads
the stages of a pipeline one after another, each a command word and its
arguments, and links their commands in both directions. Names and arguments are
the bytes that are stored in their blocks. `none` is the result of a parser that
reads on behind the line.
-/
namespace SystemSoftware.ShellParser

open DecimalText ShellCommands
open RequestParser (blank skipBlanks spanTo)

abbrev maxArgs : ℕ := 16

inductive Mode
  | background
  | foreground
  deriving DecidableEq

/-- A store to `arguments[i]`; one behind the vector is ignored. -/
def setArgument (cmd : Command) (i : ℕ) (arg : Option Text) : Command :=
  { cmd with arguments := cmd.arguments.set i arg }

def closeArguments (cmd : Command) (argc : ℕ) : Command :=
  { setArgument cmd argc none with argc := argc }

/-- The loop of `find_arguments` with `rounds` rounds left before `MAXARGS`. It
returns at an ampersand without closing the arguments. -/
def argumentLoop (cmd : Command) : ℕ → ℕ → Text → Option (Command × Text)
  | 0, argc, line => some (closeArguments cmd argc, line)
  | rounds + 1, argc, line => do
    let c ← line.head?
    if c = ampersand then some (cmd, line)
    else if c = dapostrophe then
      let (content, after) ←
        spanTo (fun c => c = dapostrophe || c = pipe || c = newline) line.tail
      -- A quote that nothing closes is an argument by itself.
      let (arg, line) :=
        if after.head? = some dapostrophe then (strncpy content, after.tail)
        else ([dapostrophe, 0], line.tail)
      argumentLoop (setArgument cmd argc (some arg)) rounds (argc + 1) (← skipBlanks line)
    else
      let (arg, line) ←
        spanTo (fun c => blank c || c = newline || c = pipe || c = ampersand) line
      if arg = [] then some (closeArguments cmd argc, line)
      else
        argumentLoop (setArgument cmd argc (some (strncpy arg))) rounds (argc + 1)
          (← skipBlanks line)

def findArguments (cmd : Command) (line : Text) : Option (Status × Command × Text) := do
  let cmd := { cmd with arguments := List.replicate maxArgs none }
  let (cmd, line) ←
    argumentLoop (setArgument cmd 0 (some cmd.builtin.name)) (maxArgs - 1) 1 line
  some (.ok, cmd, line)

/-- The commands allocated so far and the variables of the parser; the status is
indeterminate at first. -/
structure Parser where
  commands : List Command
  firstCommand : Option ℕ
  lastCommand : Option ℕ
  previousCommand : Option ℕ
  mode : Mode
  status : Option Status

/-- The parser's part in allocating a command: linking it to the one before. -/
def link (s : Parser) (cbuf : Command) : Parser :=
  let n := s.commands.length
  { s with
    commands := match s.previousCommand with
      | none => s.commands ++ [cbuf]
      | some p => (s.commands.modify p fun cmd => { cmd with redirectto := some n }) ++
          [{ cbuf with redirectfrom := some p }]
    firstCommand := if s.firstCommand = none then some n else s.firstCommand
    lastCommand := some n
    previousCommand := some n }

def parserLoop : ℕ → Parser → Text → Option Parser
  | 0, _, _ => none
  | rounds + 1, s, line => do
    if (← line.head?) = newline then some s
    else
      let line ← skipBlanks line
      if (← line.head?) = newline then some s
      else
        let (status, line, cbuf) ← findShellCommand line
        let s := { s with status := some status }
        if status ≠ .ok then some s
        else
          let n := s.commands.length
          let s := link s (← cbuf)
          let line ← skipBlanks line
          let (status, cmd, line) ← findArguments (← s.commands[n]?) line
          let s := { s with commands := s.commands.set n cmd, status := some status }
          if status ≠ .ok then some s
          else
            let line ← skipBlanks line
            let c ← line.head?
            if c = ampersand then
              let s := { s with mode := .background }
              let line ← skipBlanks line.tail
              if (← line.head?) ≠ newline then some { s with status := some .syntaxErr }
              else some s
            else if c = pipe then parserLoop rounds { s with status := some .buffering } line.tail
            else parserLoop rounds s line

/-- `parser` as it is called, with null pointers and in the foreground. -/
def parser (cmdline : Text) : Option Parser :=
  parserLoop (cmdline.length + 1) ⟨[], none, none, none, .foreground, none⟩ cmdline

end SystemSoftware.ShellParser
