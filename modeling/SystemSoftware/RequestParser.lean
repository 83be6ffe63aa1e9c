import SystemSoftware.StockTree
import Mathlib.Logic.Function.Basic

/-!
The request parser of the stock servers: parser.c over the bytes of a receive
buffer from its start to its end. Each scanning loop walks the buffer until its
stop byte, and `none` is a loop that would leave the buffer. The command list
is that of impl.c; a request names a command by any prefix of its name.
-/
namespace SystemSoftware.RequestParser

open DecimalText StockTree

def blank (c : UInt8) : Bool := c = space || c = tab

inductive Flag
  | noargs
  | intint
  deriving DecidableEq

inductive Handler
  | show
  | sell
  | buy
  | exitClient
  deriving DecidableEq

/-- The fields of `struct command` that the parser fills; `args` holds C strings. -/
structure Command where
  flag : Flag
  name : Text
  args : ℕ → Option Text
  argc : ℕ
  fp : Handler

def clearCommand : Command := ⟨.noargs, [], fun _ => none, 0, .show⟩

/-- What the `args` of a command points to: nothing, the vector that `find_cmd` has allocated
for the request, or memory that has been freed or was never allocated. -/
inductive ArgsPtr
  | null
  | live
  | stray
  deriving DecidableEq

/-- `free_args` reads only the vector of four entries, and frees live memory. -/
def Freeable (args : ArgsPtr) (argc : ℕ) : Prop :=
  match args with
  | .null => argc = 0
  | .live => argc ≤ 4
  | .stray => False

instance : (args : ArgsPtr) → (argc : ℕ) → Decidable (Freeable args argc)
  | .null, argc => inferInstanceAs (Decidable (argc = 0))
  | .live, argc => inferInstanceAs (Decidable (argc ≤ 4))
  | .stray, _ => inferInstanceAs (Decidable False)

def commandList : List (Flag × Text × Handler) :=
  [(.noargs, ascii "show", .show), (.intint, ascii "sell", .sell),
    (.intint, ascii "buy", .buy), (.noargs, ascii "exit", .exitClient)]

def skipBlanks : Text → Option Text
  | [] => none
  | c :: buf => if blank c then skipBlanks buf else some (c :: buf)

/-- The bytes before the first one that stops the loop, and the buffer from there on. -/
def spanTo (stop : UInt8 → Bool) : Text → Option (Text × Text)
  | [] => none
  | c :: buf =>
    if stop c then some ([], c :: buf)
    else do
      let (w, rest) ← spanTo stop buf
      some (c :: w, rest)

theorem skipBlanks_append {b buf : Text} {d : UInt8} (hb : ∀ c ∈ b, blank c = true)
    (hd : blank d = false) : skipBlanks (b ++ d :: buf) = some (d :: buf) := by
  induction b with
  | nil => rw [List.nil_append, skipBlanks, if_neg (by simp [hd])]
  | cons c b ih =>
    rw [List.cons_append, skipBlanks, if_pos (hb c List.mem_cons_self)]
    exact ih fun c hc => hb c (List.mem_cons_of_mem _ hc)

theorem spanTo_append {stop : UInt8 → Bool} {w buf : Text} {d : UInt8}
    (hw : ∀ c ∈ w, stop c = false) (hd : stop d = true) :
    spanTo stop (w ++ d :: buf) = some (w, d :: buf) := by
  induction w with
  | nil => rw [List.nil_append, spanTo, if_pos hd]
  | cons c w ih =>
    have hc : ¬ stop c = true := by simp [hw c List.mem_cons_self]
    rw [List.cons_append, spanTo, if_neg hc, ih fun c hc => hw c (List.mem_cons_of_mem _ hc)]
    rfl

def strncmpEq : Text → Text → ℕ → Bool
  | a :: s, b :: buf, n + 1 => a = b && (a = 0 || strncmpEq s buf n)
  | _, _, 0 => true
  | _, _, _ => false

/-- `strncpy` into a cleared buffer, as the string that is then there. -/
def strncpy (w : Text) : Text := w.takeWhile (· ≠ 0)

theorem strncpy_of_no_zero {w : Text} (hw : ∀ c ∈ w, c ≠ 0) : strncpy w = w :=
  List.takeWhile_eq_self_iff.mpr fun c hc => decide_eq_true (hw c hc)

/-- The loop over the command list, where a later match replaces an earlier one. -/
def matchCommands (buf : Text) (pos : ℕ) (cmd : Command) : Command :=
  commandList.foldl (fun cmd c =>
    if strncmpEq (c.2.1 ++ [0]) buf pos then
      { flag := c.1
        name := c.2.1
        args := Function.update cmd.args 0 (some [])
        argc := 1
        fp := c.2.2 }
    else cmd) cmd

/-- `find_cmd`, and the position behind the name. -/
def findCmd (buf : Text) (cmd : Command) : Option (Status × Command × ℕ) :=
  let cmd := { cmd with args := fun _ => none }
  if buf.head? = some newline then some (.error, cmd, 0)
  else do
    let (w, _) ← spanTo (fun c => blank c || c = newline) buf
    let cmd := matchCommands buf w.length cmd
    if cmd.args 0 = none then some (.error, cmd, 0)
    else some (.success, cmd, w.length)

/-- `find_args`. The loop over the first argument does not stop at a newline. -/
def findArgs (buf : Text) (cmd : Command) : Option (Status × Command) :=
  match cmd.flag with
  | .noargs => do
    let buf ← skipBlanks buf
    if buf.head? ≠ some newline then some (.error, cmd) else some (.success, cmd)
  | .intint => do
    let buf ← skipBlanks buf
    let (w₁, buf) ← spanTo blank buf
    let buf ← skipBlanks buf
    let (w₂, buf) ← spanTo (fun c => blank c || c = newline) buf
    let buf ← skipBlanks buf
    let cmd := { cmd with
      args := Function.update (Function.update cmd.args 1 (some (strncpy w₁))) 2 (some (strncpy w₂))
      argc := 3 }
    if buf.head? ≠ some newline then some (.error, cmd) else some (.success, cmd)

def parser (buf : Text) (rc : Int) (cmd : Command) : Option (Status × Command) :=
  if rc = 1 then some (.nl, cmd)
  else do
    let (st, cmd, p) ← findCmd buf cmd
    if st = .error then some (.nocmd, cmd)
    else do
      let (st, cmd) ← findArgs (buf.drop p) cmd
      if st = .error then some (.invarg, cmd) else some (.success, cmd)

variable {buf : Text} {rc : Int} {cmd cmd' : Command} {st : Status}

/-- The command is one of the list, with the arguments that its flag asks for. -/
structure Selected (cmd : Command) : Prop where
  listed : (cmd.flag, cmd.name, cmd.fp) ∈ commandList
  args : cmd.flag = .intint → ∃ a b, cmd.args 1 = some a ∧ cmd.args 2 = some b

theorem Selected.cases (h : Selected cmd) :
    (cmd.fp = .show ∧ cmd.name = ascii "show") ∨
      ((cmd.fp = .sell ∨ cmd.fp = .buy) ∧ cmd.flag = .intint ∧ cmd.name.length ≤ 4) ∨
        (cmd.fp = .exitClient ∧ cmd.name = ascii "exit") := by
  have hmem := h.listed
  simp only [commandList, List.mem_cons, Prod.mk.injEq, List.not_mem_nil, or_false] at hmem
  rcases hmem with ⟨-, hname, hfp⟩ | ⟨hflag, hname, hfp⟩ | ⟨hflag, hname, hfp⟩ | ⟨-, hname, hfp⟩
  · exact Or.inl ⟨hfp, hname⟩
  · exact Or.inr (Or.inl ⟨Or.inl hfp, hflag, by rw [hname]; decide⟩)
  · exact Or.inr (Or.inl ⟨Or.inr hfp, hflag, by rw [hname]; decide⟩)
  · exact Or.inr (Or.inr ⟨hfp, hname⟩)

/-- What `parser` returns: the request is refused, or a command of the list selected. -/
def Decoded (st : Status) (cmd : Command) : Prop :=
  st = .nl ∨ st = .nocmd ∨ st = .invarg ∨ (st = .success ∧ Selected cmd)

/-- The loop over the command list keeps the command or selects one of the list. -/
theorem matchCommands_cases (buf : Text) (pos : ℕ) (cmd : Command) :
    matchCommands buf pos cmd = cmd ∨
      ((matchCommands buf pos cmd).flag, (matchCommands buf pos cmd).name,
        (matchCommands buf pos cmd).fp) ∈ commandList := by
  have hfold : ∀ (l : List (Flag × Text × Handler)) (cmd₁ : Command), l ⊆ commandList →
      cmd₁ = cmd ∨ (cmd₁.flag, cmd₁.name, cmd₁.fp) ∈ commandList →
      let last := l.foldl (fun cmd c =>
        if strncmpEq (c.2.1 ++ [0]) buf pos then
          { flag := c.1
            name := c.2.1
            args := Function.update cmd.args 0 (some [])
            argc := 1
            fp := c.2.2 : Command }
        else cmd) cmd₁
      last = cmd ∨ (last.flag, last.name, last.fp) ∈ commandList := by
    intro l
    induction l with
    | nil => exact fun cmd₁ _ h => h
    | cons c l ih =>
      intro cmd₁ hl h
      rw [List.cons_subset] at hl
      rw [List.foldl_cons]
      apply ih _ hl.2
      split
      · exact Or.inr hl.1
      · exact h
  exact hfold commandList cmd (List.Subset.refl _) (Or.inl rfl)

theorem findCmd_listed {p : ℕ} (h : findCmd buf cmd = some (st, cmd', p)) (hst : st ≠ .error) :
    (cmd'.flag, cmd'.name, cmd'.fp) ∈ commandList := by
  unfold findCmd at h
  split at h
  · exact absurd (Prod.mk.inj (Option.some.inj h)).1.symm hst
  · simp only [Option.bind_eq_bind, Option.bind_eq_some_iff] at h
    obtain ⟨⟨w, rest⟩, -, h⟩ := h
    split at h
    · exact absurd (Prod.mk.inj (Option.some.inj h)).1.symm hst
    rename_i hargs
    obtain ⟨-, hcmd⟩ := Prod.mk.inj (Option.some.inj h)
    obtain ⟨rfl, -⟩ := Prod.mk.inj hcmd
    rcases matchCommands_cases buf w.length { cmd with args := fun _ => none } with heq | hmem
    · rw [heq] at hargs
      exact absurd rfl hargs
    · exact hmem

/-- Both branches of a status test carry the same value. -/
theorem snd_of_ite {α β : Type} {p : Prop} [Decidable p] {a b x : α} {y z : β}
    (h : (if p then some (a, y) else some (b, y)) = some (x, z)) : z = y := by
  split at h
  · exact (Prod.mk.inj (Option.some.inj h)).2.symm
  · exact (Prod.mk.inj (Option.some.inj h)).2.symm

/-- Reading the arguments keeps the command, and stores those of its flag. -/
theorem findArgs_cases (h : findArgs buf cmd = some (st, cmd')) :
    cmd'.flag = cmd.flag ∧ cmd'.name = cmd.name ∧ cmd'.fp = cmd.fp ∧
      (cmd'.flag = .intint → ∃ a b, cmd'.args 1 = some a ∧ cmd'.args 2 = some b) := by
  unfold findArgs at h
  split at h
  · rename_i hflag
    obtain ⟨rest, -, h⟩ := Option.bind_eq_some_iff.mp h
    obtain rfl := snd_of_ite h
    refine ⟨rfl, rfl, rfl, fun hint => ?_⟩
    rw [hflag] at hint
    cases hint
  · simp only [Option.bind_eq_bind, Option.bind_eq_some_iff] at h
    obtain ⟨_, -, ⟨w₁, _⟩, -, _, -, ⟨w₂, _⟩, -, rest, -, h⟩ := h
    have hcmd : cmd' = { cmd with
        args := Function.update (Function.update cmd.args 1 (some (strncpy w₁))) 2
          (some (strncpy w₂))
        argc := 3 } := snd_of_ite h
    subst hcmd
    refine ⟨rfl, rfl, rfl, fun _ => ⟨strncpy w₁, strncpy w₂, ?_, ?_⟩⟩
    · dsimp only
      rw [Function.update_of_ne (by decide), Function.update_self]
    · dsimp only
      rw [Function.update_self]

theorem parser_decoded (h : parser buf rc cmd = some (st, cmd')) : Decoded st cmd' := by
  unfold parser at h
  split at h
  · exact Or.inl (Prod.mk.inj (Option.some.inj h)).1.symm
  · simp only [Option.bind_eq_bind, Option.bind_eq_some_iff] at h
    obtain ⟨⟨st₁, cmd₁, p⟩, hcmd, h⟩ := h
    split at h
    · exact Or.inr (Or.inl (Prod.mk.inj (Option.some.inj h)).1.symm)
    rename_i hst
    simp only [Option.bind_eq_some_iff] at h
    obtain ⟨⟨st₂, cmd₂⟩, hargs, h⟩ := h
    obtain ⟨hflag, hname, hfp, hints⟩ := findArgs_cases hargs
    split at h
    · exact Or.inr (Or.inr (Or.inl (Prod.mk.inj (Option.some.inj h)).1.symm))
    · obtain ⟨rfl, rfl⟩ := Prod.mk.inj (Option.some.inj h)
      refine Or.inr (Or.inr (Or.inr ⟨rfl, ?_, hints⟩))
      rw [hflag, hname, hfp]
      exact findCmd_listed hcmd hst

end SystemSoftware.RequestParser
