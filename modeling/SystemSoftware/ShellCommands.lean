import SystemSoftware.RequestParser
import SystemSoftware.BinarySearch
import Mathlib.Data.List.GetD

/-!
The commands of myshell: the table of builtin.c and the search for the command
word by interpreter.c. Pointers to commands are numbers, given in the order of
allocation. A command line is what follows the cursor. A block is the bytes that
are stored in it. The source asks for as many as a text has, without one for the
terminator, so it depends on the room that the allocator leaves behind them what
is read there later.
-/
namespace SystemSoftware.ShellCommands

open DecimalText BinarySearch
open RequestParser (blank skipBlanks spanTo)

abbrev pipe : UInt8 := 124
abbrev ampersand : UInt8 := 38
abbrev dapostrophe : UInt8 := 34
abbrev dot : UInt8 := 46

/-- What `strncpy` of all characters of a text stores before it pads the block with zeros. -/
def strncpy (src : Text) : Text := src.take ((src.takeWhile (· ≠ 0)).length + 1)

/-- The string in a block from `calloc`, where the allocator has zeroed `room n` bytes for `n`
that were asked for; `none` if no terminator is among them. -/
def cstring (room : ℕ → ℕ) (bytes : Text) : Option Text :=
  if 0 ∈ bytes ∨ bytes.length < room bytes.length then some (bytes.takeWhile (· ≠ 0)) else none

/-- `malloc_usable_size` of glibc on a machine of 64 bits. -/
def usableSize (n : ℕ) : ℕ := max 24 ((n + 23) / 16 * 16 - 8)

inductive Status
  | ok
  | buffering
  | syntaxErr
  | noCommandErr
  deriving DecidableEq

inductive CmdFlag
  | absolute
  | function
  | relative
  deriving DecidableEq

inductive Handler
  | bg
  | changeDirectory
  | exit
  | fg
  | printJobs
  | killJob
  deriving DecidableEq

structure Builtin where
  name : Text
  fp : Option Handler
  deriving DecidableEq

/-- `struct command`; the empty vector of arguments is the null pointer. -/
structure Command where
  argc : ℕ
  arguments : List (Option Text)
  f : CmdFlag
  redirectto : Option ℕ
  redirectfrom : Option ℕ
  builtin : Builtin
  deriving DecidableEq

abbrev pointerSize : ℕ := 8

/-- `builtin->name` as a string. A name of the table is copied with its terminator, into a block
of the size of a pointer. -/
def Command.name (room : ℕ → ℕ) (cmd : Command) : Option Text :=
  if cmd.f = .relative then cstring room cmd.builtin.name
  else if cmd.builtin.name.length < room pointerSize then some cmd.builtin.name
  else none

/-- A vector of arguments as an array of strings. -/
def strings (room : ℕ → ℕ) : List (Option Text) → Option (List (Option Text))
  | [] => some []
  | none :: arguments => (strings room arguments).map (none :: ·)
  | some bytes :: arguments => do
    let text ← cstring room bytes
    (strings room arguments).map (some text :: ·)

section Strings

variable {room : ℕ → ℕ} {bytes src text : Text} {arguments texts : List (Option Text)}

theorem strncpy_append (h : ∀ c ∈ src, c ≠ 0) (rest : Text) :
    strncpy (src ++ rest) = src ++ strncpy rest := by
  have hsplit : (src ++ rest).takeWhile (· ≠ 0) = src ++ rest.takeWhile (· ≠ 0) :=
    List.takeWhile_append_of_pos fun c hc => decide_eq_true (h c hc)
  rw [strncpy, hsplit, List.length_append, Nat.add_assoc, List.take_length_add_append]
  rfl

theorem strncpy_of_no_zero (h : ∀ c ∈ src, c ≠ 0) : strncpy src = src := by
  have happend := strncpy_append h []
  rwa [List.append_nil, show strncpy [] = [] from rfl, List.append_nil] at happend

/-- The bytes of a text are read as the text where the block has room for one more. -/
theorem cstring_eq_some_iff (h : 0 ∉ bytes) :
    cstring room bytes = some text ↔ bytes = text ∧ bytes.length < room bytes.length := by
  have hall : bytes.takeWhile (· ≠ 0) = bytes :=
    List.takeWhile_eq_self_iff.mpr fun c hc => decide_eq_true fun hzero => h (hzero ▸ hc)
  rw [cstring, Option.ite_none_right_eq_some, hall, Option.some.injEq]
  simp only [h, false_or]
  exact And.comm

theorem strings_eq_some_iff (h : ∀ bytes, some bytes ∈ arguments → 0 ∉ bytes) :
    strings room arguments = some texts ↔
      arguments = texts ∧ ∀ bytes, some bytes ∈ arguments → bytes.length < room bytes.length := by
  induction arguments generalizing texts with
  | nil => simp [strings, eq_comm]
  | cons argument arguments ih =>
    have hrest := fun texts => @ih texts fun bytes hb => h bytes (List.mem_cons_of_mem _ hb)
    cases argument with
    | none =>
      rw [strings, Option.map_eq_some_iff]
      constructor
      · rintro ⟨texts, htexts, rfl⟩
        obtain ⟨rfl, hlt⟩ := (hrest texts).mp htexts
        exact ⟨rfl, by simpa using hlt⟩
      · rintro ⟨rfl, hlt⟩
        exact ⟨arguments, (hrest arguments).mpr ⟨rfl, by simpa using hlt⟩, rfl⟩
    | some bytes =>
      have hbytes : ∀ text, cstring room bytes = some text ↔
          bytes = text ∧ bytes.length < room bytes.length :=
        fun text => cstring_eq_some_iff (h bytes List.mem_cons_self)
      rw [strings, Option.bind_eq_bind, Option.bind_eq_some_iff]
      constructor
      · rintro ⟨text, htext, hmap⟩
        obtain ⟨rfl, hroom⟩ := (hbytes text).mp htext
        obtain ⟨texts, htexts, rfl⟩ := Option.map_eq_some_iff.mp hmap
        obtain ⟨rfl, hlt⟩ := (hrest texts).mp htexts
        exact ⟨rfl, by simpa using ⟨hroom, hlt⟩⟩
      · rintro ⟨rfl, hlt⟩
        have hlt' : bytes.length < room bytes.length ∧
            ∀ bytes, some bytes ∈ arguments → bytes.length < room bytes.length := by
          simpa using hlt
        exact ⟨bytes, (hbytes bytes).mpr ⟨rfl, hlt'.1⟩,
          Option.map_eq_some_iff.mpr ⟨arguments, (hrest arguments).mpr ⟨rfl, hlt'.2⟩, rfl⟩⟩

end Strings

def newCommand (f : CmdFlag) (name : Text) (fp : Option Handler) : Command :=
  ⟨0, [], f, none, none, ⟨name, fp⟩⟩

def commandList : List Command :=
  [newCommand .function (ascii "bg") (some .bg),
    newCommand .absolute (ascii "cat") none,
    newCommand .function (ascii "cd") (some .changeDirectory),
    newCommand .absolute (ascii "clear") none,
    newCommand .absolute (ascii "code") none,
    newCommand .absolute (ascii "echo") none,
    newCommand .function (ascii "exit") (some .exit),
    newCommand .function (ascii "fg") (some .fg),
    newCommand .absolute (ascii "gcc") none,
    newCommand .absolute (ascii "git") none,
    newCommand .absolute (ascii "grep") none,
    newCommand .function (ascii "jobs") (some .printJobs),
    newCommand .function (ascii "kill") (some .killJob),
    newCommand .absolute (ascii "less") none,
    newCommand .absolute (ascii "ls") none,
    newCommand .absolute (ascii "make") none,
    newCommand .absolute (ascii "mkdir") none,
    newCommand .absolute (ascii "more") none,
    newCommand .absolute (ascii "printenv") none,
    newCommand .absolute (ascii "ps") none,
    newCommand .absolute (ascii "pwd") none,
    newCommand .absolute (ascii "rmdir") none,
    newCommand .absolute (ascii "scp") none,
    newCommand .absolute (ascii "sleep") none,
    newCommand .absolute (ascii "sort") none,
    newCommand .absolute (ascii "ssh") none,
    newCommand .absolute (ascii "tar") none,
    newCommand .absolute (ascii "touch") none,
    newCommand .absolute (ascii "vi") none,
    newCommand .absolute (ascii "whereis") none]

def numCommand : ℕ := 29

def nameAt (i : ℕ) : Text := ((commandList[i]?).map (·.builtin.name)).getD []

/-- The value of a `char`, which is signed. -/
def charVal (c : UInt8) : ℤ := c.toInt8.toInt

/-- A round of the search for the command word at `mid`: it ends where the whole
name is in front, and else goes by the first two characters. -/
def probe (line : Text) (mid : ℕ) : Ordering :=
  let name := nameAt mid
  let c := charVal (line.getD 0 0) - charVal (name.getD 0 0)
  if c = 0 then
    if name.isPrefixOf line then .eq
    else if 0 < charVal (line.getD 1 0) - charVal (name.getD 1 0) then .gt
    else .lt
  else if 0 < c then .gt
  else .lt

def endsPath (c : UInt8) : Bool := blank c || c = newline || c = pipe

/-- `find_shell_command`: the status, the rest of the line and the command. -/
def findShellCommand (line : Text) : Option (Status × Text × Option Command) := do
  let c ← line.head?
  if c = dot then
    let (name, line) ← spanTo endsPath line
    some (.ok, line, some (newCommand .relative (strncpy name) none))
  else
    match ← search (probe line) (numCommand + 2) 0 numCommand with
    | none => some (.noCommandErr, line, none)
    | some mid =>
      let entry ← commandList[mid]?
      let fp := if entry.f = .function then entry.builtin.fp else none
      some (.ok, line.drop entry.builtin.name.length,
        some (newCommand entry.f entry.builtin.name fp))

section Search

variable {line rest : Text} {i m k : ℕ} {e : Command}

/-- The names are in strictly ascending order by their first two characters. -/
theorem names_sorted : ∀ j ≤ numCommand, ∀ i < j,
    charVal ((nameAt i).getD 0 0) < charVal ((nameAt j).getD 0 0) ∨
      charVal ((nameAt i).getD 0 0) = charVal ((nameAt j).getD 0 0) ∧
        charVal ((nameAt i).getD 1 0) < charVal ((nameAt j).getD 1 0) := by
  decide

theorem two_le_length : ∀ i ≤ numCommand, 2 ≤ (nameAt i).length := by decide

theorem getD_of_name (hm : m ≤ numCommand) (hname : (nameAt m).isPrefixOf line = true)
    (hk : k < 2) : line.getD k 0 = (nameAt m).getD k 0 := by
  obtain ⟨rest, rfl⟩ := List.isPrefixOf_iff_prefix.mp hname
  exact List.getD_append _ _ _ _ (Nat.lt_of_lt_of_le hk (two_le_length m hm))

/-- Below the name in front of the line the search goes on above. -/
theorem probe_below (hm : m ≤ numCommand) (hname : (nameAt m).isPrefixOf line = true)
    (hi : i < m) : probe line i = .gt := by
  have h₀ := getD_of_name hm hname (k := 0) (by norm_num)
  have h₁ := getD_of_name hm hname (k := 1) (by norm_num)
  rw [probe, h₀, h₁]
  rcases names_sorted m hm i hi with hlt | ⟨heq, hlt⟩
  · rw [if_neg (by omega), if_pos (by omega)]
  · have hno : ¬ (nameAt i).isPrefixOf line = true := by
      intro hprefix
      rw [← h₁, getD_of_name (hi.le.trans hm) hprefix (by norm_num)] at hlt
      exact lt_irrefl _ hlt
    rw [if_pos (by omega), if_neg hno, if_pos (by omega)]

theorem probe_above (hm : m ≤ numCommand) (hname : (nameAt m).isPrefixOf line = true)
    (hi : m < i) (hin : i ≤ numCommand) : probe line i = .lt := by
  have h₀ := getD_of_name hm hname (k := 0) (by norm_num)
  have h₁ := getD_of_name hm hname (k := 1) (by norm_num)
  rw [probe, h₀, h₁]
  rcases names_sorted i hin m hi with hlt | ⟨heq, hlt⟩
  · rw [if_neg (by omega), if_neg (by omega)]
  · have hno : ¬ (nameAt i).isPrefixOf line = true := by
      intro hprefix
      rw [← h₁, getD_of_name hin hprefix (by norm_num)] at hlt
      exact lt_irrefl _ hlt
    rw [if_pos (by omega), if_neg hno, if_neg (by omega)]

/-- The search finds the name in front of the line. -/
theorem search_name (hm : m ≤ numCommand) (hname : (nameAt m).isPrefixOf line = true) :
    search (probe line) (numCommand + 2) 0 numCommand = some (some m) := by
  have heq : probe line m = .eq := by
    rw [probe, getD_of_name hm hname (by norm_num), sub_self, if_pos rfl, if_pos hname]
  refine search_found (fun i hi => probe_below hm hname hi) heq
    (fun i hi hin => probe_above hm hname hi hin) _ _ _ le_rfl ?_ ?_ le_rfl ?_
  · exact Int.natCast_nonneg m
  · exact Int.ofNat_le.mpr hm
  · rw [sub_zero]
    exact Int.ofNat_lt.mpr (Nat.lt_add_of_pos_right (by norm_num))

end Search

section Find

variable {rest w : Text} {e : Command} {d : UInt8}

/-- The first character of a name is none that the parser treats apart. -/
theorem name_cons : ∀ e ∈ commandList, ∃ c t, e.builtin.name = c :: t ∧ c ≠ dot ∧
    blank c = false ∧ c ≠ newline := by
  have hall : ∀ e ∈ commandList, e.builtin.name ≠ [] ∧ e.builtin.name.getD 0 0 ≠ dot ∧
      blank (e.builtin.name.getD 0 0) = false ∧ e.builtin.name.getD 0 0 ≠ newline := by
    decide
  intro e he
  obtain ⟨hne, hrest⟩ := hall e he
  obtain ⟨c, t, heq⟩ := List.exists_cons_of_ne_nil hne
  rw [heq] at hrest
  exact ⟨c, t, heq, hrest⟩

/-- A name of the table in front of the line, whatever comes behind it. -/
theorem findShellCommand_listed (he : e ∈ commandList) :
    findShellCommand (e.builtin.name ++ rest) = some (.ok, rest,
      some (newCommand e.f e.builtin.name (if e.f = .function then e.builtin.fp else none))) := by
  obtain ⟨m, hlt, hget⟩ := List.mem_iff_getElem.mp he
  have hentry : commandList[m]? = some e := by rw [List.getElem?_eq_getElem hlt, hget]
  have hname : (nameAt m).isPrefixOf (e.builtin.name ++ rest) = true := by
    rw [nameAt, hentry]
    exact List.isPrefixOf_iff_prefix.mpr (List.prefix_append ..)
  have hsearch := search_name (Nat.le_of_lt_succ hlt) hname
  obtain ⟨c, t, hcons, hdot, -⟩ := name_cons e he
  have hhead : (e.builtin.name ++ rest).head? = some c := by rw [hcons]; rfl
  simp only [findShellCommand, hhead, hsearch, hentry, Option.bind_eq_bind, Option.bind_some,
    if_neg hdot, List.drop_left]

/-- A word that begins with a dot, and the character that ends it. -/
theorem findShellCommand_dot (hw : ∀ c ∈ w, blank c = false ∧ c ≠ newline ∧ c ≠ pipe)
    (hzero : ∀ c ∈ w, c ≠ 0)
    (hd : blank d = true ∨ d = newline ∨ d = pipe) :
    findShellCommand (dot :: w ++ d :: rest) =
      some (.ok, d :: rest, some (newCommand .relative (dot :: w) none)) := by
  have hspan : spanTo endsPath (dot :: w ++ d :: rest) = some (dot :: w, d :: rest) := by
    apply RequestParser.spanTo_append
    · intro c hc
      rcases List.mem_cons.mp hc with rfl | hc
      · decide
      · obtain ⟨h₁, h₂, h₃⟩ := hw c hc
        simp [endsPath, h₁, h₂, h₃]
    · rcases hd with h | rfl | rfl <;> simp [endsPath, *]
  have hcopy : strncpy (dot :: w) = dot :: w := by
    apply strncpy_of_no_zero
    intro c hc
    rcases List.mem_cons.mp hc with rfl | hc
    · decide
    · exact hzero c hc
  simp only [findShellCommand, List.cons_append, List.head?_cons, Option.bind_eq_bind,
    Option.bind_some, if_true]
  rw [← List.cons_append, hspan, Option.bind_some, hcopy]

end Find

end SystemSoftware.ShellCommands
