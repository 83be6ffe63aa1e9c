import SystemSoftware.RequestParser
import Mathlib.Data.List.Induction

/-!
How parser.c cuts a request. The scanning loops are described by what they cut
off, and from that `parser` by the first token of the buffer and what stands
behind it. The first token selects the last command of the list that it matches.
-/
namespace SystemSoftware.RequestTokens

open DecimalText StockTree RequestParser

abbrev Entry := Flag × Text × Handler

abbrev Blanks (b : Text) : Prop := ∀ c ∈ b, blank c = true

-- Decided along the list, not over all values of a byte.
instance (b : Text) : Decidable (Blanks b) := List.decidableBAll (fun c => blank c = true) b

def stops (c : UInt8) : Bool := blank c || c = newline

abbrev Unbroken (w : Text) : Prop := ∀ c ∈ w, stops c = false

instance (w : Text) : Decidable (Unbroken w) := List.decidableBAll (fun c => stops c = false) w

/-- `strncmp` finds no difference between the name and the first token. -/
def agrees (w : Text) (c : Entry) : Bool := strncmpEq (c.2.1 ++ [0]) w w.length

/-- The command of the list that is left in `cmd` by the loop over the list. -/
def selected (w : Text) : Option Entry := commandList.reverse.find? (agrees w)

def select (c : Entry) (cmd : Command) : Command where
  flag := c.1
  name := c.2.1
  args := Function.update cmd.args 0 (some [])
  argc := 1
  fp := c.2.2

theorem select_select (c d : Entry) (cmd : Command) : select c (select d cmd) = select c cmd := by
  simp [select]

section Loops

variable {buf rest w : Text} {stop : UInt8 → Bool}

theorem skipBlanks_iff : skipBlanks buf = some rest ↔
    ∃ b d t, buf = b ++ d :: t ∧ rest = d :: t ∧ Blanks b ∧ blank d = false := by
  constructor
  · intro h
    induction buf with
    | nil => cases h
    | cons c buf ih =>
      rw [skipBlanks] at h
      split at h
      · next hc =>
        obtain ⟨b, d, t, rfl, hrest, hb, hd⟩ := ih h
        exact ⟨c :: b, d, t, rfl, hrest, List.forall_mem_cons.mpr ⟨hc, hb⟩, hd⟩
      · next hc =>
        obtain rfl := Option.some.inj h
        exact ⟨[], c, buf, rfl, rfl, fun _ h => absurd h List.not_mem_nil, Bool.not_eq_true _ ▸ hc⟩
  · rintro ⟨b, d, t, rfl, rfl, hb, hd⟩
    exact skipBlanks_append hb hd

theorem spanTo_iff : spanTo stop buf = some (w, rest) ↔
    ∃ d t, buf = w ++ d :: t ∧ rest = d :: t ∧ (∀ c ∈ w, stop c = false) ∧ stop d = true := by
  constructor
  · intro h
    induction buf generalizing w with
    | nil => cases h
    | cons c buf ih =>
      rw [spanTo] at h
      split at h
      · next hc =>
        obtain ⟨rfl, rfl⟩ := Prod.mk.inj (Option.some.inj h)
        exact ⟨c, buf, rfl, rfl, fun _ h => absurd h List.not_mem_nil, hc⟩
      · next hc =>
        obtain ⟨⟨w', rest'⟩, hspan, h⟩ := Option.bind_eq_some_iff.mp h
        obtain ⟨rfl, rfl⟩ := Prod.mk.inj (Option.some.inj h)
        obtain ⟨d, t, rfl, hrest, hw, hd⟩ := ih hspan
        exact ⟨d, t, rfl, hrest, List.forall_mem_cons.mpr ⟨Bool.not_eq_true _ ▸ hc, hw⟩, hd⟩
  · rintro ⟨d, t, rfl, rfl, hw, hd⟩
    exact spanTo_append hw hd

/-- Only the first `n` bytes are compared. -/
theorem strncmpEq_append (s w t : Text) :
    strncmpEq s (w ++ t) w.length = strncmpEq s w w.length := by
  induction w generalizing s with
  | nil => cases s <;> cases t <;> rfl
  | cons c w ih =>
    cases s with
    | nil => rfl
    | cons a s =>
      simp only [List.cons_append, List.length_cons, strncmpEq, ih]

theorem matchCommands_eq (w t : Text) (cmd : Command) :
    matchCommands (w ++ t) w.length cmd =
      match selected w with
      | none => cmd
      | some c => select c cmd := by
  have hfold : ∀ l : List Entry, l.foldl (fun cmd c =>
      if strncmpEq (c.2.1 ++ [0]) (w ++ t) w.length then
        { flag := c.1
          name := c.2.1
          args := Function.update cmd.args 0 (some [])
          argc := 1
          fp := c.2.2 : Command }
      else cmd) cmd =
      match l.reverse.find? (agrees w) with
      | none => cmd
      | some c => select c cmd := by
    intro l
    induction l using List.reverseRecOn with
    | nil => rfl
    | append_singleton l c ih =>
      rw [List.foldl_append, ih, List.foldl_cons, List.foldl_nil, List.reverse_append,
        List.reverse_singleton, List.singleton_append, List.find?_cons, strncmpEq_append]
      change (if agrees w c = true then select c _ else _) = _
      cases agrees w c with
      | false => rfl
      | true =>
        cases l.reverse.find? (agrees w) with
        | none => rfl
        | some d => exact select_select c d cmd
  exact hfold commandList

end Loops

def cleared (cmd : Command) : Command := { cmd with args := fun _ => none }

section Parser

variable {w t : Text} {d : UInt8} {rc : Int}

theorem stops_of_newline : stops newline = true := by decide

theorem stops_of_blank {c : UInt8} (hc : blank c = true) : stops c = true := by
  rw [stops, hc, Bool.true_or]

theorem blank_of_unbroken {c : UInt8} (hc : stops c = false) : blank c = false :=
  (Bool.or_eq_false_iff.mp hc).1

theorem ne_newline_of_unbroken {c : UInt8} (hc : stops c = false) : c ≠ newline := by
  rintro rfl
  cases hc

theorem head_ne_newline (hw : Unbroken w) (hne : w = [] → d ≠ newline) :
    (w ++ d :: t).head? ≠ some newline := by
  cases w with
  | nil => exact fun h => hne rfl (Option.some.inj h)
  | cons c w =>
    exact fun h => ne_newline_of_unbroken (hw c List.mem_cons_self) (Option.some.inj h)

theorem select_args (c : Entry) (cmd : Command) : (select c cmd).args 0 = some [] := by
  simp [select]

/-- `find_cmd` stops behind the first token, whatever stands there. -/
theorem findCmd_eq (hw : Unbroken w) (hd : stops d = true) (hne : w = [] → d ≠ newline)
    (cmd : Command) : findCmd (w ++ d :: t) cmd =
      match selected w with
      | none => some (.error, cleared cmd, 0)
      | some c => some (.success, select c (cleared cmd), w.length) := by
  have hspan : spanTo (fun c => blank c || c = newline) (w ++ d :: t) = some (w, d :: t) :=
    spanTo_append hw hd
  have hmatch := matchCommands_eq w (d :: t) (cleared cmd)
  rw [findCmd, if_neg (head_ne_newline hw hne), hspan]
  change (if (matchCommands (w ++ d :: t) w.length (cleared cmd)).args 0 = none then
    some (Status.error, matchCommands (w ++ d :: t) w.length (cleared cmd), 0)
    else some (.success, matchCommands (w ++ d :: t) w.length (cleared cmd), w.length)) = _
  rw [hmatch]
  cases selected w with
  | none => rfl
  | some c => exact if_neg (by rw [select_args]; exact Option.some_ne_none _)

def verdict : Status × Command → Status × Command
  | (st, cmd) => if st = .error then (.invarg, cmd) else (.success, cmd)

/-- A buffer with a first token: it selects no command, or the arguments are looked for
behind it. -/
theorem parser_eq (hrc : rc ≠ 1) (hw : Unbroken w) (hd : stops d = true)
    (hne : w = [] → d ≠ newline) (cmd : Command) : parser (w ++ d :: t) rc cmd =
      match selected w with
      | none => some (.nocmd, cleared cmd)
      | some c => (findArgs (d :: t) (select c (cleared cmd))).map verdict := by
  rw [parser, if_neg hrc, findCmd_eq hw hd hne]
  cases selected w with
  | none => rfl
  | some c =>
    change (findArgs ((w ++ d :: t).drop w.length) (select c (cleared cmd))).bind _ = _
    change _ = (findArgs (d :: t) (select c (cleared cmd))).map verdict
    rw [List.drop_left, Option.map_eq_bind]
    congr 1
    funext r
    obtain ⟨st, cmd'⟩ := r
    exact (apply_ite some ..).symm

def firstToken (line : Text) : Text := line.takeWhile (fun c => !blank c)

def behind (line : Text) : Text := line.dropWhile (fun c => !blank c)

theorem firstToken_append (line : Text) : firstToken line ++ behind line = line :=
  List.takeWhile_append_dropWhile

theorem newline_notMem_behind {line : Text} (hline : newline ∉ line) : newline ∉ behind line :=
  fun h => hline (List.dropWhile_subset _ h)

theorem firstToken_unbroken {line : Text} (hline : newline ∉ line) :
    Unbroken (firstToken line) := by
  intro c hc
  have hblank : blank c = false := by simpa using List.mem_takeWhile_imp hc
  have hne : c ≠ newline := fun h => hline (h ▸ List.takeWhile_subset _ hc)
  rw [stops, hblank, Bool.false_or, decide_eq_false hne]

/-- What is behind the first token begins with a blank. -/
theorem behind_cases (line : Text) :
    behind line = [] ∨ ∃ d t, behind line = d :: t ∧ blank d = true := by
  cases h : behind line with
  | nil => exact Or.inl rfl
  | cons d t =>
    have hd := List.head?_dropWhile_not (fun c => !blank c) line
    rw [show line.dropWhile (fun c => !blank c) = d :: t from h] at hd
    exact Or.inr ⟨d, t, rfl, by simpa using hd⟩

/-- A line with its newline, and the rest of the buffer. -/
theorem parser_line {line : Text} (hline : newline ∉ line) (hne : line ≠ []) (hrc : rc ≠ 1)
    (rest : Text) (cmd : Command) : parser (line ++ newline :: rest) rc cmd =
      match selected (firstToken line) with
      | none => some (.nocmd, cleared cmd)
      | some c =>
        (findArgs (behind line ++ newline :: rest) (select c (cleared cmd))).map verdict := by
  have hcut : line ++ newline :: rest = firstToken line ++ (behind line ++ newline :: rest) := by
    rw [← List.append_assoc, firstToken_append]
  have htoken := firstToken_unbroken hline
  rw [hcut]
  rcases behind_cases line with hnil | ⟨d, t, heq, hd⟩
  · have hfirst : firstToken line ≠ [] := by
      intro h
      rw [← firstToken_append line, h, hnil] at hne
      exact hne rfl
    rw [hnil]
    exact parser_eq hrc htoken stops_of_newline (fun h => absurd h hfirst) cmd
  · have hnl : d ≠ newline := by
      rintro rfl
      cases hd
    rw [heq]
    exact parser_eq hrc htoken (stops_of_blank hd) (fun _ => hnl) cmd

end Parser

/-- How `find_args` cuts two arguments off a buffer, and the byte that it ends at. -/
structure Cut (buf b₁ w₁ b₂ w₂ b₃ : Text) (x : UInt8) (t : Text) : Prop where
  eq : buf = b₁ ++ (w₁ ++ (b₂ ++ (w₂ ++ (b₃ ++ x :: t))))
  blanks₁ : Blanks b₁
  blanks₂ : Blanks b₂
  blanks₃ : Blanks b₃
  word : ∀ c ∈ w₁, blank c = false
  unbroken : Unbroken w₂
  last : blank x = false
  word_ne_nil : w₁ ≠ []
  gap_ne_nil : b₂ ≠ []
  bare : b₃ = [] → x = newline
  missing : w₂ = [] → b₃ = []

def storeArgs (w₁ w₂ : Text) (cmd : Command) : Command :=
  { cmd with
    args := Function.update (Function.update cmd.args 1 (some (strncpy w₁))) 2 (some (strncpy w₂))
    argc := 3 }

def ending (x : UInt8) : Status := if x = newline then .success else .error

section Args

variable {buf b₁ w₁ b₂ w₂ b₃ t : Text} {x : UInt8} {cmd : Command}

/-- Behind some text that is not empty stands its first byte. -/
theorem exists_head {w : Text} (hw : w ≠ []) (t : Text) : ∃ c s, c ∈ w ∧ w ++ t = c :: s := by
  cases w with
  | nil => exact absurd rfl hw
  | cons c w => exact ⟨c, w ++ t, List.mem_cons_self, rfl⟩

/-- A text is blank or has a first byte that is not. -/
theorem blanks_or (t : Text) :
    Blanks t ∨ ∃ b x s, t = b ++ x :: s ∧ Blanks b ∧ blank x = false := by
  induction t with
  | nil => exact Or.inl fun _ h => absurd h List.not_mem_nil
  | cons c t ih =>
    cases hc : blank c with
    | false => exact Or.inr ⟨[], c, t, rfl, fun _ h => absurd h List.not_mem_nil, hc⟩
    | true =>
      rcases ih with ht | ⟨b, x, s, rfl, hb, hx⟩
      · exact Or.inl (List.forall_mem_cons.mpr ⟨hc, ht⟩)
      · exact Or.inr ⟨c :: b, x, s, rfl, List.forall_mem_cons.mpr ⟨hc, hb⟩, hx⟩

theorem findArgs_cut (hflag : cmd.flag = .intint) (h : Cut buf b₁ w₁ b₂ w₂ b₃ x t) :
    findArgs buf cmd = some (ending x, storeArgs w₁ w₂ cmd) := by
  have h₁ : skipBlanks buf = some (w₁ ++ (b₂ ++ (w₂ ++ (b₃ ++ x :: t)))) := by
    obtain ⟨c, s, hc, hs⟩ := exists_head h.word_ne_nil (b₂ ++ (w₂ ++ (b₃ ++ x :: t)))
    rw [h.eq, hs]
    exact skipBlanks_append h.blanks₁ (h.word c hc)
  have h₂ : spanTo blank (w₁ ++ (b₂ ++ (w₂ ++ (b₃ ++ x :: t)))) =
      some (w₁, b₂ ++ (w₂ ++ (b₃ ++ x :: t))) := by
    obtain ⟨c, s, hc, hs⟩ := exists_head h.gap_ne_nil (w₂ ++ (b₃ ++ x :: t))
    rw [hs]
    exact spanTo_append h.word (h.blanks₂ c hc)
  have h₃ : skipBlanks (b₂ ++ (w₂ ++ (b₃ ++ x :: t))) = some (w₂ ++ (b₃ ++ x :: t)) := by
    by_cases hw : w₂ = []
    · rw [hw, h.missing hw]
      exact skipBlanks_append h.blanks₂ h.last
    · obtain ⟨c, s, hc, hs⟩ := exists_head hw (b₃ ++ x :: t)
      rw [hs]
      exact skipBlanks_append h.blanks₂ (blank_of_unbroken (h.unbroken c hc))
  have h₄ : spanTo (fun c => blank c || c = newline) (w₂ ++ (b₃ ++ x :: t)) =
      some (w₂, b₃ ++ x :: t) := by
    by_cases hb : b₃ = []
    · rw [hb, h.bare hb]
      exact spanTo_append h.unbroken stops_of_newline
    · obtain ⟨c, s, hc, hs⟩ := exists_head hb (x :: t)
      rw [hs]
      exact spanTo_append h.unbroken (stops_of_blank (h.blanks₃ c hc))
  have h₅ : skipBlanks (b₃ ++ x :: t) = some (x :: t) := skipBlanks_append h.blanks₃ h.last
  simp only [findArgs, hflag, h₁, h₂, h₃, h₄, h₅, Option.bind_eq_bind, Option.bind_some,
    List.head?_cons, ending, storeArgs, ne_eq, Option.some.injEq, ite_not]
  split <;> rfl

theorem exists_cut {r : Status × Command} (hflag : cmd.flag = .intint)
    (h : findArgs buf cmd = some r) : ∃ b₁ w₁ b₂ w₂ b₃ x t, Cut buf b₁ w₁ b₂ w₂ b₃ x t := by
  simp only [findArgs, hflag, Option.bind_eq_bind, Option.bind_eq_some_iff] at h
  obtain ⟨r₁, h₁, ⟨w₁, r₂⟩, h₂, r₃, h₃, ⟨w₂, r₄⟩, h₄, r₅, h₅, -⟩ := h
  obtain ⟨b₁, d₁, t₁, hbuf, hr₁, hb₁, hd₁⟩ := skipBlanks_iff.mp h₁
  obtain ⟨d₂, t₂, hr₁', hr₂, hw₁, hd₂⟩ := spanTo_iff.mp h₂
  obtain ⟨b₂, d₃, t₃, hr₂', hr₃, hb₂, hd₃⟩ := skipBlanks_iff.mp h₃
  obtain ⟨d₄, t₄, hr₃', hr₄, hw₂, hd₄⟩ := spanTo_iff.mp h₄
  obtain ⟨b₃, x, t, hr₄', hr₅, hb₃, hx⟩ := skipBlanks_iff.mp h₅
  dsimp only at hr₂' hr₄'
  refine ⟨b₁, w₁, b₂, w₂, b₃, x, t, ?_, hb₁, hb₂, hb₃, hw₁, hw₂, hx, ?_, ?_, ?_, ?_⟩
  · rw [hbuf, ← hr₁, hr₁', ← hr₂, hr₂', ← hr₃, hr₃', ← hr₄, hr₄']
  · rintro rfl
    obtain ⟨rfl, -⟩ := List.cons.inj (hr₁.symm.trans hr₁')
    rw [hd₁] at hd₂
    cases hd₂
  · rintro rfl
    obtain ⟨rfl, -⟩ := List.cons.inj (hr₂.symm.trans hr₂')
    rw [hd₂] at hd₃
    cases hd₃
  · rintro rfl
    obtain ⟨rfl, -⟩ := List.cons.inj (hr₄.symm.trans hr₄')
    simpa [hx] using hd₄
  · rintro rfl
    obtain ⟨rfl, -⟩ := List.cons.inj (hr₃.symm.trans hr₃')
    cases b₃ with
    | nil => rfl
    | cons c b₃ =>
      obtain ⟨rfl, -⟩ := List.cons.inj (hr₄.symm.trans hr₄')
      rw [hb₃ _ List.mem_cons_self] at hd₃
      cases hd₃

/-- Without arguments the rest of the line must be blank. -/
theorem findArgs_bare {b : Text} (hflag : cmd.flag = .noargs) (hb : Blanks b)
    (hx : blank x = false) : findArgs (b ++ x :: t) cmd = some (ending x, cmd) := by
  simp only [findArgs, hflag, skipBlanks_append hb hx, Option.bind_eq_bind, Option.bind_some,
    List.head?_cons, ending, ne_eq, Option.some.injEq, ite_not]
  split <;> rfl

end Args

end SystemSoftware.RequestTokens
