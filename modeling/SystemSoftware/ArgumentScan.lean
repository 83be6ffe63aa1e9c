import SystemSoftware.PipelineText
import SystemSoftware.RequestIndependence
import Mathlib.Data.List.Infix

/-!
How `find_arguments` cuts a line into arguments, apart from where it stores them.
Its loop looks at one argument after another; a scan of one argument ends inside
every text that ends with a newline and takes a character of it at least. What the
loop stores is then read off the list of the arguments.
-/
namespace SystemSoftware.ArgumentScan

open DecimalText ShellCommands ShellParser
open RequestParser (blank skipBlanks spanTo)
open RequestTokens (skipBlanks_iff spanTo_iff)
open RequestIndependence (skipBlanks_line spanTo_of_mem)
open PipelineText (set_append_replicate)

def Terminated (t : Text) : Prop := ∃ u, t = u ++ [newline] ∧ newline ∉ u

/-- What the loop of `find_arguments` meets: an ampersand, another end of the arguments,
or an argument and the line behind the blanks behind it. -/
inductive ArgumentStep
  | ampersand
  | ended
  | argument (text line : Text)
  deriving DecidableEq

def endsWord (c : UInt8) : Bool := blank c || c = newline || c = pipe || c = ampersand

def nextArgument (line : Text) : Option ArgumentStep := do
  let c ← line.head?
  if c = ampersand then some .ampersand
  else if c = dapostrophe then
    let (content, after) ← spanTo (fun c => c = dapostrophe || c = pipe || c = newline) line.tail
    let (arg, line) :=
      if after.head? = some dapostrophe then (strncpy content, after.tail)
      else ([dapostrophe, 0], line.tail)
    some (.argument arg (← skipBlanks line))
  else
    let (arg, line) ← spanTo endsWord line
    if arg = [] then some .ended else some (.argument (strncpy arg) (← skipBlanks line))

structure Arguments where
  texts : List Text
  closed : Bool
  rest : Text
  deriving DecidableEq

/-- At most `rounds` rounds of the loop, which closes the arguments unless it is at an
ampersand. -/
def readArguments : ℕ → Text → Option Arguments
  | 0, line => some ⟨[], true, line⟩
  | rounds + 1, line => do
    match ← nextArgument line with
    | .ampersand => some ⟨[], false, line⟩
    | .ended => some ⟨[], true, line⟩
    | .argument text line =>
      let args ← readArguments rounds line
      some { args with texts := text :: args.texts }

/-- The stores to the vector from index `argc` on, each with its index. -/
def Arguments.stores (args : Arguments) (argc : ℕ) : List (ℕ × Option Text) :=
  (args.texts.zipIdx argc).map (fun x => (x.2, some x.1)) ++
    if args.closed then [(argc + args.texts.length, none)] else []

def storeAll (cmd : Command) (stores : List (ℕ × Option Text)) : Command :=
  stores.foldl (fun cmd x => setArgument cmd x.1 x.2) cmd

/-- The command behind the loop, which leaves argc alone at an ampersand. -/
def Arguments.store (args : Arguments) (cmd : Command) (argc : ℕ) : Command :=
  let cmd := storeAll cmd (args.stores argc)
  if args.closed then { cmd with argc := argc + args.texts.length } else cmd

section Loop

variable {cmd : Command} {line rest : Text} {rounds argc : ℕ} {args : Arguments}

theorem argumentLoop_succ (cmd : Command) (rounds argc : ℕ) (line : Text) :
    argumentLoop cmd (rounds + 1) argc line = (nextArgument line).bind fun
      | .ampersand => some (cmd, line)
      | .ended => some (closeArguments cmd argc, line)
      | .argument text rest =>
        argumentLoop (setArgument cmd argc (some text)) rounds (argc + 1) rest := by
  cases line with
  | nil => rfl
  | cons c line =>
    simp only [argumentLoop, nextArgument, List.head?_cons, Option.bind_eq_bind, Option.bind_some]
    by_cases hamp : c = ampersand
    · simp only [if_pos hamp, Option.bind_some]
    rw [if_neg hamp, if_neg hamp]
    by_cases hquote : c = dapostrophe
    · rw [if_pos hquote, if_pos hquote, Option.bind_assoc]
      refine Option.bind_congr fun x _ => ?_
      rw [Option.bind_assoc]
      rfl
    · rw [if_neg hquote, if_neg hquote, Option.bind_assoc]
      refine Option.bind_congr fun x hspan => ?_
      by_cases hempty : x.1 = []
      · have hline : x.2 = c :: line := by
          obtain ⟨d, t, heq, hrest, -⟩ := spanTo_iff.mp hspan
          rw [hrest, heq, hempty, List.nil_append]
        simp only [if_pos hempty, Option.bind_some, hline]
      · simp only [if_neg hempty, Option.bind_assoc, Option.bind_some]

theorem stores_cons (text : Text) (args : Arguments) (argc : ℕ) :
    { args with texts := text :: args.texts : Arguments }.stores argc =
      (argc, some text) :: args.stores (argc + 1) := by
  simp only [Arguments.stores, List.zipIdx_cons, List.map_cons, List.cons_append,
    List.length_cons]
  rw [Nat.add_right_comm, Nat.add_assoc]

theorem store_cons (text : Text) (args : Arguments) (cmd : Command) (argc : ℕ) :
    { args with texts := text :: args.texts : Arguments }.store cmd argc =
      args.store (setArgument cmd argc (some text)) (argc + 1) := by
  have hargc : argc + (text :: args.texts).length = argc + 1 + args.texts.length := by
    rw [List.length_cons]
    omega
  simp only [Arguments.store, stores_cons, storeAll, List.foldl_cons, hargc]

/-- The loop reads the arguments and performs their stores. -/
theorem argumentLoop_eq (rounds : ℕ) : ∀ (cmd : Command) (argc : ℕ) (line : Text),
    argumentLoop cmd rounds argc line =
      (readArguments rounds line).map fun args => (args.store cmd argc, args.rest) := by
  induction rounds with
  | zero => exact fun _ _ _ => rfl
  | succ rounds ih =>
    intro cmd argc line
    rw [argumentLoop_succ, readArguments, Option.bind_eq_bind, Option.map_bind]
    refine Option.bind_congr fun step _ => ?_
    cases step with
    | ampersand => rfl
    | ended => rfl
    | argument text rest =>
      simp only [ih, Function.comp_apply]
      cases readArguments rounds rest with
      | none => rfl
      | some args => exact congrArg (fun c => some (c, args.rest)) (store_cons ..).symm

theorem readArguments_length (h : readArguments rounds line = some args) :
    args.texts.length ≤ rounds := by
  induction rounds generalizing line args with
  | zero => rw [← Option.some.inj h]; rfl
  | succ rounds ih =>
    rw [readArguments] at h
    obtain ⟨step, -, h⟩ := Option.bind_eq_some_iff.mp h
    cases step with
    | ampersand | ended => rw [← Option.some.inj h]; exact Nat.zero_le _
    | argument text rest =>
      obtain ⟨args', hargs, h⟩ := Option.bind_eq_some_iff.mp h
      rw [← Option.some.inj h]
      exact Nat.succ_le_succ (ih hargs)

end Loop

section Vector

variable {cmd : Command} {args : Arguments} {line : Text}

def vectorOf (name : Text) (texts : List Text) : List (Option Text) :=
  (name :: texts).map some ++ List.replicate (maxArgs - 1 - texts.length) none

/-- The stores of at most MAXARGS - 1 arguments fill the vector in order; the null
pointer behind them either is there already or falls behind the vector. -/
theorem storeAll_vector (name : Text) (closed : Bool) (rest : Text) (texts : List Text)
    (hlen : texts.length ≤ maxArgs - 1) :
    storeAll { cmd with arguments := vectorOf name [] }
      (Arguments.stores ⟨texts, closed, rest⟩ 1) =
        { cmd with arguments := vectorOf name texts } := by
  have hgen : ∀ (texts : List Text) (pre : List (Option Text)) (k : ℕ), texts.length ≤ k →
      storeAll { cmd with arguments := pre ++ List.replicate k none }
        (Arguments.stores ⟨texts, closed, rest⟩ pre.length) =
          { cmd with arguments := pre ++ texts.map some ++
            List.replicate (k - texts.length) none } := by
    intro texts
    induction texts with
    | nil =>
      intro pre k _
      have hset : (pre ++ List.replicate k (none : Option Text)).set pre.length none =
          pre ++ List.replicate k none := by
        cases k with
        | zero => rw [List.set_eq_of_length_le (by simp)]
        | succ k =>
          rw [set_append_replicate, List.append_assoc, List.singleton_append, List.replicate_succ]
      cases closed with
      | true => simp [storeAll, Arguments.stores, setArgument, hset]
      | false => simp [storeAll, Arguments.stores]
    | cons text texts ih =>
      intro pre k hk
      obtain ⟨k, rfl⟩ : ∃ k', k = k' + 1 := Nat.exists_eq_succ_of_ne_zero (by
        rw [List.length_cons] at hk
        omega)
      have hrest := ih (pre ++ [some text]) k (Nat.le_of_succ_le_succ hk)
      rw [List.length_append, List.length_singleton] at hrest
      rw [stores_cons text ⟨texts, closed, rest⟩, storeAll, List.foldl_cons, ← storeAll,
        setArgument, set_append_replicate, hrest]
      simp
  exact hgen texts [some name] (maxArgs - 1) hlen

def Arguments.fill (args : Arguments) (cmd : Command) : Command :=
  { cmd with
    arguments := vectorOf cmd.builtin.name args.texts
    argc := if args.closed then args.texts.length + 1 else cmd.argc }

theorem findArguments_eq (cmd : Command) (line : Text) : findArguments cmd line =
    (readArguments (maxArgs - 1) line).map fun args => (.ok, args.fill cmd, args.rest) := by
  have hfirst : setArgument { cmd with arguments := List.replicate maxArgs none } 0
      (some cmd.builtin.name) = { cmd with arguments := vectorOf cmd.builtin.name [] } := rfl
  rw [findArguments]
  simp only [hfirst, argumentLoop_eq]
  cases hargs : readArguments (maxArgs - 1) line with
  | none => rfl
  | some args =>
    obtain ⟨texts, closed, rest⟩ := args
    have hlen := readArguments_length hargs
    simp only [Option.map_some, Option.bind_eq_bind, Option.bind_some, Arguments.store,
      storeAll_vector _ closed rest texts hlen]
    cases closed with
    | true => simp [Arguments.fill, Nat.add_comm]
    | false => simp [Arguments.fill]

end Vector

section Terminated

variable {t u line : Text} {c : UInt8}

theorem Terminated.ne_nil (h : Terminated t) : t ≠ [] := by
  obtain ⟨v, rfl, -⟩ := h
  simp

theorem Terminated.of_suffix (h : Terminated t) (hu : u <:+ t) (hne : u ≠ []) : Terminated u := by
  obtain ⟨v, rfl, hv⟩ := h
  obtain hnil | ⟨w, rfl, hw⟩ := List.suffix_concat_iff.mp hu
  · exact absurd hnil hne
  · exact ⟨w, rfl, fun hmem => hv (hw.subset hmem)⟩

theorem Terminated.tail (h : Terminated (c :: t)) (hc : c ≠ newline) : Terminated t := by
  refine h.of_suffix (List.suffix_cons c t) ?_
  rintro rfl
  obtain ⟨v, hv, -⟩ := h
  have hlast := congrArg List.getLast? hv
  rw [List.getLast?_append_of_ne_nil _ (by simp)] at hlast
  exact hc (Option.some.inj hlast)

/-- In a text that ends with a newline the blanks end. -/
theorem Terminated.skipBlanks (h : Terminated t) :
    ∃ c r, skipBlanks t = some (c :: r) ∧ blank c = false ∧ c :: r <:+ t := by
  obtain ⟨v, rfl, -⟩ := h
  have hskip := skipBlanks_line v
  obtain ⟨b, c, r, heq, hrest, -, hc⟩ := skipBlanks_iff.mp hskip
  rw [hrest] at hskip
  exact ⟨c, r, hskip, hc, b, heq.symm⟩

theorem Terminated.spanTo (h : Terminated t) (stop : UInt8 → Bool) (hstop : stop newline = true) :
    ∃ w c r, spanTo stop t = some (w, c :: r) ∧ t = w ++ c :: r ∧ stop c = true := by
  obtain ⟨v, rfl, -⟩ := h
  obtain ⟨w, rest, hspan⟩ := spanTo_of_mem (u := v ++ [newline]) ⟨newline, by simp, hstop⟩
  obtain ⟨c, r, heq, rfl, -, hc⟩ := spanTo_iff.mp hspan
  exact ⟨w, c, r, hspan, heq, hc⟩

inductive Scanned (line : Text) : ArgumentStep → Prop
  | ampersand (h : line.head? = some ampersand) : Scanned line .ampersand
  | ended (h : ∃ c ∈ line.head?, endsWord c = true ∧ c ≠ ampersand) : Scanned line .ended
  | argument {text rest : Text} (hsuffix : rest <:+ line) (hlt : rest.length < line.length)
      (hhead : ∃ c ∈ rest.head?, blank c = false) : Scanned line (.argument text rest)

theorem nextArgument_total (h : Terminated line) :
    ∃ step, nextArgument line = some step ∧ Scanned line step := by
  obtain ⟨c, t, rfl⟩ := List.exists_cons_of_ne_nil h.ne_nil
  by_cases hamp : c = ampersand
  · subst hamp
    exact ⟨.ampersand, rfl, .ampersand rfl⟩
  by_cases hquote : c = dapostrophe
  · subst hquote
    have ht := h.tail (by decide)
    obtain ⟨content, d, r, hspan, rfl, -⟩ :=
      ht.spanTo (fun c => c = dapostrophe || c = pipe || c = newline) (by decide)
    by_cases hd : d = dapostrophe
    · subst hd
      have hr : r <:+ content ++ dapostrophe :: r :=
        (List.suffix_cons _ r).trans (List.suffix_append ..)
      have hterm := (ht.of_suffix (List.suffix_append ..) (List.cons_ne_nil _ r)).tail (by decide)
      obtain ⟨e, r', hskip, he, hsuffix⟩ := hterm.skipBlanks
      refine ⟨.argument (strncpy content) (e :: r'), ?_, .argument ((hsuffix.trans hr).trans
        (List.suffix_cons ..)) (Nat.lt_succ_of_le (hsuffix.trans hr).length_le) ⟨e, rfl, he⟩⟩
      simp [nextArgument, hamp, hspan, hskip]
    · obtain ⟨e, r', hskip, he, hsuffix⟩ := ht.skipBlanks
      refine ⟨.argument [dapostrophe, 0] (e :: r'), ?_,
        .argument (hsuffix.trans (List.suffix_cons ..)) (Nat.lt_succ_of_le hsuffix.length_le) ⟨e, rfl, he⟩⟩
      simp [nextArgument, hamp, hspan, hd, hskip]
  · obtain ⟨w, d, r, hspan, heq, hd⟩ := h.spanTo endsWord (by decide)
    by_cases hw : w = []
    · subst hw
      obtain ⟨rfl, rfl⟩ := List.cons.inj heq
      refine ⟨.ended, ?_, .ended ⟨c, rfl, hd, hamp⟩⟩
      simp [nextArgument, hamp, hquote, hspan]
    · have hr : d :: r <:+ c :: t := heq ▸ List.suffix_append ..
      obtain ⟨e, r', hskip, he, hsuffix⟩ := (h.of_suffix hr (List.cons_ne_nil _ _)).skipBlanks
      refine ⟨.argument (strncpy w) (e :: r'), ?_, .argument (hsuffix.trans hr) ?_ ⟨e, rfl, he⟩⟩
      · simp [nextArgument, hamp, hquote, hspan, hw, hskip]
      · have hpos := List.length_pos_of_ne_nil hw
        have hle := hsuffix.length_le
        rw [heq, List.length_append]
        omega

theorem readArguments_total (rounds : ℕ) (h : Terminated line) :
    ∃ args, readArguments rounds line = some args ∧ args.rest <:+ line ∧ args.rest ≠ [] := by
  induction rounds generalizing line with
  | zero => exact ⟨_, rfl, List.suffix_refl _, h.ne_nil⟩
  | succ rounds ih =>
    obtain ⟨step, hstep, hscan⟩ := nextArgument_total h
    cases hscan with
    | ampersand _ | ended _ =>
      exact ⟨_, by rw [readArguments, hstep]; rfl, List.suffix_refl _, h.ne_nil⟩
    | @argument text rest hsuffix _ hhead =>
      have hne : rest ≠ [] := by
        obtain ⟨c, hc, -⟩ := hhead
        exact List.ne_nil_of_mem (List.mem_of_mem_head? hc)
      obtain ⟨args, hargs, hrest, hrest'⟩ := ih (h.of_suffix hsuffix hne)
      exact ⟨{ args with texts := text :: args.texts }, by rw [readArguments, hstep]; simp [hargs],
        hrest.trans hsuffix, hrest'⟩

end Terminated

end SystemSoftware.ArgumentScan
