import SystemSoftware.BlockLedger
import SystemSoftware.ParserTermination
import SystemSoftware.PipelineExecution

/-!
The memory of the shell. For each stage the parser allocates a command, its builtin, the
name in it, a vector and the arguments; interpreter releases the commands of the list when
it has forked. No line makes it release a block twice or read one that it has released. The
name of a builtin is never released, and neither are the arguments in front of an ampersand,
where `find_arguments` returns before it has set argc. What is stored behind the end of a block
is left out here: `ArgumentVectors` says for which lines a vector is too short.
-/
namespace SystemSoftware.CommandMemory

open DecimalText ShellCommands ShellParser ParserRounds BlockLedger
open ArgumentScan (Arguments Terminated)
open ParserTermination (parser_returns)
open PipelineExecution (interpreter)

inductive Block
  | command (argc : ℕ) (arguments redirectto : Option ℕ) (builtin : ℕ)
  | builtin (name : ℕ)
  | vector (entries : List (Option ℕ))
  | text

abbrev Blocks := Heap Block

def allocCommand (h : Blocks) : Blocks :=
  ((h.alloc (.command 0 none none (h.fresh + 1))).alloc (.builtin (h.fresh + 2))).alloc .text

def linkTo (cbuf : ℕ) (previous : Option ℕ) (h : Blocks) : Blocks :=
  match previous with
  | none => h
  | some p =>
    match h.cells p with
    | some (.command argc arguments _ builtin) =>
      h.write p (.command argc arguments (some cbuf) builtin)
    | _ => h

def allocTexts : ℕ → Blocks → Blocks
  | 0, h => h
  | n + 1, h => allocTexts n (h.alloc .text)

/-- `find_arguments` allocates the vector, the copy of the name and the arguments, and sets
argc when it closes them. -/
def allocArguments (cbuf : ℕ) (args : Arguments) (h : Blocks) : Blocks :=
  let n := args.texts.length + 1
  let entries := (List.range' (h.fresh + 1) n).map some ++ List.replicate (maxArgs - n) none
  let h' := allocTexts n (h.alloc (.vector entries))
  match h.cells cbuf with
  | some (.command argc _ redirectto builtin) =>
    h'.write cbuf (.command (if args.closed then n else argc) (some h.fresh) redirectto builtin)
  | _ => h'

structure Built where
  heap : Blocks
  first : Option ℕ
  previous : Option ℕ

def addStage (b : Built) (st : StageRead) : Built :=
  let cbuf := b.heap.fresh
  ⟨allocArguments cbuf st.args (linkTo cbuf b.previous (allocCommand b.heap)),
    b.first.or (some cbuf), some cbuf⟩

/-- `safe_free`, which only complains about a null pointer. -/
def safeFree (h : Blocks) : Option ℕ → Option Blocks
  | none => some h
  | some id => h.release id

def freeArgument (arguments : Option ℕ) (h : Blocks) (i : ℕ) : Option Blocks :=
  match arguments.bind h.cells with
  | some (.vector entries) => do safeFree h (← entries[i]?)
  | _ => none

/-- `free_command`; `none` reads or releases a block that is not live. -/
def freeCommand (h : Blocks) (cmd : ℕ) : Option Blocks :=
  match h.cells cmd with
  | some (.command argc arguments _ builtin) => do
    let h ← (List.range argc).foldlM (freeArgument arguments) h
    let h ← safeFree h arguments
    let h ← h.release builtin
    h.release cmd
  | _ => none

def freeCommandList : ℕ → Option ℕ → Blocks → Option Blocks
  | _, none, h => some h
  | 0, some _, _ => none
  | rounds + 1, some cmd, h =>
    match h.cells cmd with
    | some (.command _ _ redirectto _) => do
      let h ← freeCommandList rounds redirectto h
      freeCommand h cmd
    | _ => none

/-- A call of `interpreter` for a line, in the shell. A builtin by itself is released where
it has been executed, and `first_command` is the command behind it. The handler of `exit`
does not come back. -/
def lineMemory (h : Blocks) (line : Text) : Option Blocks := do
  let plan ← interpreter (← parser line)
  let sts ← stagesIn line
  let b := sts.foldl addStage ⟨h, none, none⟩
  match plan.builtin, b.first with
  | some handled, some cmd =>
    if handled.builtin.fp = some .exit then none else
    match b.heap.cells cmd with
    | some (.command _ _ redirectto _) => do
      let h ← freeCommand b.heap cmd
      freeCommandList (sts.length + 1) redirectto h
    | _ => none
  | _, first => freeCommandList (sts.length + 1) first b.heap

def sessionMemory (h : Blocks) (lines : List Text) : Option Blocks := lines.foldlM lineMemory h

/-- The blocks of a stage that are not released: the name, and the arguments with the copy
of the name where they end at an ampersand. -/
def kept (st : StageRead) : ℕ := 1 + if st.args.closed then 0 else st.args.texts.length + 1

def Exits (line : Text) : Prop :=
  (do (← (← interpreter (← parser line)).builtin).builtin.fp) = some Handler.exit

def keptOf (line : Text) : ℕ := (((stagesIn line).getD []).map kept).sum

structure Owned where
  self : ℕ
  builtin : ℕ
  name : ℕ
  vector : ℕ
  args : List ℕ
  argc : ℕ

namespace Owned

def ids (o : Owned) : List ℕ := o.self :: o.builtin :: o.name :: o.vector :: o.args

def others (o : Owned) : List ℕ := o.builtin :: o.name :: o.vector :: o.args

def freed (o : Owned) : List ℕ := o.args.take o.argc ++ [o.vector, o.builtin, o.self]

def kept (o : Owned) : List ℕ := o.name :: o.args.drop o.argc

end Owned

def ownedOf (base : ℕ) (st : StageRead) : Owned where
  self := base
  builtin := base + 1
  name := base + 2
  vector := base + 3
  args := List.range' (base + 4) (st.args.texts.length + 1)
  argc := if st.args.closed then st.args.texts.length + 1 else 0

/-- The command and its blocks in the heap, linked to the next command. -/
structure HeldAt (h : Blocks) (o : Owned) (next : Option ℕ) : Prop where
  self : h.cells o.self = some (.command o.argc (some o.vector) next o.builtin)
  builtin : h.cells o.builtin = some (.builtin o.name)
  name : h.cells o.name = some .text
  vector : h.cells o.vector =
    some (.vector (o.args.map some ++ List.replicate (maxArgs - o.args.length) none))
  args : ∀ id ∈ o.args, h.cells id = some .text

def Sane (h : Blocks) : Prop := ∀ id, h.fresh ≤ id → h.cells id = none

def blocks (st : StageRead) : ℕ := 5 + st.args.texts.length

def ownedList : ℕ → List StageRead → List Owned
  | _, [] => []
  | base, st :: sts => ownedOf base st :: ownedList (base + blocks st) sts

/-- The blocks that the lines leave behind, those of the first line from an identifier on. -/
def leftBehind : ℕ → List Text → List ℕ
  | _, [] => []
  | base, line :: lines =>
    let sts := (stagesIn line).getD []
    (ownedList base sts).flatMap Owned.kept ++ leftBehind (base + (sts.map blocks).sum) lines

def HeldList (h : Blocks) : List Owned → Prop
  | [] => True
  | o :: os => HeldAt h o (os.head?.map Owned.self) ∧ HeldList h os

/-- `previous_command` is a command that is linked to none yet. -/
def Ends (b : Built) : Prop := ∀ p, b.previous = some p → p < b.heap.fresh ∧
  ∃ argc v bi, b.heap.cells p = some (.command argc v none bi)

/-- The parser has added these commands behind `previous_command`. -/
structure Grown (b b' : Built) (os : List Owned) : Prop where
  held : HeldList b'.heap os
  link : ∀ p argc v bi, b.previous = some p → b.heap.cells p = some (.command argc v none bi) →
    b'.heap.cells p = some (.command argc v (os.head?.map Owned.self) bi)
  others : ∀ i, i < b.heap.fresh ∨ b'.heap.fresh ≤ i → b.previous ≠ some i →
    b'.heap.cells i = b.heap.cells i
  first : b'.first = b.first.or (os.head?.map Owned.self)

section Allocation

variable {h : Blocks} {p n : ℕ} {b : Built} {st : StageRead} {args : Arguments}

theorem allocTexts_spec (n : ℕ) : ∀ h : Blocks, (allocTexts n h).fresh = h.fresh + n ∧
    ∀ i, (allocTexts n h).cells i =
      if h.fresh ≤ i ∧ i < h.fresh + n then some .text else h.cells i := by
  induction n with
  | zero => exact fun h => ⟨rfl, fun i => (if_neg (by omega)).symm⟩
  | succ n ih =>
    intro h
    obtain ⟨hfresh, hcells⟩ := ih (h.alloc .text)
    have hnext : (h.alloc Block.text).fresh = h.fresh + 1 := rfl
    refine ⟨by rw [allocTexts, hfresh, hnext]; omega, fun i => ?_⟩
    rw [allocTexts, hcells, hnext]
    by_cases hi : i = h.fresh
    · rw [if_neg (by omega), if_pos (by omega), hi, Heap.alloc_self]
    · rw [Heap.alloc_of_ne hi]
      by_cases hin : h.fresh ≤ i ∧ i < h.fresh + (n + 1)
      · rw [if_pos (by omega), if_pos hin]
      · rw [if_neg (by omega), if_neg hin]

theorem allocCommand_spec (h : Blocks) : (allocCommand h).fresh = h.fresh + 3 ∧
    (allocCommand h).cells h.fresh = some (.command 0 none none (h.fresh + 1)) ∧
    (allocCommand h).cells (h.fresh + 1) = some (.builtin (h.fresh + 2)) ∧
    (allocCommand h).cells (h.fresh + 2) = some .text ∧
    ∀ i, i < h.fresh ∨ h.fresh + 3 ≤ i → (allocCommand h).cells i = h.cells i := by
  refine ⟨rfl, ?_, ?_, Heap.alloc_self .., fun i hi => ?_⟩
  · rw [allocCommand, Heap.alloc_of_ne (by simp only [Heap.alloc]; omega),
      Heap.alloc_of_ne (by simp only [Heap.alloc]; omega), Heap.alloc_self]
  · rw [allocCommand, Heap.alloc_of_ne (by simp only [Heap.alloc]; omega)]
    exact Heap.alloc_self ..
  · rw [allocCommand, Heap.alloc_of_ne (by simp only [Heap.alloc]; omega),
      Heap.alloc_of_ne (by simp only [Heap.alloc]; omega), Heap.alloc_of_ne (by omega)]

theorem linkTo_spec (cbuf : ℕ) (hends : Ends b) (hcells : ∀ i < b.heap.fresh,
      h.cells i = b.heap.cells i) : (linkTo cbuf b.previous h).fresh = h.fresh ∧
    (∀ p argc v bi, b.previous = some p → b.heap.cells p = some (.command argc v none bi) →
      (linkTo cbuf b.previous h).cells p = some (.command argc v (some cbuf) bi)) ∧
    ∀ i, b.previous ≠ some i → (linkTo cbuf b.previous h).cells i = h.cells i := by
  cases hprevious : b.previous with
  | none => exact ⟨rfl, fun p _ _ _ hp => (by cases hp), fun i _ => rfl⟩
  | some p =>
    obtain ⟨hp, argc, v, bi, hcell⟩ := hends p hprevious
    have hlink : linkTo cbuf (some p) h = h.write p (.command argc v (some cbuf) bi) := by
      rw [linkTo, hcells p hp, hcell]
    rw [hlink]
    refine ⟨rfl, fun q argc' v' bi' hq hcell' => ?_, fun i hi => ?_⟩
    · obtain rfl := Option.some.inj hq
      rw [hcell] at hcell'
      cases hcell'
      exact Heap.write_self ..
    · exact Heap.write_of_ne (fun heq => hi (congrArg some heq.symm)) ..

theorem allocArguments_spec {cbuf bi : ℕ} (args : Arguments) (hcbuf : cbuf < h.fresh)
    (hcell : h.cells cbuf = some (.command 0 none none bi)) :
    (allocArguments cbuf args h).fresh = h.fresh + (args.texts.length + 2) ∧
    (allocArguments cbuf args h).cells cbuf = some (.command
      (if args.closed then args.texts.length + 1 else 0) (some h.fresh) none bi) ∧
    (allocArguments cbuf args h).cells h.fresh = some (.vector
      ((List.range' (h.fresh + 1) (args.texts.length + 1)).map some ++
        List.replicate (maxArgs - (args.texts.length + 1)) none)) ∧
    (∀ i, h.fresh < i → i < h.fresh + (args.texts.length + 2) →
      (allocArguments cbuf args h).cells i = some .text) ∧
    ∀ i, i ≠ cbuf → i < h.fresh ∨ h.fresh + (args.texts.length + 2) ≤ i →
      (allocArguments cbuf args h).cells i = h.cells i := by
  obtain ⟨hfresh, hcells⟩ := allocTexts_spec (args.texts.length + 1) (h.alloc (.vector
    ((List.range' (h.fresh + 1) (args.texts.length + 1)).map some ++
      List.replicate (maxArgs - (args.texts.length + 1)) none)))
  have hnext : ∀ a : Block, (h.alloc a).fresh = h.fresh + 1 := fun _ => rfl
  rw [hnext] at hfresh hcells
  rw [allocArguments, hcell]
  refine ⟨hfresh.trans (by omega), Heap.write_self .., ?_, fun i hlo hhi => ?_,
    fun i hi hout => ?_⟩
  · rw [Heap.write_of_ne (by omega), hcells, if_neg (by omega), Heap.alloc_self]
  · rw [Heap.write_of_ne (by omega), hcells, if_pos (by omega)]
  · rw [Heap.write_of_ne hi, hcells, if_neg (by omega), Heap.alloc_of_ne (by omega)]

/-- A round of the parser adds one command. -/
theorem addStage_spec (hends : Ends b) (st : StageRead) :
    (addStage b st).heap.fresh = b.heap.fresh + blocks st ∧ Ends (addStage b st) ∧
      Grown b (addStage b st) [ownedOf b.heap.fresh st] := by
  obtain ⟨hfresh₁, hself₁, hbuiltin₁, hname₁, hothers₁⟩ := allocCommand_spec b.heap
  obtain ⟨hfresh₂, hlink₂, hothers₂⟩ := linkTo_spec b.heap.fresh hends
    (h := allocCommand b.heap) fun i hi => hothers₁ i (Or.inl hi)
  have hnew : ∀ i, b.heap.fresh ≤ i → b.previous ≠ some i :=
    fun i hi hp => absurd (hends i hp).1 (Nat.not_lt.mpr hi)
  have hcbuf : b.heap.fresh < (linkTo b.heap.fresh b.previous (allocCommand b.heap)).fresh := by
    omega
  obtain ⟨hfresh, hself, hvector, htexts, hothers⟩ :=
    allocArguments_spec st.args hcbuf ((hothers₂ _ (hnew _ le_rfl)).trans hself₁)
  rw [hfresh₂, hfresh₁] at hfresh hself hvector htexts hothers
  have hblocks : (addStage b st).heap.fresh = b.heap.fresh + blocks st := by
    rw [blocks]
    exact hfresh.trans (by omega)
  refine ⟨hblocks, fun p hp => ?_, ?_, fun p argc v bi hp hcell => ?_, fun i hi hp => ?_, rfl⟩
  · obtain rfl := Option.some.inj hp
    refine ⟨?_, _, _, _, hself⟩
    rw [hblocks, blocks]
    omega
  · refine ⟨⟨hself, ?_, ?_, ?_, fun id hid => ?_⟩, trivial⟩
    · exact (hothers _ (Nat.succ_ne_self _) (Or.inl (by omega))).trans
        ((hothers₂ _ (hnew _ (by omega))).trans hbuiltin₁)
    · refine (hothers (b.heap.fresh + 2) (by omega) (Or.inl (by omega))).trans ?_
      exact (hothers₂ _ (hnew _ (by omega))).trans hname₁
    · simp only [ownedOf, List.length_range']
      exact hvector
    · obtain ⟨hlo, hhi⟩ := List.mem_range'_1.mp hid
      exact htexts id (by omega) (by omega)
  · have hp' := (hends p hp).1
    exact (hothers p (by omega) (Or.inl (by omega))).trans (hlink₂ p argc v bi hp hcell)
  · rw [hblocks, blocks] at hi
    have hout := hothers i (by omega) (by omega)
    exact hout.trans ((hothers₂ i hp).trans (hothers₁ i (by omega)))

/-- A command whose link may have changed. -/
theorem HeldAt.relink {h' : Blocks} {o : Owned} {next next' : Option ℕ} (hheld : HeldAt h o next)
    (hself : h'.cells o.self = some (.command o.argc (some o.vector) next' o.builtin))
    (hcells : ∀ i ∈ o.others, h'.cells i = h.cells i) : HeldAt h' o next' where
  self := hself
  builtin := (hcells _ (by simp [Owned.others])).trans hheld.builtin
  name := (hcells _ (by simp [Owned.others])).trans hheld.name
  vector := (hcells _ (by simp [Owned.others])).trans hheld.vector
  args := fun id hid => (hcells id (by simp [Owned.others, hid])).trans (hheld.args id hid)

theorem mem_others_ownedOf {base i : ℕ} (hi : i ∈ (ownedOf base st).others) :
    base < i ∧ i < base + blocks st := by
  simp only [Owned.others, ownedOf, List.mem_cons, List.mem_range'_1] at hi
  rw [blocks]
  omega

/-- The list that the rounds of the parser have built. -/
theorem foldl_addStage (sts : List StageRead) : ∀ {b : Built}, Ends b →
    (sts.foldl addStage b).heap.fresh = b.heap.fresh + (sts.map blocks).sum ∧
      Grown b (sts.foldl addStage b) (ownedList b.heap.fresh sts) := by
  induction sts with
  | nil =>
    exact fun hends => ⟨rfl, trivial, fun _ _ _ _ _ hcell => hcell, fun _ _ _ => rfl,
      (Option.or_none).symm⟩
  | cons st sts ih =>
    intro b hends
    obtain ⟨hfresh₁, hends₁, hgrown₁⟩ := addStage_spec hends st
    obtain ⟨hfresh, hgrown⟩ := ih hends₁
    rw [hfresh₁] at hfresh hgrown
    have hprevious : (addStage b st).previous = some b.heap.fresh := rfl
    have hpos : 0 < blocks st := by rw [blocks]; omega
    obtain ⟨hheld, -⟩ := hgrown₁.held
    have hkept : ∀ i, i < (addStage b st).heap.fresh → i ≠ b.heap.fresh →
        (sts.foldl addStage (addStage b st)).heap.cells i = (addStage b st).heap.cells i :=
      fun i hi hne => hgrown.others i (Or.inl hi) (fun h => hne (Option.some.inj h).symm)
    rw [List.foldl_cons, List.map_cons, List.sum_cons, ownedList]
    refine ⟨hfresh.trans (Nat.add_assoc ..),
      ⟨hheld.relink (hgrown.link _ _ _ _ hprevious hheld.self) fun i hi => ?_, hgrown.held⟩,
      fun p argc v bi hp hcell => ?_, fun i hi hp => ?_, ?_⟩
    · obtain ⟨hlo, hhi⟩ := mem_others_ownedOf hi
      exact hkept i (by omega) (by omega)
    · have hp' := (hends p hp).1
      exact (hkept p (by omega) (by omega)).trans (hgrown₁.link p argc v bi hp hcell)
    · have hi' : i < b.heap.fresh ∨ b.heap.fresh + blocks st + (sts.map blocks).sum ≤ i := by
        rwa [hfresh] at hi
      have hne : (addStage b st).previous ≠ some i := by
        rw [hprevious]
        exact fun h => absurd (Option.some.inj h) (by omega)
      refine (hgrown.others i ?_ hne).trans (hgrown₁.others i ?_ hp)
      · rw [hfresh₁, hfresh]
        omega
      · rw [hfresh₁]
        omega
    · rw [hgrown.first, hgrown₁.first]
      cases b.first <;> rfl

end Allocation

section Release

variable {h : Blocks} {o : Owned} {os : List Owned} {next : Option ℕ} {base v : ℕ}

theorem HeldAt.congr {h' : Blocks} (hheld : HeldAt h o next)
    (hcells : ∀ i ∈ o.ids, h'.cells i = h.cells i) : HeldAt h' o next :=
  hheld.relink ((hcells _ List.mem_cons_self).trans hheld.self)
    fun i hi => hcells i (List.mem_cons_of_mem o.self hi)

/-- A block of a command is released or kept. -/
theorem ids_perm (o : Owned) : o.ids.Perm (o.freed ++ o.kept) := by
  rw [List.perm_iff_count]
  intro id
  have hargs : o.args.count id = (o.args.take o.argc).count id + (o.args.drop o.argc).count id := by
    rw [← List.count_append, List.take_append_drop]
  simp only [Owned.ids, Owned.freed, Owned.kept, List.count_cons, List.count_append,
    List.count_nil, hargs]
  omega

/-- The loop of `free_command` releases the arguments that argc counts. -/
theorem freeArguments_spec {args : List ℕ} {rest : List (Option ℕ)} (hargs : args.Nodup)
    (hout : v ∉ args) (hvector : h.cells v = some (.vector (args.map some ++ rest)))
    (hlive : ∀ id ∈ args, (h.cells id).isSome) (n : ℕ) (hn : n ≤ args.length) :
    ∃ h', (List.range n).foldlM (freeArgument (some v)) h = some h' ∧
      h.Released h' (args.take n) := by
  induction n with
  | zero => exact ⟨h, rfl, .refl h⟩
  | succ n ih =>
    obtain ⟨h₁, hfold, hrel⟩ := ih (Nat.le_of_succ_le hn)
    have htake : args.take (n + 1) = args.take n ++ [args[n]] := List.take_succ_eq_append_getElem hn
    have hfar : args[n] ∉ args.take n := by
      have hnodup : (args.take n ++ [args[n]]).Nodup := htake ▸ hargs.sublist (List.take_sublist ..)
      exact fun hmem => List.disjoint_of_nodup_append hnodup hmem (List.mem_singleton_self _)
    have hlive₁ : (h₁.cells args[n]).isSome := by
      rw [hrel.other hfar]
      exact hlive _ (List.getElem_mem hn)
    obtain ⟨h', hrelease, hrel'⟩ := Heap.release_some hlive₁
    refine ⟨h', ?_, htake ▸ hrel.append hrel'⟩
    have hread : (some v).bind h₁.cells = some (.vector (args.map some ++ rest)) := by
      rw [Option.bind_some, hrel.other fun hmem => hout (List.mem_of_mem_take hmem), hvector]
    have hentry : (args.map some ++ rest)[n]? = some (some args[n]) := by
      rw [List.getElem?_append_left (by rwa [List.length_map]), List.getElem?_map,
        List.getElem?_eq_getElem hn, Option.map_some]
    have hfree : freeArgument (some v) h₁ n = some h' := by
      rw [freeArgument, hread]
      simp only [hentry, Option.bind_eq_bind, Option.bind_some, safeFree, hrelease]
    rw [List.range_succ, List.foldlM_append, hfold]
    simp only [Option.bind_eq_bind, Option.bind_some, List.foldlM_cons, List.foldlM_nil, hfree]
    rfl

/-- `free_command` finds all that it releases live. -/
theorem freeCommand_spec (hheld : HeldAt h o next) (hnodup : o.ids.Nodup)
    (hargc : o.argc ≤ o.args.length) :
    ∃ h', freeCommand h o.self = some h' ∧ h.Released h' o.freed := by
  simp only [Owned.ids, List.nodup_cons, List.mem_cons, not_or] at hnodup
  obtain ⟨⟨hsb, -, hsv, hsa⟩, ⟨-, hbv, hba⟩, -, hva, hargs⟩ := hnodup
  obtain ⟨h₁, hfold, hrel⟩ := freeArguments_spec hargs hva hheld.vector
    (fun id hid => by rw [hheld.args id hid]; rfl) o.argc hargc
  have hstays : ∀ i, i ∉ o.args → h₁.cells i = h.cells i :=
    fun i hi => hrel.other fun hmem => hi (List.mem_of_mem_take hmem)
  obtain ⟨h', hrest, hrel'⟩ := Heap.release_all [o.vector, o.builtin, o.self] (h := h₁)
    (by simp [Ne.symm hsb, Ne.symm hsv, Ne.symm hbv]) fun id hid => by
      simp only [List.mem_cons, List.not_mem_nil, or_false] at hid
      obtain rfl | rfl | rfl := hid
      · rw [hstays _ hva, hheld.vector]; rfl
      · rw [hstays _ hba, hheld.builtin]; rfl
      · rw [hstays _ hsa, hheld.self]; rfl
  refine ⟨h', ?_, hrel.append hrel'⟩
  rw [freeCommand, hheld.self, ← hrest]
  simp only [hfold, Option.bind_eq_bind, Option.bind_some, safeFree, List.foldlM_cons,
    List.foldlM_nil, Option.pure_def, Option.bind_fun_some]

/-- `free_command_list` releases the commands from the last to the first. -/
theorem freeCommandList_spec (os : List Owned) : ∀ {rounds : ℕ} {h : Blocks},
    os.length ≤ rounds → HeldList h os → (os.flatMap Owned.ids).Nodup →
    (∀ o ∈ os, o.argc ≤ o.args.length) →
    ∃ h', freeCommandList rounds (os.head?.map Owned.self) h = some h' ∧
      h.Released h' (os.flatMap Owned.freed) := by
  induction os with
  | nil =>
    intro rounds h _ _ _ _
    refine ⟨h, ?_, .refl h⟩
    cases rounds <;> rfl
  | cons o os ih =>
    intro rounds h hrounds hheld hnodup hargc
    obtain ⟨rounds, rfl⟩ := Nat.exists_eq_succ_of_ne_zero (Nat.ne_of_gt (Nat.zero_lt_of_lt hrounds))
    obtain ⟨ho, hos⟩ := hheld
    obtain ⟨hno, hnos, hdisj⟩ := List.nodup_append.mp (List.flatMap_cons ▸ hnodup)
    obtain ⟨h₁, hlist, hrel⟩ := ih (Nat.le_of_succ_le_succ hrounds) hos hnos
      fun o' ho' => hargc o' (List.mem_cons_of_mem o ho')
    have hstays : ∀ i ∈ o.ids, h₁.cells i = h.cells i := fun i hi => hrel.other fun hmem => by
      obtain ⟨o', ho', hfreed⟩ := List.mem_flatMap.mp hmem
      have hids : i ∈ o'.ids := (ids_perm o').mem_iff.mpr (List.mem_append_left _ hfreed)
      exact hdisj i hi i (List.mem_flatMap.mpr ⟨o', ho', hids⟩) rfl
    obtain ⟨h', hfree, hrel'⟩ := freeCommand_spec (ho.congr hstays) hno (hargc o List.mem_cons_self)
    refine ⟨h', ?_, (hrel.append hrel').perm List.perm_append_comm⟩
    rw [List.head?_cons, Option.map_some, freeCommandList, ho.self]
    simp only [hlist, Option.bind_eq_bind, Option.bind_some, hfree]

end Release

section Lines

variable {h : Blocks} {line : Text} {lines : List Text} {sts : List StageRead}

theorem ids_ownedOf (base : ℕ) (st : StageRead) :
    (ownedOf base st).ids = List.range' base (blocks st) := by
  rw [blocks, Nat.add_comm]
  rfl

theorem length_kept_ownedOf (base : ℕ) (st : StageRead) :
    (ownedOf base st).kept.length = kept st := by
  simp only [Owned.kept, ownedOf, kept, List.length_cons, List.length_drop, List.length_range']
  split <;> omega

theorem ids_ownedList (sts : List StageRead) : ∀ base,
    (ownedList base sts).flatMap Owned.ids = List.range' base ((sts.map blocks).sum) := by
  induction sts with
  | nil => exact fun _ => rfl
  | cons st sts ih =>
    intro base
    rw [ownedList, List.flatMap_cons, ids_ownedOf, ih, List.range'_append_1, List.map_cons,
      List.sum_cons]

theorem length_kept_ownedList (sts : List StageRead) : ∀ base,
    ((ownedList base sts).flatMap Owned.kept).length = (sts.map kept).sum := by
  induction sts with
  | nil => exact fun _ => rfl
  | cons st sts ih =>
    intro base
    rw [ownedList, List.flatMap_cons, List.length_append, length_kept_ownedOf, ih, List.map_cons,
      List.sum_cons]

theorem length_ownedList (sts : List StageRead) : ∀ base,
    (ownedList base sts).length = sts.length := by
  induction sts with
  | nil => exact fun _ => rfl
  | cons st sts ih => exact fun base => congrArg Nat.succ (ih _)

theorem argc_ownedList (sts : List StageRead) : ∀ base, ∀ o ∈ ownedList base sts,
    o.argc ≤ o.args.length := by
  induction sts with
  | nil => exact fun _ _ ho => absurd ho List.not_mem_nil
  | cons st sts ih =>
    intro base o ho
    obtain rfl | hmem := List.mem_cons.mp ho
    · simp only [ownedOf, List.length_range']
      split <;> omega
    · exact ih _ o hmem

/-- What a call leaves of the heap: the blocks before and some texts. -/
structure Leaves (h h' : Blocks) (new : List ℕ) : Prop where
  sane : Sane h'
  fresh_le : h.fresh ≤ h'.fresh
  nodup : new.Nodup
  behind : ∀ id ∈ new, h.fresh ≤ id
  texts : ∀ id ∈ new, h'.cells id = some .text
  others : ∀ id, id ∉ new → h'.cells id = h.cells id

theorem HeldList.kept_text {os : List Owned} {id : ℕ} : HeldList h os →
    id ∈ os.flatMap Owned.kept → h.cells id = some .text := by
  induction os with
  | nil => exact fun _ hid => absurd hid List.not_mem_nil
  | cons o os ih =>
    rintro ⟨ho, hos⟩ hid
    rw [List.flatMap_cons] at hid
    obtain hmem | hmem := List.mem_append.mp hid
    · obtain rfl | harg := List.mem_cons.mp hmem
      · exact ho.name
      · exact ho.args id (List.mem_of_mem_drop harg)
    · exact ih hos hmem

/-- The list of the parser can be released, and only its kept texts stay. -/
theorem free_built (hsane : Sane h) (sts : List StageRead) :
    ∃ h', freeCommandList (sts.length + 1) (sts.foldl addStage ⟨h, none, none⟩).first
        (sts.foldl addStage ⟨h, none, none⟩).heap = some h' ∧
      h'.fresh = h.fresh + (sts.map blocks).sum ∧
      Leaves h h' ((ownedList h.fresh sts).flatMap Owned.kept) := by
  obtain ⟨hfresh, hgrown⟩ := foldl_addStage sts (b := ⟨h, none, none⟩) fun p hp => by cases hp
  set os := ownedList h.fresh sts with hos
  have hids : os.flatMap Owned.ids = List.range' h.fresh ((sts.map blocks).sum) :=
    ids_ownedList sts h.fresh
  have hperm : (os.flatMap Owned.freed ++ os.flatMap Owned.kept).Perm (os.flatMap Owned.ids) :=
    (List.flatMap_append_perm os Owned.freed Owned.kept).trans
      (List.Perm.flatMap_left os fun o _ => (ids_perm o).symm)
  have hnodup : (os.flatMap Owned.ids).Nodup := hids ▸ List.nodup_range'
  obtain ⟨-, hkept, hdisj⟩ := List.nodup_append.mp (hperm.nodup_iff.mpr hnodup)
  have hrounds : os.length ≤ sts.length + 1 := by
    rw [hos, length_ownedList]
    exact Nat.le_succ _
  obtain ⟨h', hfree, hrel⟩ :=
    freeCommandList_spec os hrounds hgrown.held hnodup (argc_ownedList sts h.fresh)
  have hfresh' : h'.fresh = h.fresh + (sts.map blocks).sum := hrel.fresh.trans hfresh
  have hmem : ∀ id, id ∈ os.flatMap Owned.freed ∨ id ∈ os.flatMap Owned.kept ↔
      h.fresh ≤ id ∧ id < h'.fresh := fun id => by
    rw [← List.mem_append, hperm.mem_iff, hids, List.mem_range'_1, hfresh']
  have hothers : ∀ id, id ∉ os.flatMap Owned.kept → h'.cells id = h.cells id := by
    intro id hid
    by_cases hfreed : id ∈ os.flatMap Owned.freed
    · rw [hrel.cells, if_pos hfreed, hsane id ((hmem id).mp (Or.inl hfreed)).1]
    · have hout : ¬ (h.fresh ≤ id ∧ id < h'.fresh) := fun hin =>
        ((hmem id).mpr hin).elim hfreed hid
      rw [hrel.other hfreed]
      refine hgrown.others id ?_ fun hp => by cases hp
      rw [← hrel.fresh]
      simp only
      omega
  have hfirst : (sts.foldl addStage ⟨h, none, none⟩).first = os.head?.map Owned.self :=
    hgrown.first.trans Option.none_or
  refine ⟨h', hfirst ▸ hfree, hfresh', ⟨fun id hid => ?_, by omega, hkept,
    fun id hid => ((hmem id).mp (Or.inr hid)).1, fun id hid => ?_, hothers⟩⟩
  · rw [hothers id fun hin => absurd ((hmem id).mp (Or.inr hin)).2 (Nat.not_lt.mpr hid)]
    exact hsane id (by omega)
  · rw [hrel.other fun hfreed => hdisj id hfreed id hid rfl]
    exact hgrown.held.kept_text hid

/-- `interpreter` decides on every list, and a command that it executes itself is alone. -/
theorem interpreter_alone {s : Parser} (h : parser line = some s) : ∃ sts plan,
    stagesIn line = some sts ∧ interpreter s = some plan ∧
      (plan.builtin = none ∨ ∃ cmd st, plan.builtin = some cmd ∧ sts = [st]) := by
  obtain ⟨sts, hsts, -, hcommands⟩ := parser_stages h
  have hlinked := parser_linked h
  rw [hcommands, length_linkedCommands, List.length_map] at hlinked
  cases sts with
  | nil =>
    have hnone : s.firstCommand = none := hlinked
    exact ⟨_, _, hsts, by rw [interpreter, hnone], Or.inl rfl⟩
  | cons st sts =>
    obtain ⟨hfirst, cmd, hcmd, -, -⟩ := hlinked
    have hget := linkedCommands_getElem? ((st :: sts).map StageRead.cmd) 0
    rw [hcmd] at hget
    obtain ⟨found, -, hfound⟩ := Option.map_eq_some_iff.mp hget.symm
    have hinterpreter : interpreter s =
        if cmd.f = .function ∧ s.mode = .foreground ∧ cmd.redirectto = none then
          some ⟨some cmd, cmd.redirectto⟩ else some ⟨none, some 0⟩ := by
      rw [interpreter, hfirst, hcommands]
      simp only [hcmd, Option.bind_eq_bind, Option.bind_some]
    by_cases hcond : cmd.f = .function ∧ s.mode = .foreground ∧ cmd.redirectto = none
    · refine ⟨_, _, hsts, hinterpreter.trans (if_pos hcond), Or.inr ⟨cmd, st, rfl, ?_⟩⟩
      have hlast : PipelineCommands.nextOf ((st :: sts).map StageRead.cmd).length 0 = none := by
        rw [← hcond.2.2, ← hfound]
      cases sts with
      | nil => rfl
      | cons => simp [PipelineCommands.nextOf] at hlast
    · exact ⟨_, _, hsts, hinterpreter.trans (if_neg hcond), Or.inl rfl⟩

/-- A call of `interpreter` releases the list of the parser. -/
theorem lineMemory_eq (h : Blocks) (hterm : Terminated line) (hstays : ¬ Exits line) :
    ∃ sts, stagesIn line = some sts ∧ lineMemory h line =
      freeCommandList (sts.length + 1) (sts.foldl addStage ⟨h, none, none⟩).first
        (sts.foldl addStage ⟨h, none, none⟩).heap := by
  obtain ⟨s, hparse⟩ := parser_returns hterm
  obtain ⟨sts, plan, hsts, hplan, hbuiltin⟩ := interpreter_alone hparse
  refine ⟨sts, hsts, ?_⟩
  rw [lineMemory, hparse]
  simp only [Option.bind_eq_bind, Option.bind_some, hplan, hsts]
  obtain hnone | ⟨cmd, st, hsome, rfl⟩ := hbuiltin
  · rw [hnone]
  · obtain ⟨-, -, hgrown⟩ := addStage_spec (b := ⟨h, none, none⟩) (fun p hp => by cases hp) st
    obtain ⟨hheld, -⟩ := hgrown.held
    have hfirst : (addStage ⟨h, none, none⟩ st).first = some h.fresh := rfl
    have hself := hheld.self
    rw [ownedOf] at hself
    simp only [List.foldl_cons, List.foldl_nil, hsome, hfirst, hself, List.head?_nil,
      Option.map_none, List.length_singleton, freeCommandList, Option.bind_eq_bind,
      Option.bind_some, Option.bind_fun_some]
    rw [if_neg fun hexit => hstays ?_]
    simp only [Exits, hparse, hplan, hsome, hexit, Option.bind_eq_bind, Option.bind_some]

theorem lineMemory_spec (hsane : Sane h) (hterm : Terminated line) (hstays : ¬ Exits line) :
    ∃ h' sts, stagesIn line = some sts ∧ lineMemory h line = some h' ∧
      h'.fresh = h.fresh + (sts.map blocks).sum ∧
      Leaves h h' ((ownedList h.fresh sts).flatMap Owned.kept) := by
  obtain ⟨sts, hsts, heq⟩ := lineMemory_eq h hterm hstays
  obtain ⟨h', hfree, hfresh, hleaves⟩ := free_built hsane sts
  exact ⟨h', sts, hsts, heq.trans hfree, hfresh, hleaves⟩

theorem length_leftBehind (lines : List Text) : ∀ base,
    (leftBehind base lines).length = (lines.map keptOf).sum := by
  induction lines with
  | nil => exact fun _ => rfl
  | cons line lines ih =>
    intro base
    simp only [leftBehind, List.length_append, length_kept_ownedList, ih, List.map_cons,
      List.sum_cons, keptOf]

theorem Leaves.trans {h₁ h' : Blocks} {new new' : List ℕ} (hl : Leaves h h₁ new)
    (hl' : Leaves h₁ h' new') : Leaves h h' (new ++ new') := by
  have hlt : ∀ id ∈ new, id < h₁.fresh := fun id hid => Nat.lt_of_not_le fun hle => by
    have hnone := hl.sane id hle
    rw [hl.texts id hid] at hnone
    cases hnone
  have hapart : ∀ id ∈ new, id ∉ new' := fun id hid hid' =>
    absurd (hlt id hid) (Nat.not_lt.mpr (hl'.behind id hid'))
  refine ⟨hl'.sane, hl.fresh_le.trans hl'.fresh_le, hl.nodup.append hl'.nodup fun id => hapart id,
    fun id hid => ?_, fun id hid => ?_, fun id hid => ?_⟩
  · obtain hmem | hmem := List.mem_append.mp hid
    · exact hl.behind id hmem
    · exact hl.fresh_le.trans (hl'.behind id hmem)
  · by_cases hmem : id ∈ new'
    · exact hl'.texts id hmem
    · rw [hl'.others id hmem]
      exact hl.texts id ((List.mem_append.mp hid).resolve_right hmem)
  · rw [List.mem_append, not_or] at hid
    rw [hl'.others id hid.2, hl.others id hid.1]

theorem session_leaves (lines : List Text) : ∀ {h : Blocks}, Sane h →
    (∀ line ∈ lines, Terminated line ∧ ¬ Exits line) →
    ∃ h', sessionMemory h lines = some h' ∧ Leaves h h' (leftBehind h.fresh lines) := by
  induction lines with
  | nil =>
    exact fun {h} hsane _ => ⟨h, rfl, ⟨hsane, le_rfl, List.nodup_nil,
      fun _ hid => absurd hid List.not_mem_nil, fun _ hid => absurd hid List.not_mem_nil,
      fun _ _ => rfl⟩⟩
  | cons line lines ih =>
    intro h hsane hlines
    obtain ⟨hterm, hstays⟩ := hlines line List.mem_cons_self
    obtain ⟨h₁, sts, hsts, hline, hfresh, hl⟩ := lineMemory_spec hsane hterm hstays
    obtain ⟨h', hrest, hl'⟩ := ih hl.sane fun l hl => hlines l (List.mem_cons_of_mem line hl)
    rw [hfresh] at hl'
    refine ⟨h', ?_, ?_⟩
    · rw [sessionMemory, List.foldlM_cons, hline]
      exact hrest
    · rw [leftBehind, hsts]
      exact hl.trans hl'

/-- In no session the shell releases a block of its commands twice or reads one that it has
released. What a session leaves behind are the names of the commands and the words in front
of an ampersand. -/
theorem session_memory (lines : List Text) : ∀ {h : Blocks}, Sane h →
    (∀ line ∈ lines, Terminated line ∧ ¬ Exits line) →
    ∃ h' new, sessionMemory h lines = some h' ∧ Leaves h h' new ∧
      new.length = (lines.map keptOf).sum ∧ new = leftBehind h.fresh lines := by
  intro h hsane hlines
  obtain ⟨h', hrun, hleaves⟩ := session_leaves lines hsane hlines
  exact ⟨h', _, hrun, hleaves, length_leftBehind lines h.fresh, rfl⟩

/-- The words of `cat a &` stay with the names of the three commands. -/
theorem session_memory_background : ∃ h',
    sessionMemory ⟨0, fun _ => none⟩ [ascii "cat a &\n", ascii "ls|sort\n"] = some h' ∧
      Leaves ⟨0, fun _ => none⟩ h' [2, 4, 5, 8, 13] := by
  obtain ⟨h', new, hrun, hleaves, -, hnew⟩ :=
    session_memory [ascii "cat a &\n", ascii "ls|sort\n"] (h := ⟨0, fun _ => none⟩)
      (fun _ _ => rfl) fun line hline => by
        simp only [List.mem_cons, List.not_mem_nil, or_false] at hline
        obtain rfl | rfl := hline
        · exact ⟨⟨ascii "cat a &", by decide, by decide⟩, by unfold Exits; decide⟩
        · exact ⟨⟨ascii "ls|sort", by decide, by decide⟩, by unfold Exits; decide⟩
  have hkept : leftBehind 0 [ascii "cat a &\n", ascii "ls|sort\n"] = [2, 4, 5, 8, 13] := by
    decide
  exact ⟨h', hrun, (hnew.trans hkept) ▸ hleaves⟩

end Lines

end SystemSoftware.CommandMemory
