import SystemSoftware.ParserTermination

/-!
The argument vector of a command and its MAXARGS places. The loop of `find_arguments`
ends with argc at MAXARGS when it has read fifteen arguments, and the null pointer is
then stored behind the vector. Words that are left on the line are not skipped: the
parser takes them for the next command.
-/
namespace SystemSoftware.ArgumentVectors

open DecimalText ShellCommands ShellParser ArgumentScan ParserRounds ParserTermination
open RequestParser (blank skipBlanks spanTo)

/-- All arguments in front of the next separator, without the bound of the loop. Each
takes a character of the line. -/
def allArguments (line : Text) : Option Arguments := readArguments (line.length + 1) line

/-- What `find_arguments` stores in the vector, each with its index: the name, the
arguments and the null pointer, where it stores one. -/
def vectorStores (found : Command) (args : Arguments) : List (ℕ × Option Text) :=
  (0, some found.builtin.name) :: args.stores 1

/-- The stores stay in the vector, which has a null pointer, and no word is left behind
the arguments. -/
structure FitsVector (st : StageRead) : Prop where
  inBounds : ∀ x ∈ vectorStores st.found st.args, x.1 < maxArgs
  terminated : ∃ i < maxArgs, st.cmd.arguments[i]? = some none
  separated : ∃ c ∈ st.rest.head?, c = newline ∨ c = pipe ∨ c = ampersand

section Loop

variable {line rest : Text} {args : Arguments} {m n : ℕ} {cmd : Command}

/-- `find_arguments` performs these stores on the vector that it allocates. -/
theorem findArguments_stores (cmd : Command) (line : Text) : findArguments cmd line =
    (readArguments (maxArgs - 1) line).map fun args =>
      let filled := storeAll { cmd with arguments := List.replicate maxArgs none }
        (vectorStores cmd args)
      (.ok, if args.closed then { filled with argc := 1 + args.texts.length } else filled,
        args.rest) := by
  rw [findArguments]
  simp only [argumentLoop_eq]
  cases readArguments (maxArgs - 1) line <;> rfl

/-- Where the loop ends before its bound, another bound makes no difference. -/
theorem readArguments_stable (h : readArguments m line = some args) (hm : args.texts.length < m)
    (hn : args.texts.length < n) : readArguments n line = some args := by
  induction m generalizing n line args with
  | zero => cases hm
  | succ m ih =>
    obtain ⟨n, rfl⟩ := Nat.exists_eq_succ_of_ne_zero (Nat.ne_of_gt (Nat.zero_lt_of_lt hn))
    rw [readArguments] at h ⊢
    obtain ⟨step, hstep, h⟩ := Option.bind_eq_some_iff.mp h
    rw [hstep, Option.bind_eq_bind, Option.bind_some]
    cases step with
    | ampersand | ended => exact h
    | argument text rest =>
      obtain ⟨args', hargs, h⟩ := Option.bind_eq_some_iff.mp h
      obtain rfl := Option.some.inj h
      simp only [ih hargs (Nat.lt_of_succ_lt_succ hm) (Nat.lt_of_succ_lt_succ hn),
        Option.bind_eq_bind, Option.bind_some]

/-- With more arguments than the bound, the bound is met and the arguments closed. -/
theorem readArguments_full (h : readArguments m line = some args) (hn : n ≤ args.texts.length) :
    ∃ args', readArguments n line = some args' ∧ args'.texts.length = n ∧ args'.closed = true := by
  induction n generalizing m line args with
  | zero => exact ⟨_, rfl, rfl, rfl⟩
  | succ n ih =>
    cases m with
    | zero =>
      obtain rfl := Option.some.inj h
      cases hn
    | succ m =>
      rw [readArguments] at h ⊢
      obtain ⟨step, hstep, h⟩ := Option.bind_eq_some_iff.mp h
      rw [hstep, Option.bind_eq_bind, Option.bind_some]
      cases step with
      | ampersand | ended =>
        obtain rfl := Option.some.inj h
        cases hn
      | argument text rest =>
        obtain ⟨args', hargs, h⟩ := Option.bind_eq_some_iff.mp h
        obtain rfl := Option.some.inj h
        obtain ⟨short, hshort, hlen, hclosed⟩ := ih hargs (Nat.le_of_succ_le_succ hn)
        refine ⟨{ short with texts := text :: short.texts }, ?_, ?_, hclosed⟩
        · simp only [hshort, Option.bind_eq_bind, Option.bind_some]
        · rw [List.length_cons, hlen]

/-- An argument takes a character, and where the loop ends before its bound it is at a
separator. -/
theorem readArguments_end (h : Terminated line) (hhead : ∃ c ∈ line.head?, blank c = false)
    (hread : readArguments m line = some args) :
    args.texts.length + args.rest.length ≤ line.length ∧ (args.texts.length < m →
      ∃ c ∈ args.rest.head?, c = newline ∨ c = pipe ∨ c = ampersand) := by
  induction m generalizing line args with
  | zero =>
    obtain rfl := Option.some.inj hread
    exact ⟨by simp, nofun⟩
  | succ m ih =>
    rw [readArguments] at hread
    obtain ⟨step, hstep, hread⟩ := Option.bind_eq_some_iff.mp hread
    obtain ⟨step', hstep', hscan⟩ := nextArgument_total h
    obtain rfl := Option.some.inj (hstep.symm.trans hstep')
    cases hscan with
    | ampersand hamp =>
      obtain rfl := Option.some.inj hread
      exact ⟨by simp, fun _ => ⟨ampersand, hamp, Or.inr (Or.inr rfl)⟩⟩
    | ended hend =>
      obtain rfl := Option.some.inj hread
      obtain ⟨c, hc, hends, hamp⟩ := hend
      obtain ⟨d, hd, hblank⟩ := hhead
      obtain rfl := Option.mem_unique hc hd
      refine ⟨by simp, fun _ => ⟨c, hc, ?_⟩⟩
      simp only [endsWord, hblank, Bool.false_or, Bool.or_eq_true, decide_eq_true_eq] at hends
      rcases hends with (h | h) | h
      · exact Or.inl h
      · exact Or.inr (Or.inl h)
      · exact absurd h hamp
    | @argument text rest hsuffix hlt hhead' =>
      obtain ⟨args', hargs, hread⟩ := Option.bind_eq_some_iff.mp hread
      obtain rfl := Option.some.inj hread
      have hne : rest ≠ [] := by
        obtain ⟨c, hc, -⟩ := hhead'
        exact List.ne_nil_of_mem (List.mem_of_mem_head? hc)
      obtain ⟨hlen, hsep⟩ := ih (h.of_suffix hsuffix hne) hhead' hargs
      refine ⟨?_, fun hm => hsep (Nat.lt_of_succ_lt_succ hm)⟩
      simp only [List.length_cons]
      omega

end Loop

section Stage

variable {line : Text} {st : StageRead}

theorem mem_stores {args : Arguments} {argc : ℕ} {x : ℕ × Option Text}
    (hx : x ∈ args.stores argc) : x.1 < argc + args.texts.length ∨
      args.closed = true ∧ x.1 = argc + args.texts.length := by
  rcases List.mem_append.mp hx with hx | hx
  · obtain ⟨y, hy, rfl⟩ := List.mem_map.mp hx
    exact Or.inl (List.snd_lt_add_of_mem_zipIdx hy)
  · cases hclosed : args.closed with
    | false => simp [hclosed] at hx
    | true =>
      simp only [hclosed, if_true, List.mem_singleton] at hx
      exact Or.inr ⟨rfl, by rw [hx]⟩

/-- The vector takes the arguments of a stage exactly when there are fewer than fifteen. -/
theorem fitsVector_iff (hst : IsRead st) (hcall : Terminated st.call) {all : Arguments}
    (hall : allArguments st.call = some all) : FitsVector st ↔ all.texts.length ≤ 14 := by
  have hhead : ∃ c ∈ st.call.head?, blank c = false := by
    obtain ⟨⟨behind, -, hskip⟩, -⟩ := hst
    obtain ⟨_, d, t, -, heq, -, hd⟩ := RequestTokens.skipBlanks_iff.mp hskip
    exact ⟨d, by rw [heq]; rfl, hd⟩
  have hmax : maxArgs = 16 := rfl
  have hlen := (readArguments_end hcall hhead hall).1
  constructor
  · intro hfits
    by_contra hmany
    obtain ⟨args, hargs, htexts, hclosed⟩ :=
      readArguments_full (n := maxArgs - 1) hall (by omega)
    obtain rfl := Option.some.inj (hst.args.symm.trans hargs)
    -- The null pointer is stored behind fifteen arguments.
    have hmem : (1 + st.args.texts.length, none) ∈ vectorStores st.found st.args := by
      rw [vectorStores, Arguments.stores, hclosed]
      simp
    have hlt := hfits.inBounds _ hmem
    simp only at hlt
    omega
  · intro hfew
    have hread := readArguments_stable hall (by omega) (n := maxArgs - 1) (by omega)
    obtain rfl := Option.some.inj (hst.args.symm.trans hread)
    refine ⟨fun x hx => ?_, ⟨st.args.texts.length + 1, by omega, ?_⟩, ?_⟩
    · rcases List.mem_cons.mp hx with rfl | hx
      · exact Nat.zero_lt_succ _
      · rcases mem_stores hx with hlt | ⟨-, heq⟩ <;> omega
    · have hvector : st.cmd.arguments = vectorOf st.found.builtin.name st.args.texts := rfl
      rw [hvector, vectorOf, List.getElem?_append_right (by simp), List.length_map,
        List.length_cons, Nat.sub_self, List.getElem?_replicate, if_pos (by omega)]
    · obtain ⟨c, hc, hsep⟩ := (readArguments_end hcall hhead hread).2 (by omega)
      obtain ⟨t, ht⟩ : ∃ t, st.args.rest = c :: t := List.head?_eq_some_iff.mp hc
      have hblank : ¬ blank c = true := by rcases hsep with rfl | rfl | rfl <;> decide
      have hskip := hst.rest
      rw [ht, RequestParser.skipBlanks, if_neg hblank] at hskip
      exact ⟨c, by rw [← Option.some.inj hskip]; rfl, hsep⟩

def VectorsFit (line : Text) : Prop :=
  ∃ sts, stagesIn line = some sts ∧ ∀ st ∈ sts, FitsVector st

/-- The vectors fit exactly when no stage has more than fourteen arguments in front of
its separator. -/
theorem vectors_fit_iff (h : Terminated line) : VectorsFit line ↔
    ∃ sts, stagesIn line = some sts ∧ ∀ st ∈ sts, ∃ all, allArguments st.call = some all ∧
      all.texts.length ≤ 14 := by
  obtain ⟨os, hos⟩ := readRounds_total line.length h le_rfl
  have hsts : stagesIn line = some (stagesOf os) := by
    rw [stagesIn, hos _ (Nat.lt_succ_self _), Option.map_some]
  have hstage : ∀ st ∈ stagesOf os, FitsVector st ↔ ∃ all, allArguments st.call = some all ∧
      all.texts.length ≤ 14 := by
    intro st hst
    obtain ⟨hread, hstart, -, hhead⟩ := readRounds_starts h (hos _ (Nat.lt_succ_self _)) st hst
    have hcall := call_terminated hread hstart hhead
    obtain ⟨all, hall⟩ : ∃ all, allArguments st.call = some all := by
      obtain ⟨all, hall, -⟩ := readArguments_total (st.call.length + 1) hcall
      exact ⟨all, hall⟩
    rw [fitsVector_iff hread hcall hall, hall]
    simp
  simp only [VectorsFit, hsts, Option.some.injEq, exists_eq_left']
  exact forall₂_congr hstage

/-- Fourteen arguments, the last of them quoted, and a pipe. -/
theorem vectors_fit_fourteen : VectorsFit (ascii "ls 1 2 3 4 5 6 7 8 9 a b c d \"e f\"|cat\n") := by
  have h : Terminated (ascii "ls 1 2 3 4 5 6 7 8 9 a b c d \"e f\"|cat\n") :=
    ⟨ascii "ls 1 2 3 4 5 6 7 8 9 a b c d \"e f\"|cat", by decide, by decide⟩
  refine (vectors_fit_iff h).mpr ?_
  have hcounts : (stagesIn (ascii "ls 1 2 3 4 5 6 7 8 9 a b c d \"e f\"|cat\n")).map (fun sts =>
      sts.map fun st => (allArguments st.call).map (·.texts.length)) =
        some [some 14, some 0] := by
    decide
  obtain ⟨sts, hsts, heq⟩ := Option.map_eq_some_iff.mp hcounts
  refine ⟨sts, hsts, fun st hst => ?_⟩
  have hmem := List.mem_map_of_mem
    (f := fun st => (allArguments st.call).map (·.texts.length)) hst
  rw [heq] at hmem
  rcases List.mem_cons.mp hmem with h | hmem
  · obtain ⟨all, hall, hlen⟩ := Option.map_eq_some_iff.mp h
    exact ⟨all, hall, hlen.le⟩
  · obtain ⟨all, hall, hlen⟩ := Option.map_eq_some_iff.mp (List.mem_singleton.mp hmem)
    exact ⟨all, hall, hlen.le.trans (Nat.zero_le 14)⟩

/-- The null pointer behind fifteen arguments is stored at index 16, and the word behind
them becomes a command to which the output is piped. -/
theorem vectors_fit_fifteen :
    Terminated (ascii "ls 1 2 3 4 5 6 7 8 9 a b c d e f cat\n") ∧
      (stagesIn (ascii "ls 1 2 3 4 5 6 7 8 9 a b c d e f cat\n")).map
        (List.map (·.found.builtin.name)) = some [ascii "ls", ascii "cat"] ∧
      ¬ VectorsFit (ascii "ls 1 2 3 4 5 6 7 8 9 a b c d e f cat\n") := by
  refine ⟨⟨ascii "ls 1 2 3 4 5 6 7 8 9 a b c d e f cat", by decide, by decide⟩, by decide, ?_⟩
  rintro ⟨sts, hsts, hfits⟩
  have hstores : (stagesIn (ascii "ls 1 2 3 4 5 6 7 8 9 a b c d e f cat\n")).map
      (List.map fun st => (vectorStores st.found st.args).any fun x => x.1 = 16) =
        some [true, false] := by
    decide
  rw [hsts, Option.map_some, Option.some.injEq] at hstores
  obtain ⟨st, hst, hany⟩ := List.mem_map.mp (hstores ▸ List.mem_cons_self : true ∈ _)
  obtain ⟨x, hx, hindex⟩ := List.any_eq_true.mp hany
  have hlt := (hfits st hst).inBounds x hx
  rw [of_decide_eq_true hindex] at hlt
  exact absurd hlt (by decide)

end Stage

end SystemSoftware.ArgumentVectors
