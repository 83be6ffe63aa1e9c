import SystemSoftware.CommandWords

/-!
A blank in front of a separator. The parser is run on a line without quotes and on the
same line with one blank more in front of a pipe or an ampersand, and the two runs are
compared from scanner to scanner: they read the same stages, and are at the same
character of the line after every scan. Only the scan of a path that begins with a dot
does not stop at an ampersand, which without the blank becomes part of the path.
-/
namespace SystemSoftware.SeparatorBlanks

open DecimalText ShellCommands ShellParser ArgumentScan ParserRounds ParserTermination CommandScan
open RequestParser (blank skipBlanks spanTo)
open CommandWords (name_unbroken)
open RequestTokens (skipBlanks_iff spanTo_iff)

/-- A separator, a blank for it and the rest of the line. -/
structure IsSeparator (c b : UInt8) (v : Text) : Prop where
  separates : c = ampersand ∨ c = pipe
  blank : blank b = true
  terminated : Terminated (c :: v)

/-- What is left of the two lines at the same place: in front of the separator, or both
at it or behind it. -/
inductive Spaced (c b : UInt8) (v : Text) : Text → Text → Prop
  | before {u : Text} (hu : dapostrophe ∉ u) : Spaced c b v (u ++ c :: v) (u ++ b :: c :: v)
  | behind {t : Text} (ht : t <:+ c :: v) : Spaced c b v t t

/-- The same behind the blanks: both lines are at the same character. -/
inductive Aligned (c b : UInt8) (v : Text) : Text → Text → Prop
  | before {d : UInt8} {u : Text} (hd : blank d = false) (hu : dapostrophe ∉ d :: u) :
      Aligned c b v (d :: (u ++ c :: v)) (d :: (u ++ b :: c :: v))
  | behind {t : Text} (ht : t <:+ c :: v) : Aligned c b v t t

/-- A path runs up to the separator, which is an ampersand and does not end it. -/
def PathTo (c : UInt8) (v : Text) (start : Text) : Prop :=
  c = ampersand ∧ ∃ w, start = dot :: (w ++ c :: v) ∧
    ∀ d ∈ w, blank d = false ∧ d ≠ newline ∧ d ≠ pipe

section Scans

variable {c b : UInt8} {u v x y r : Text} {stop : UInt8 → Bool}

theorem IsSeparator.endsWord (hsep : IsSeparator c b v) : endsWord c = true := by
  rcases hsep.separates with rfl | rfl <;> decide

theorem IsSeparator.unblank (hsep : IsSeparator c b v) : RequestParser.blank c = false := by
  rcases hsep.separates with rfl | rfl <;> decide

theorem IsSeparator.ends_blank (hsep : IsSeparator c b v) : ArgumentScan.endsWord b = true := by
  rw [ArgumentScan.endsWord, hsep.blank]
  rfl

theorem IsSeparator.ends_path (hsep : IsSeparator c b v) : endsPath b = true := by
  rw [endsPath, hsep.blank]
  rfl

theorem Aligned.spaced (h : Aligned c b v x y) : Spaced c b v x y := by
  cases h with
  | before hd hu => exact Spaced.before hu
  | behind ht => exact Spaced.behind ht

theorem Aligned.head?_eq (h : Aligned c b v x y) : x.head? = y.head? := by
  cases h with
  | before hd hu => rfl
  | behind ht => rfl

/-- Behind the blanks the two lines are at the same character. -/
theorem skipBlanks_spaced (hsep : IsSeparator c b v) (h : Spaced c b v x y)
    (hx : skipBlanks x = some r) : ∃ r', skipBlanks y = some r' ∧ Aligned c b v r r' := by
  cases h with
  | behind ht =>
    obtain ⟨bs, d, t, rfl, rfl, -, -⟩ := skipBlanks_iff.mp hx
    exact ⟨_, hx, Aligned.behind ((List.suffix_append ..).trans ht)⟩
  | @before u hu =>
    induction u with
    | nil =>
      have hskip : skipBlanks (c :: v) = some (c :: v) := by
        rw [skipBlanks, if_neg (by rw [hsep.unblank]; exact Bool.false_ne_true)]
      obtain rfl : c :: v = r := Option.some.inj (hskip.symm.trans hx)
      refine ⟨_, ?_, Aligned.behind (List.suffix_refl _)⟩
      rw [List.nil_append, skipBlanks, if_pos hsep.blank, hskip]
    | cons d u ih =>
      rw [List.cons_append, skipBlanks] at hx ⊢
      by_cases hd : blank d = true
      · rw [if_pos hd] at hx ⊢
        exact ih (fun hmem => hu (List.mem_cons_of_mem d hmem)) hx
      · rw [if_neg hd] at hx ⊢
        obtain rfl := Option.some.inj hx
        exact ⟨_, rfl, Aligned.before (Bool.eq_false_iff.mpr hd) hu⟩

/-- A scan that stops at the blank, and at the separator or earlier, takes the same. -/
theorem spanTo_spaced {w : Text} (hb : stop b = true) (hu : dapostrophe ∉ u)
    (hstop : stop c = true ∨ ∃ d ∈ u, stop d = true)
    (hx : spanTo stop (u ++ c :: v) = some (w, r)) :
    ∃ r', spanTo stop (u ++ b :: c :: v) = some (w, r') ∧ Spaced c b v r r' := by
  induction u generalizing w r with
  | nil =>
    have hc : stop c = true := hstop.resolve_right fun ⟨_, hmem, _⟩ => List.not_mem_nil hmem
    rw [List.nil_append, spanTo, if_pos hc] at hx
    obtain ⟨rfl, rfl⟩ := Prod.mk.inj (Option.some.inj hx)
    refine ⟨b :: c :: v, ?_, Spaced.before hu⟩
    rw [List.nil_append, spanTo, if_pos hb]
  | cons d u ih =>
    rw [List.cons_append, spanTo] at hx ⊢
    by_cases hd : stop d = true
    · rw [if_pos hd] at hx ⊢
      obtain ⟨rfl, rfl⟩ := Prod.mk.inj (Option.some.inj hx)
      exact ⟨_, rfl, Spaced.before hu⟩
    · rw [if_neg hd] at hx ⊢
      obtain ⟨⟨w', r'⟩, hspan, hx⟩ := Option.bind_eq_some_iff.mp hx
      obtain ⟨rfl, rfl⟩ := Prod.mk.inj (Option.some.inj hx)
      have hstop' : stop c = true ∨ ∃ e ∈ u, stop e = true := by
        refine hstop.imp_right ?_
        rintro ⟨e, hmem, he⟩
        rcases List.mem_cons.mp hmem with rfl | hmem
        · exact absurd he hd
        · exact ⟨e, hmem, he⟩
      obtain ⟨r'', hspan', hr⟩ := ih (fun hmem => hu (List.mem_cons_of_mem d hmem)) hstop' hspan
      exact ⟨r'', by rw [hspan']; rfl, hr⟩

end Scans

section Stages

variable {c b : UInt8} {v x y r : Text} {step : ArgumentStep} {args : Arguments} {rounds : ℕ}

inductive SameStep (c b : UInt8) (v : Text) : ArgumentStep → ArgumentStep → Prop
  | ampersand : SameStep c b v .ampersand .ampersand
  | ended : SameStep c b v .ended .ended
  | argument {text r r' : Text} (h : Aligned c b v r r') :
      SameStep c b v (.argument text r) (.argument text r')

theorem nextArgument_suffix (hsep : IsSeparator c b v) (hx : x <:+ c :: v)
    (h : nextArgument x = some step) : SameStep c b v step step := by
  have hne : x ≠ [] := by
    rintro rfl
    cases h
  obtain ⟨step', hstep', hscan⟩ := nextArgument_total (hsep.terminated.of_suffix hx hne)
  obtain rfl := Option.some.inj (h.symm.trans hstep')
  cases hscan with
  | ampersand _ => exact .ampersand
  | ended _ => exact .ended
  | argument hsuffix _ _ => exact .argument (.behind (hsuffix.trans hx))

theorem nextArgument_aligned (hsep : IsSeparator c b v) (h : Aligned c b v x y)
    (hx : nextArgument x = some step) :
    ∃ step', nextArgument y = some step' ∧ SameStep c b v step step' := by
  cases h with
  | behind ht => exact ⟨step, hx, nextArgument_suffix hsep ht hx⟩
  | @before d u hd hu =>
    rw [nextArgument] at hx ⊢
    simp only [List.head?_cons, Option.bind_eq_bind, Option.bind_some] at hx ⊢
    by_cases hamp : d = ampersand
    · rw [if_pos hamp] at hx ⊢
      obtain rfl := Option.some.inj hx
      exact ⟨_, rfl, .ampersand⟩
    have hquote : d ≠ dapostrophe := fun heq => hu (heq ▸ List.mem_cons_self)
    rw [if_neg hamp, if_neg hquote] at hx ⊢
    obtain ⟨⟨w, rest⟩, hspan, hx⟩ := Option.bind_eq_some_iff.mp hx
    rw [← List.cons_append] at hspan ⊢
    obtain ⟨rest', hspan', hrest⟩ :=
      spanTo_spaced hsep.ends_blank hu (Or.inl hsep.endsWord) hspan
    rw [hspan', Option.bind_some]
    by_cases hw : w = []
    · simp only [if_pos hw] at hx ⊢
      obtain rfl := Option.some.inj hx
      exact ⟨_, rfl, .ended⟩
    · simp only [if_neg hw] at hx ⊢
      obtain ⟨r, hskip, hx⟩ := Option.bind_eq_some_iff.mp hx
      obtain rfl := Option.some.inj hx
      obtain ⟨r', hskip', hr⟩ := skipBlanks_spaced hsep hrest hskip
      exact ⟨.argument (strncpy w) r', by rw [hskip', Option.bind_some], .argument hr⟩

/-- The loop reads the same arguments. -/
theorem readArguments_aligned (hsep : IsSeparator c b v) (h : Aligned c b v x y)
    (hx : readArguments rounds x = some args) : ∃ rest, Aligned c b v args.rest rest ∧
      readArguments rounds y = some { args with rest := rest } := by
  induction rounds generalizing x y args with
  | zero =>
    obtain rfl := Option.some.inj hx
    exact ⟨y, h, rfl⟩
  | succ rounds ih =>
    rw [readArguments] at hx ⊢
    obtain ⟨step, hstep, hx⟩ := Option.bind_eq_some_iff.mp hx
    obtain ⟨step', hstep', hsame⟩ := nextArgument_aligned hsep h hstep
    rw [hstep', Option.bind_eq_bind, Option.bind_some]
    cases hsame with
    | ampersand | ended =>
      obtain rfl := Option.some.inj hx
      exact ⟨y, h, rfl⟩
    | argument hr =>
      obtain ⟨args', hargs, hx⟩ := Option.bind_eq_some_iff.mp hx
      obtain rfl := Option.some.inj hx
      obtain ⟨rest, hrest, hread⟩ := ih hr hargs
      exact ⟨rest, hrest, by simp only [hread, Option.bind_eq_bind, Option.bind_some]⟩

/-- A text without separators is in front of both lines or of neither. -/
theorem prefix_before {name u t : Text} {e : UInt8} (hname : ∀ d ∈ name, endsWord d = false)
    (he : endsWord e = true) : name <+: u ++ e :: t ↔ name <+: u := by
  refine ⟨fun h => ?_, fun h => h.trans (List.prefix_append ..)⟩
  have hsplit : u ++ [e] <+: u ++ e :: t := ⟨t, by simp⟩
  rcases List.prefix_or_prefix_of_prefix h hsplit with h | h
  · rcases List.prefix_concat_iff.mp h with heq | h
    · have hfalse := hname e (heq ▸ by simp)
      rw [he] at hfalse
      cases hfalse
    · exact h
  · have hfalse := hname e (h.subset (by simp))
    rw [he] at hfalse
    cases hfalse

theorem linearScan_before {u : Text} {d e : UInt8} {s t : Text} (hd : endsWord d = true)
    (he : endsWord e = true) : linearScan (u ++ d :: s) = linearScan (u ++ e :: t) := by
  refine Option.ext fun entry => ?_
  rw [linearScan_eq_some_iff, linearScan_eq_some_iff]
  refine and_congr_right fun hentry => ?_
  rw [prefix_before (name_unbroken entry hentry) hd, prefix_before (name_unbroken entry hentry) he]

theorem findShellCommand_suffix {t rest : Text} {st : Status} {found : Option Command}
    (h : findShellCommand t = some (st, rest, found)) : rest <:+ t := by
  cases t with
  | nil => cases h
  | cons d t =>
    by_cases hdot : d = dot
    · rw [hdot, findShellCommand_path] at h
      obtain ⟨⟨w, rest'⟩, hspan, h⟩ := Option.map_eq_some_iff.mp h
      obtain rfl : rest' = rest := (Prod.mk.inj (Prod.mk.inj h).2).1
      obtain ⟨e, s, heq, rfl, -, -⟩ := spanTo_iff.mp hspan
      exact hdot ▸ heq ▸ List.suffix_append ..
    · rw [findShellCommand_scan hdot] at h
      cases hscan : linearScan (d :: t) with
      | none =>
        simp only [hscan, Option.some.injEq, Prod.mk.injEq] at h
        exact h.2.1 ▸ List.suffix_refl _
      | some e =>
        simp only [hscan, Option.some.injEq, Prod.mk.injEq] at h
        exact h.2.1 ▸ List.drop_suffix ..

/-- The same command is found, unless a path runs over the separator. -/
theorem findShellCommand_aligned (hsep : IsSeparator c b v) (h : Aligned c b v x y)
    (hpath : ¬ PathTo c v x) {st : Status} {found : Option Command}
    (hx : findShellCommand x = some (st, r, found)) :
    ∃ r', findShellCommand y = some (st, r', found) ∧ Spaced c b v r r' := by
  cases h with
  | behind ht => exact ⟨r, hx, .behind ((findShellCommand_suffix hx).trans ht)⟩
  | @before d u hd hu =>
    by_cases hdot : d = dot
    · subst hdot
      have hstop : endsPath c = true ∨ ∃ e ∈ dot :: u, endsPath e = true := by
        by_contra hno
        rw [not_or, not_exists] at hno
        refine hpath ⟨hsep.separates.resolve_right ?_, u, rfl, fun e he => ?_⟩
        · rintro rfl
          exact hno.1 (by decide)
        · have hstop := hno.2 e
          simpa only [List.mem_cons_of_mem dot he, true_and, endsPath, Bool.or_eq_true,
            decide_eq_true_eq, not_or, Bool.not_eq_true, and_assoc] using hstop
      rw [findShellCommand_path] at hx ⊢
      obtain ⟨⟨w, rest⟩, hspan, hx⟩ := Option.map_eq_some_iff.mp hx
      rw [← List.cons_append] at hspan ⊢
      obtain ⟨rest', hspan', hrest⟩ := spanTo_spaced hsep.ends_path hu hstop hspan
      obtain ⟨rfl, rfl, rfl⟩ : .ok = st ∧ rest = r ∧ _ = found := by
        simpa only [Prod.mk.injEq] using hx
      exact ⟨rest', by rw [hspan', Option.map_some], hrest⟩
    · have hends : endsWord b = true := hsep.ends_blank
      have hscan : linearScan (d :: (u ++ c :: v)) = linearScan (d :: (u ++ b :: c :: v)) :=
        linearScan_before (u := d :: u) hsep.endsWord hends
      rw [findShellCommand_scan hdot] at hx ⊢
      rw [← hscan]
      cases hfind : linearScan (d :: (u ++ c :: v)) with
      | none =>
        simp only [hfind, Option.some.injEq, Prod.mk.injEq] at hx ⊢
        obtain ⟨rfl, rfl, rfl⟩ := hx
        exact ⟨_, ⟨rfl, rfl, rfl⟩, .before hu⟩
      | some e =>
        simp only [hfind, Option.some.injEq, Prod.mk.injEq] at hx ⊢
        obtain ⟨rfl, rfl, rfl⟩ := hx
        obtain ⟨he, hname⟩ := linearScan_eq_some_iff.mp hfind
        have hbefore : e.builtin.name <+: d :: u :=
          (prefix_before (u := d :: u) (name_unbroken e he) hsep.endsWord).mp hname
        obtain ⟨u', hu'⟩ := hbefore
        refine ⟨_, ⟨rfl, rfl, rfl⟩, ?_⟩
        rw [← List.cons_append, ← List.cons_append, ← hu', List.append_assoc, List.append_assoc,
          List.drop_left, List.drop_left]
        exact .before fun hmem => hu (hu' ▸ List.mem_append_right _ hmem)

structure SameStage (c b : UInt8) (v : Text) (st st' : StageRead) : Prop where
  cmd : st.cmd = st'.cmd
  rest : Aligned c b v st.rest st'.rest

theorem readStage_aligned (hsep : IsSeparator c b v) (h : Aligned c b v x y)
    (hpath : ¬ PathTo c v x) {o : Option StageRead} (hx : readStage x = some o) :
    ∃ o', readStage y = some o' ∧ Option.Rel (SameStage c b v) o o' := by
  rw [readStage] at hx
  obtain ⟨⟨status, behind, found⟩, hfind, hx⟩ := Option.bind_eq_some_iff.mp hx
  obtain ⟨behind', hfind', hbehind⟩ := findShellCommand_aligned hsep h hpath hfind
  rcases findShellCommand_cases hfind with ⟨_, f, name, fp, heq⟩ | ⟨_, heq⟩
  · obtain ⟨rfl, rfl, rfl⟩ : status = .ok ∧ behind = _ ∧ found = some (newCommand f name fp) := by
      simpa only [Prod.mk.injEq] using heq
    simp only [Option.bind_eq_bind, Option.bind_eq_some_iff] at hx
    obtain ⟨call, hcall, args, hargs, rest, hrest, hx⟩ := hx
    obtain rfl := Option.some.inj hx
    obtain ⟨call', hcall', hcalls⟩ := skipBlanks_spaced hsep hbehind hcall
    obtain ⟨left, hleft, hargs'⟩ := readArguments_aligned hsep hcalls hargs
    obtain ⟨rest', hrest', hrests⟩ := skipBlanks_spaced hsep hleft.spaced hrest
    refine ⟨some ⟨y, newCommand f name fp, call', { args with rest := left }, rest'⟩, ?_,
      .some ⟨rfl, hrests⟩⟩
    simp only [readStage, hfind', hcall', hargs', hrest', Option.bind_eq_bind, Option.bind_some]
  · obtain ⟨rfl, rfl, rfl⟩ : status = .noCommandErr ∧ behind = _ ∧ found = none := by
      simpa only [Prod.mk.injEq] using heq
    obtain rfl := Option.some.inj hx
    refine ⟨none, ?_, .none⟩
    simp only [readStage, hfind', Option.bind_eq_bind, Option.bind_some]

structure SameRound (c b : UInt8) (v : Text) (o o' : Outcome) : Prop where
  cmd : o.stage?.map StageRead.cmd = o'.stage?.map StageRead.cmd
  status : ∀ s, o.status s = o'.status s
  mode : ∀ m, o.mode m = o'.mode m
  next : Option.Rel (Spaced c b v) o.next o'.next

theorem Aligned.tail (h : Aligned c b v x y) : Spaced c b v x.tail y.tail := by
  cases h with
  | before hd hu => exact .before fun hmem => hu (List.mem_cons_of_mem _ hmem)
  | behind ht => exact .behind ((List.tail_suffix _).trans ht)

theorem endStage_aligned (hsep : IsSeparator c b v) {st st' : StageRead} {o : Outcome}
    (h : SameStage c b v st st') (hx : endStage st = some o) :
    ∃ o', endStage st' = some o' ∧ SameRound c b v o o' := by
  rw [endStage] at hx ⊢
  obtain ⟨d, hd, hx⟩ := Option.bind_eq_some_iff.mp hx
  rw [← h.rest.head?_eq, hd, Option.bind_eq_bind, Option.bind_some]
  have hcmd : some st.cmd = some st'.cmd := congrArg some h.cmd
  by_cases hamp : d = ampersand
  · rw [if_pos hamp] at hx ⊢
    obtain ⟨line, hskip, hx⟩ := Option.bind_eq_some_iff.mp hx
    obtain ⟨e, he, hx⟩ := Option.bind_eq_some_iff.mp hx
    obtain rfl := Option.some.inj hx
    obtain ⟨line', hskip', hline⟩ := skipBlanks_spaced hsep h.rest.tail hskip
    refine ⟨.background st' (e = newline), ?_, hcmd, fun _ => rfl, fun _ => rfl, .none⟩
    simp only [hskip', ← hline.head?_eq, he, Option.bind_eq_bind, Option.bind_some]
  · rw [if_neg hamp] at hx ⊢
    by_cases hpipe : d = pipe
    · rw [if_pos hpipe] at hx ⊢
      obtain rfl := Option.some.inj hx
      exact ⟨_, rfl, hcmd, fun _ => rfl, fun _ => rfl, .some h.rest.tail⟩
    · rw [if_neg hpipe] at hx ⊢
      obtain rfl := Option.some.inj hx
      exact ⟨_, rfl, hcmd, fun _ => rfl, fun _ => rfl, .some h.rest.spaced⟩

end Stages

section Rounds

variable {c b : UInt8} {v x y : Text} {o : Outcome} {os os' : List Outcome} {rounds : ℕ}

/-- A path is always a command. -/
theorem readStage_dot (t : Text) : readStage (dot :: t) ≠ some none := by
  intro hx
  obtain ⟨r, hfind, hx⟩ := Option.bind_eq_some_iff.mp hx
  rw [findShellCommand_path] at hfind
  obtain ⟨⟨w, rest⟩, -, rfl⟩ := Option.map_eq_some_iff.mp hfind
  simp only [Option.bind_eq_bind, Option.bind_eq_some_iff] at hx
  obtain ⟨call, -, args, -, rest', -, hx⟩ := hx
  cases Option.some.inj hx

theorem readRound_spaced (hsep : IsSeparator c b v) (h : Spaced c b v x y)
    (hx : readRound x = some o) (hpath : ∀ st ∈ o.stage?, ¬ PathTo c v st.start) :
    ∃ o', readRound y = some o' ∧ SameRound c b v o o' := by
  obtain ⟨start, hskip, hcases⟩ := readRound_cases hx
  obtain ⟨start', hskip', hstart⟩ := skipBlanks_spaced hsep h hskip
  rw [readRound, hskip', Option.bind_eq_bind, Option.bind_some, ← hstart.head?_eq]
  obtain ⟨hend, rfl⟩ | ⟨hhead, hread⟩ := hcases
  · refine ⟨.ended, ?_, rfl, fun _ => rfl, fun _ => rfl, .none⟩
    rw [hend, Option.bind_eq_bind, Option.bind_some, if_pos rfl]
  · obtain ⟨d, hd⟩ : ∃ d, start.head? = some d := by
      obtain ⟨_, d, t, -, rfl, -, -⟩ := skipBlanks_iff.mp hskip
      exact ⟨d, rfl⟩
    have hline : d ≠ newline := fun heq => hhead (heq ▸ hd)
    rw [hd, Option.bind_eq_bind, Option.bind_some, if_neg hline]
    rcases hread with ⟨hunknown, rfl⟩ | ⟨st, hst, hend⟩
    · have hpath' : ¬ PathTo c v start := by
        rintro ⟨-, w, rfl, -⟩
        exact readStage_dot _ hunknown
      obtain ⟨r, hread', hrel⟩ := readStage_aligned hsep hstart hpath' hunknown
      cases hrel
      refine ⟨.unknown, ?_, rfl, fun _ => rfl, fun _ => rfl, .none⟩
      rw [hread', Option.bind_eq_bind, Option.bind_some]
    · have hpath' : ¬ PathTo c v start :=
        (readStage_isRead hst).1 ▸ hpath st (endStage_stage hend)
      obtain ⟨r, hread', hrel⟩ := readStage_aligned hsep hstart hpath' hst
      cases hrel with
      | @some _ st' hsame =>
        obtain ⟨o', ho', hround⟩ := endStage_aligned hsep hsame hend
        refine ⟨o', ?_, hround⟩
        rw [hread', Option.bind_eq_bind, Option.bind_some]
        exact ho'

theorem readRounds_spaced (hsep : IsSeparator c b v) (h : Spaced c b v x y)
    (hx : readRounds rounds x = some os) (hpath : ∀ st ∈ stagesOf os, ¬ PathTo c v st.start) :
    ∃ os', readRounds rounds y = some os' ∧ List.Forall₂ (SameRound c b v) os os' := by
  induction rounds generalizing x y os with
  | zero => cases hx
  | succ rounds ih =>
    obtain ⟨o, os₁, ho, rfl, hnext⟩ := readRounds_succ hx
    obtain ⟨o', ho', hround⟩ := readRound_spaced hsep h ho fun st hst =>
      hpath st (mem_stagesOf_cons.mpr (Or.inl hst))
    have hrel := hround.next
    simp only [readRounds, ho', Option.bind_eq_bind, Option.bind_some]
    obtain ⟨hn, rfl⟩ | ⟨rest, hn, hos⟩ := hnext
    · rw [hn] at hrel
      generalize o'.next = next at hrel
      cases hrel
      exact ⟨[o'], rfl, .cons hround .nil⟩
    · rw [hn] at hrel
      generalize o'.next = next at hrel
      cases hrel with
      | some hrest =>
        obtain ⟨os₂, hos₂, hall⟩ := ih hrest hos fun st hst =>
          hpath st (mem_stagesOf_cons.mpr (Or.inr hst))
        exact ⟨o' :: os₂, congrArg (Option.map (o' :: ·)) hos₂, .cons hround hall⟩

theorem commandsOf_cons (o : Outcome) (os : List Outcome) :
    commandsOf (o :: os) = (o.stage?.map StageRead.cmd).toList ++ commandsOf os := by
  cases hst : o.stage? with
  | none => simp [commandsOf, stagesOf, hst]
  | some st => simp [commandsOf, stagesOf, hst]

/-- Rounds that are the same build the same parser. -/
theorem sameRounds (h : List.Forall₂ (SameRound c b v) os os') :
    commandsOf os = commandsOf os' ∧ (∀ m, modeOf os m = modeOf os' m) ∧
      ∀ s, statusOf os s = statusOf os' s := by
  induction h with
  | nil => exact ⟨rfl, fun _ => rfl, fun _ => rfl⟩
  | @cons o o' os os' hround _ ih =>
    obtain ⟨hcommands, hmode, hstatus⟩ := ih
    refine ⟨?_, fun m => ?_, fun s => ?_⟩
    · rw [commandsOf_cons, commandsOf_cons, hround.cmd, hcommands]
    · rw [modeOf, List.foldl_cons, hround.mode m]
      exact hmode _
    · rw [statusOf, List.foldl_cons, hround.status s]
      exact hstatus _

end Rounds

section Paths

variable {b : UInt8} {v x y : Text} {o o' : Outcome} {os os' : List Outcome} {rounds : ℕ}

theorem spanTo_append_left {stop : UInt8 → Bool} {w t : Text} (hw : ∀ c ∈ w, stop c = false) :
    spanTo stop (w ++ t) = (spanTo stop t).map fun x => (w ++ x.1, x.2) := by
  induction w with
  | nil => simp
  | cons c w ih =>
    rw [List.forall_mem_cons] at hw
    rw [List.cons_append, spanTo, if_neg (by rw [hw.1]; exact Bool.false_ne_true), ih hw.2]
    cases spanTo stop t <;> rfl

/-- The name of a path is what is in front of its end. -/
theorem name_of_path {st : StageRead} (hst : IsRead st) {w t : Text}
    (hstart : st.start = dot :: (w ++ t)) (hw : ∀ c ∈ dot :: w, endsPath c = false ∧ c ≠ 0) :
    ∃ s rest, spanTo endsPath t = some (s, rest) ∧
      st.found.builtin.name = dot :: w ++ strncpy s := by
  obtain ⟨⟨behind, hfind, -⟩, -, -⟩ := hst
  rcases findShellCommand_found hfind with ⟨-, s, -, hfound, hspan⟩ | ⟨hhead, -, -⟩
  · rw [hstart, ← List.cons_append, spanTo_append_left fun c hc => (hw c hc).1] at hspan
    obtain ⟨⟨s', rest⟩, hs', heq⟩ := Option.map_eq_some_iff.mp hspan
    refine ⟨s', rest, hs', ?_⟩
    rw [hfound, ← (Prod.mk.inj heq).1]
    exact strncpy_append (fun c hc => (hw c hc).2) s'
  · rw [hstart] at hhead
    exact absurd rfl hhead

/-- A path that runs over the ampersand has another name behind the blank. -/
theorem readRound_path (hsep : IsSeparator ampersand b v) (h : Spaced ampersand b v x y)
    (hzero : 0 ∉ x) {st : StageRead} (hx : readRound x = some o) (hst : o.stage? = some st)
    (hpath : PathTo ampersand v st.start) (hy : readRound y = some o') :
    ∃ st', o'.stage? = some st' ∧ st.found.builtin.name ≠ st'.found.builtin.name := by
  obtain ⟨hskip, -, hread⟩ := readRound_isRead hx hst
  obtain ⟨start', hskip', hstart⟩ := skipBlanks_spaced hsep h hskip
  obtain ⟨-, w, heq, hw⟩ := hpath
  have hw' : ∀ c ∈ dot :: w, endsPath c = false ∧ c ≠ 0 := by
    obtain ⟨_, d, t, rfl, hd, -, -⟩ := skipBlanks_iff.mp hskip
    intro c hc
    refine ⟨?_, ?_⟩
    · rcases List.mem_cons.mp hc with rfl | hc
      · decide
      · obtain ⟨h₁, h₂, h₃⟩ := hw c hc
        simp [endsPath, h₁, h₂, h₃]
    · rintro rfl
      refine hzero (List.mem_append_right _ ?_)
      rw [← hd, heq]
      exact List.mem_append_left _ hc
  have hstart' : start' = dot :: (w ++ b :: ampersand :: v) := by
    rw [heq] at hstart
    generalize hs : dot :: (w ++ ampersand :: v) = s at hstart
    cases hstart with
    | @before d u hd hu =>
      obtain ⟨rfl, hrest⟩ := List.cons.inj hs
      rw [List.append_cancel_right hrest]
    | behind ht =>
      have hlen := ht.length_le
      rw [← hs] at hlen
      simp only [List.length_cons, List.length_append] at hlen
      omega
  obtain ⟨start'', hskip'', hcases⟩ := readRound_cases hy
  obtain rfl : start' = start'' := Option.some.inj (hskip'.symm.trans hskip'')
  rw [hstart'] at hcases
  obtain ⟨hend, -⟩ | ⟨-, ⟨hunknown, -⟩ | ⟨st', hst', hend⟩⟩ := hcases
  · exact absurd (Option.some.inj hend) (by decide)
  · exact absurd hunknown (readStage_dot _)
  · obtain ⟨hstart'', hread'⟩ := readStage_isRead hst'
    refine ⟨st', endStage_stage hend, ?_⟩
    obtain ⟨s, rest, hspan, hname⟩ := name_of_path hread heq hw'
    obtain ⟨s', rest', hspan', hname'⟩ := name_of_path hread' hstart'' hw'
    rw [spanTo, if_pos hsep.ends_path] at hspan'
    rw [spanTo, if_neg (by decide)] at hspan
    obtain ⟨⟨s'', rest''⟩, -, hcons⟩ := Option.bind_eq_some_iff.mp hspan
    rw [hname, hname', ← (Prod.mk.inj (Option.some.inj hcons)).1,
      ← (Prod.mk.inj (Option.some.inj hspan')).1]
    intro heq
    have hnil := List.append_cancel_left heq
    exact absurd hnil (by simp [strncpy, ampersand])

theorem readRounds_path (hsep : IsSeparator ampersand b v) (h : Spaced ampersand b v x y)
    (hterm : Terminated x) (hzero : 0 ∉ x) (hx : readRounds rounds x = some os)
    (hpath : ∃ st ∈ stagesOf os, PathTo ampersand v st.start)
    (hy : readRounds rounds y = some os') :
    (commandsOf os).map (·.builtin.name) ≠ (commandsOf os').map (·.builtin.name) := by
  induction rounds generalizing x y os os' with
  | zero => cases hx
  | succ rounds ih =>
    obtain ⟨o, os₁, ho, rfl, hnext⟩ := readRounds_succ hx
    obtain ⟨o', os₂, ho', rfl, hnext'⟩ := readRounds_succ hy
    rw [commandsOf_cons, commandsOf_cons, List.map_append, List.map_append]
    by_cases hfirst : ∃ st, o.stage? = some st ∧ PathTo ampersand v st.start
    · obtain ⟨st, hst, hpath⟩ := hfirst
      obtain ⟨st', hst', hne⟩ := readRound_path hsep h hzero ho hst hpath ho'
      rw [hst, hst']
      exact fun heq => hne (List.cons.inj heq).1
    · obtain ⟨o'', ho'', hround⟩ := readRound_spaced hsep h ho fun st hst hpath =>
        hfirst ⟨st, hst, hpath⟩
      obtain rfl := Option.some.inj (ho'.symm.trans ho'')
      obtain ⟨st, hst, hpath⟩ := hpath
      have hlater : ∃ st ∈ stagesOf os₁, PathTo ampersand v st.start :=
        ⟨st, (mem_stagesOf_cons.mp hst).resolve_left fun hst => hfirst ⟨st, hst, hpath⟩, hpath⟩
      have hrel := hround.next
      rw [hround.cmd]
      refine fun heq => absurd (List.append_cancel_left heq) ?_
      obtain ⟨-, rfl⟩ | ⟨rest, hn, hos⟩ := hnext
      · obtain ⟨_, hmem, -⟩ := hlater
        cases hmem
      rw [hn] at hrel
      obtain ⟨hn', -⟩ | ⟨rest', hn', hos'⟩ := hnext'
      · rw [hn'] at hrel
        cases hrel
      rw [hn'] at hrel
      cases hrel with
      | some hrest =>
        obtain ⟨o₁, ho₁, hbelow⟩ := readRound_total hterm
        obtain rfl := Option.some.inj (ho.symm.trans ho₁)
        obtain ⟨hterm', hsuffix, -⟩ := hbelow rest hn
        exact ih hrest hterm' (fun hmem => hzero (hsuffix.mem hmem)) hos hlater hos'

end Paths

/-- The outcome of the parser: its status, its mode and the names, kinds and arguments
of its commands. -/
structure Reading where
  status : Option Status
  mode : Mode
  commands : List (Text × CmdFlag × List (Option Text))
  deriving DecidableEq

def reading (line : Text) : Option Reading := (parser line).map fun s =>
  ⟨s.status, s.mode, s.commands.map fun cmd => (cmd.builtin.name, cmd.f, cmd.arguments)⟩

def SameReading (line line' : Text) : Prop := ∃ r, reading line = some r ∧ reading line' = some r

section Lines

variable {c b : UInt8} {u v : Text}

theorem terminated_blank (h : Terminated (u ++ c :: v)) (hb : blank b = true) :
    Terminated (u ++ b :: c :: v) := by
  obtain ⟨t, ht, -⟩ := h.of_suffix (List.suffix_append u _) (List.cons_ne_nil c v)
  obtain ⟨w, hw, hnewline⟩ := h
  have hsplit : w = u ++ t := by
    rw [ht, ← List.append_assoc] at hw
    exact (List.append_cancel_right hw).symm
  refine ⟨u ++ b :: t, by rw [ht]; simp, fun hmem => ?_⟩
  rw [hsplit, List.mem_append, not_or] at hnewline
  rcases List.mem_append.mp hmem with hmem | hmem
  · exact hnewline.1 hmem
  · rcases List.mem_cons.mp hmem with rfl | hmem
    · exact absurd hb (by decide)
    · exact hnewline.2 hmem

/-- The links do not matter for the outcome. -/
theorem map_linkedCommands (cmds : List Command) :
    (linkedCommands cmds).map (fun cmd => (cmd.builtin.name, cmd.f, cmd.arguments)) =
      cmds.map fun cmd => (cmd.builtin.name, cmd.f, cmd.arguments) := by
  refine List.ext_getElem? fun i => ?_
  rw [List.getElem?_map, List.getElem?_map, linkedCommands_getElem?, Option.map_map]
  rfl

theorem reading_eq {line : Text} {os : List Outcome}
    (hos : readRounds (line.length + 1) line = some os) :
    reading line = some ⟨statusOf os none, modeOf os .foreground,
      (commandsOf os).map fun cmd => (cmd.builtin.name, cmd.f, cmd.arguments)⟩ := by
  rw [reading, parser_eq, hos, Option.map_some, Option.map_some,
    ← map_linkedCommands (commandsOf os)]
  rfl

/-- A blank in front of a separator makes no difference exactly when the separator is not
an ampersand in the path of a stage. -/
theorem blank_before_iff (h : Terminated (u ++ c :: v)) (hzero : 0 ∉ u ++ c :: v)
    (hquote : dapostrophe ∉ u ++ c :: v) (hc : c = ampersand ∨ c = pipe) (hb : blank b = true) :
    SameReading (u ++ c :: v) (u ++ b :: c :: v) ↔
      ∃ sts, stagesIn (u ++ c :: v) = some sts ∧ ∀ st ∈ sts, ¬ PathTo c v st.start := by
  have hsep : IsSeparator c b v :=
    ⟨hc, hb, h.of_suffix (List.suffix_append ..) (List.cons_ne_nil _ _)⟩
  have hspaced : Spaced c b v (u ++ c :: v) (u ++ b :: c :: v) :=
    .before fun hmem => hquote (List.mem_append_left _ hmem)
  have hlen : (u ++ b :: c :: v).length = (u ++ c :: v).length + 1 := by
    simp only [List.length_append, List.length_cons]
    omega
  obtain ⟨os, hos⟩ := readRounds_total _ h le_rfl
  obtain ⟨os', hos'⟩ := readRounds_total _ (terminated_blank h hb) le_rfl
  have hread := reading_eq (hos _ (Nat.lt_succ_self _))
  have hread' := reading_eq (hos' _ (Nat.lt_succ_self _))
  have hstages : stagesIn (u ++ c :: v) = some (stagesOf os) := by
    rw [stagesIn, hos _ (Nat.lt_succ_self _), Option.map_some]
  -- The second line has a round more, which the first one does not need.
  have hx := hos ((u ++ b :: c :: v).length + 1) (by omega)
  have hy := hos' _ (Nat.lt_succ_self _)
  simp only [hstages, Option.some.injEq, exists_eq_left']
  constructor
  · rintro ⟨r, hr, hr'⟩ st hst hpath
    obtain rfl : c = ampersand := hpath.1
    refine readRounds_path hsep hspaced h hzero hx ⟨st, hst, hpath⟩ hy ?_
    have hcommands := congrArg (fun r => r.commands.map (·.1))
      (Option.some.inj ((hread.symm.trans hr).trans (hr'.symm.trans hread')))
    simp only [List.map_map] at hcommands
    exact hcommands
  · intro hpath
    obtain ⟨os'', hos'', hall⟩ := readRounds_spaced hsep hspaced hx hpath
    obtain rfl := Option.some.inj (hy.symm.trans hos'')
    obtain ⟨hcommands, hmode, hstatus⟩ := sameRounds hall
    refine ⟨_, hread, ?_⟩
    rw [hread', hcommands, hmode, hstatus]

/-- A pipe between two commands, and an ampersand behind a path. -/
theorem blank_before_pipe : SameReading (ascii "ls|./a &\n") (ascii "ls |./a &\n") := by
  have h : Terminated (ascii "ls" ++ pipe :: ascii "./a &\n") :=
    ⟨ascii "ls|./a &", by decide, by decide⟩
  have hstarts : (stagesIn (ascii "ls" ++ pipe :: ascii "./a &\n")).isSome = true := by decide
  obtain ⟨sts, hsts⟩ := Option.isSome_iff_exists.mp hstarts
  exact (blank_before_iff h (by decide) (by decide) (Or.inr rfl) (by decide)).mpr
    ⟨sts, hsts, fun _ _ hpath => absurd hpath.1 (by decide)⟩

/-- Without the blank the ampersand is part of the path, and the command is not run in
the background. -/
theorem blank_before_ampersand :
    Terminated (ascii "./a&\n") ∧ ¬ SameReading (ascii "./a&\n") (ascii "./a &\n") := by
  refine ⟨⟨ascii "./a&", by decide, by decide⟩, ?_⟩
  rintro ⟨r, hr, hr'⟩
  have hmode : (reading (ascii "./a&\n")).map Reading.mode = some .foreground := by decide
  have hmode' : (reading (ascii "./a &\n")).map Reading.mode = some .background := by decide
  rw [hr, Option.map_some] at hmode
  rw [hr', Option.map_some, Option.some.inj hmode] at hmode'
  cases hmode'

end Lines

end SystemSoftware.SeparatorBlanks
