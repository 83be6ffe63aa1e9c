import SystemSoftware.RequestTokens

/-!
Which lines are accepted. The first token is compared with a name over its own
length only, and nothing looks at the digits of the arguments, so `parser` accepts
more than the requests it was made for. Every accepted line is described by its
first token and by how the arguments are cut off behind it.
-/
namespace SystemSoftware.RequestAcceptance

open DecimalText StockTree RequestParser RequestTokens

def words (t : Text) : List Text := (t.splitOnP blank).filter (· ≠ [])

def Decimal (w : Text) : Prop :=
  (readSign w).2 ≠ [] ∧ ∀ c ∈ (readSign w).2, isDigit c = true

structure Exactly (line : Text) (cmd : Command) : Prop where
  name : firstToken line = cmd.name
  args : cmd.fp = .sell ∨ cmd.fp = .buy →
    ∃ a b, words (behind line) = [a, b] ∧ Decimal a ∧ Decimal b

/-- The line is accepted for a command although its first token is not the whole name, or the
arguments that are cut off behind it are not both numbers. -/
def Loose (line rest : Text) : Prop :=
  ∃ c, selected (firstToken line) = some c ∧
    ((c.1 = .noargs ∧ Blanks (behind line) ∧ firstToken line ≠ c.2.1) ∨
      (c.1 = .intint ∧ ∃ b₁ w₁ b₂ w₂ b₃ t,
        Cut (behind line ++ newline :: rest) b₁ w₁ b₂ w₂ b₃ newline t ∧
          ¬ (firstToken line = c.2.1 ∧ Decimal w₁ ∧ Decimal w₂)))

section Words

variable {b w t : Text}

theorem words_blanks (hb : Blanks b) : words (b ++ t) = words t := by
  induction b with
  | nil => rfl
  | cons c b ih =>
    rw [words, List.cons_append, List.splitOnP_cons_eq_if_modifyHead,
      if_pos (hb c List.mem_cons_self), List.filter_cons_of_neg (by simp)]
    exact ih fun c hc => hb c (List.mem_cons_of_mem _ hc)

theorem words_word (hw : ∀ c ∈ w, blank c = false) (hne : w ≠ []) : words w = [w] := by
  rw [words, List.splitOnP_eq_singleton hw, List.filter_cons_of_pos (by simpa using hne)]
  rfl

theorem words_gap (hw : ∀ c ∈ w, blank c = false) (hne : w ≠ []) (hb : Blanks b) (hb' : b ≠ []) :
    words (w ++ (b ++ t)) = w :: words t := by
  cases b with
  | nil => exact absurd rfl hb'
  | cons c b =>
    rw [words, List.cons_append,
      List.splitOnP_append_cons_of_forall_mem hw c (hb c List.mem_cons_self),
      List.filter_cons_of_pos (by simpa using hne)]
    exact congrArg (w :: ·) (words_blanks fun c hc => hb c (List.mem_cons_of_mem _ hc))

theorem words_trail (hw : ∀ c ∈ w, blank c = false) (hne : w ≠ []) (hb : Blanks b) :
    words (w ++ b) = [w] := by
  by_cases hb' : b = []
  · rw [hb', List.append_nil, words_word hw hne]
  · have hgap := words_gap (t := []) hw hne hb hb'
    rw [List.append_nil] at hgap
    exact hgap

theorem newline_notMem_blanks (hb : Blanks b) : newline ∉ b := fun h =>
  absurd (hb newline h) (by decide)

/-- A text is cut at its first newline in one way. -/
theorem first_newline {u v u' v' : Text} (hu : newline ∉ u) (hu' : newline ∉ u')
    (h : u ++ newline :: v = u' ++ newline :: v') : u = u' := by
  have hcut : ∀ {u v : Text}, newline ∉ u →
      (u ++ newline :: v).takeWhile (fun c => decide (c ≠ newline)) = u := by
    intro u v hu
    rw [List.takeWhile_append_of_pos, List.takeWhile_cons_of_neg (by simp), List.append_nil]
    exact fun c hc => decide_eq_true fun heq => hu (heq ▸ hc)
  rw [← hcut (v := v) hu, h, hcut hu']

theorem not_decimal_of_newline (h : newline ∈ w) : ¬ Decimal w := by
  rintro ⟨-, hdigits⟩
  have hmem : newline ∈ (readSign w).2 := by
    cases w with
    | nil => exact h
    | cons c w =>
      rw [readSign]
      split
      · next hc => exact (List.mem_cons.mp h).resolve_left (hc ▸ by decide)
      · split
        · next hc => exact (List.mem_cons.mp h).resolve_left (hc ▸ by decide)
        · exact h
  exact absurd (hdigits newline hmem) (by decide)

/-- The words of a line from which two arguments are cut, perhaps across its end. -/
theorem words_cut {line rest b₁ w₁ b₂ w₂ b₃ t : Text} (hline : newline ∉ line)
    (h : Cut (line ++ newline :: rest) b₁ w₁ b₂ w₂ b₃ newline t) :
    (∃ a b, words line = [a, b] ∧ Decimal a ∧ Decimal b) ↔ Decimal w₁ ∧ Decimal w₂ := by
  by_cases hnl : newline ∈ w₁
  · -- The first argument runs on over the end of the line, which has one word at most.
    obtain ⟨u, v, rfl, hu⟩ := List.eq_append_cons_of_mem hnl
    have hsplit : line ++ newline :: rest =
        (b₁ ++ u) ++ newline :: (v ++ (b₂ ++ (w₂ ++ (b₃ ++ newline :: t)))) := by
      rw [h.eq]
      simp only [List.append_assoc, List.cons_append]
    have heq : line = b₁ ++ u := first_newline hline (fun hmem =>
      (List.mem_append.mp hmem).elim (newline_notMem_blanks h.blanks₁) hu) hsplit
    have hshort : (words line).length ≤ 1 := by
      rw [heq, words_blanks h.blanks₁]
      by_cases hne : u = []
      · rw [hne]
        decide
      · rw [words_word (fun c hc => h.word c (List.mem_append_left _ hc)) hne]
        exact le_rfl
    refine iff_of_false ?_ fun hdec => not_decimal_of_newline hnl hdec.1
    rintro ⟨a, b, hwords, -⟩
    rw [hwords] at hshort
    exact absurd hshort (by simp)
  · have hsplit : line ++ newline :: rest =
        (b₁ ++ (w₁ ++ (b₂ ++ (w₂ ++ b₃)))) ++ newline :: t := by
      rw [h.eq]
      simp only [List.append_assoc]
    have hunbroken : newline ∉ w₂ := fun hmem => ne_newline_of_unbroken (h.unbroken _ hmem) rfl
    have heq : line = b₁ ++ (w₁ ++ (b₂ ++ (w₂ ++ b₃))) := by
      refine first_newline hline ?_ hsplit
      simp only [List.mem_append, not_or]
      exact ⟨newline_notMem_blanks h.blanks₁, hnl, newline_notMem_blanks h.blanks₂, hunbroken,
        newline_notMem_blanks h.blanks₃⟩
    rw [heq, words_blanks h.blanks₁, words_gap h.word h.word_ne_nil h.blanks₂ h.gap_ne_nil]
    by_cases hne : w₂ = []
    · have hnone : words (w₂ ++ b₃) = [] := by
        rw [hne, h.missing hne]
        decide
      rw [hnone]
      refine iff_of_false ?_ fun hdec => ?_
      · rintro ⟨a, b, hwords, -⟩
        cases hwords
      · rw [hne] at hdec
        exact hdec.2.1 rfl
    · rw [words_trail (fun c hc => blank_of_unbroken (h.unbroken c hc)) hne h.blanks₃]
      constructor
      · rintro ⟨a, b, hwords, ha, hb⟩
        obtain ⟨rfl, hsecond⟩ := List.cons.inj hwords
        obtain ⟨rfl, -⟩ := List.cons.inj hsecond
        exact ⟨ha, hb⟩
      · rintro ⟨ha, hb⟩
        exact ⟨w₁, w₂, rfl, ha, hb⟩

end Words

section Accepted

variable {line rest : Text} {rc : Int} {cmd cmd' : Command}

theorem verdict_success {r : Status × Command} (h : verdict r = (.success, cmd')) :
    r.1 ≠ .error ∧ r.2 = cmd' := by
  obtain ⟨st, cmd⟩ := r
  rw [verdict] at h
  split at h
  · cases h
  · next hst => exact ⟨hst, (Prod.mk.inj h).2⟩

theorem ending_ne_error {x : UInt8} : ending x ≠ .error ↔ x = newline := by
  unfold ending
  split
  · next h => exact iff_of_true nofun h
  · next h => exact iff_of_false (fun hne => hne rfl) h

/-- The accepted lines and what they are taken for. -/
theorem accepted_iff (hline : newline ∉ line) (hne : line ≠ []) (hrc : rc ≠ 1) :
    parser (line ++ newline :: rest) rc cmd = some (.success, cmd') ↔
      ∃ c, selected (firstToken line) = some c ∧
        ((c.1 = .noargs ∧ Blanks (behind line) ∧ cmd' = select c (cleared cmd)) ∨
          (c.1 = .intint ∧ ∃ b₁ w₁ b₂ w₂ b₃ t,
            Cut (behind line ++ newline :: rest) b₁ w₁ b₂ w₂ b₃ newline t ∧
              cmd' = storeArgs w₁ w₂ (select c (cleared cmd)))) := by
  rw [parser_line hline hne hrc]
  cases hsel : selected (firstToken line) with
  | none => simp
  | some c =>
    simp only [Option.map_eq_some_iff, Option.some.injEq, exists_eq_left']
    cases hflag : c.1 with
    | noargs =>
      have hsel : (select c (cleared cmd)).flag = .noargs := hflag
      rcases blanks_or (behind line) with hblank | ⟨b, x, s, heq, hb, hx⟩
      · rw [findArgs_bare hsel hblank (by decide)]
        constructor
        · rintro ⟨r, hr, hver⟩
          obtain rfl := Option.some.inj hr
          exact Or.inl ⟨rfl, hblank, (verdict_success hver).2.symm⟩
        · rintro (⟨-, -, rfl⟩ | ⟨h, -⟩)
          · exact ⟨_, rfl, rfl⟩
          · cases h
      · have hnl : x ≠ newline := fun h => newline_notMem_behind hline (by simp [heq, h])
        rw [heq, List.append_assoc, List.cons_append, findArgs_bare hsel hb hx]
        refine iff_of_false ?_ ?_
        · rintro ⟨r, hr, hver⟩
          obtain rfl := Option.some.inj hr
          exact (verdict_success hver).1 (if_neg hnl)
        · rintro (⟨-, hblank, -⟩ | ⟨h, -⟩)
          · rw [hblank x (by simp)] at hx
            cases hx
          · cases h
    | intint =>
      have hsel : (select c (cleared cmd)).flag = .intint := hflag
      constructor
      · rintro ⟨r, hargs, hr⟩
        obtain ⟨hst, rfl⟩ := verdict_success hr
        obtain ⟨b₁, w₁, b₂, w₂, b₃, x, t, hcut⟩ := exists_cut hsel hargs
        rw [findArgs_cut hsel hcut, Option.some.injEq] at hargs
        subst hargs
        obtain rfl := ending_ne_error.mp hst
        exact Or.inr ⟨rfl, b₁, w₁, b₂, w₂, b₃, t, hcut, rfl⟩
      · rintro (⟨h, -⟩ | ⟨-, b₁, w₁, b₂, w₂, b₃, t, hcut, rfl⟩)
        · cases h
        · exact ⟨_, findArgs_cut hsel hcut, rfl⟩

end Accepted

theorem selected_mem {w : Text} {c : Entry} (h : selected w = some c) : c ∈ commandList :=
  List.mem_reverse.mp (List.mem_of_find?_eq_some h)

theorem trade_iff {c : Entry} (hc : c ∈ commandList) :
    c.2.2 = .sell ∨ c.2.2 = .buy ↔ c.1 = .intint := by
  simp only [commandList, List.mem_cons, List.not_mem_nil, or_false] at hc
  rcases hc with rfl | rfl | rfl | rfl <;> decide

/-- What `parser` accepts of a line is a request exactly when the line is not loose. -/
theorem exactly_iff {line : Text} (hline : newline ∉ line) (hne : line ≠ []) (rest : Text)
    (cmd : Command) :
    (∀ cmd', parser (line ++ newline :: rest) (line.length + 1) cmd = some (.success, cmd') →
      Exactly line cmd') ↔ ¬ Loose line rest := by
  have hrc : (line.length : Int) + 1 ≠ 1 := by
    have hpos := List.length_pos_iff.mpr hne
    omega
  simp only [accepted_iff hline hne hrc]
  constructor
  · rintro hall ⟨c, hsel, ⟨hflag, hblank, hname⟩ | ⟨hflag, b₁, w₁, b₂, w₂, b₃, t, hcut, hbad⟩⟩
    · exact hname (hall _ ⟨c, hsel, Or.inl ⟨hflag, hblank, rfl⟩⟩).name
    · have hex := hall _ ⟨c, hsel, Or.inr ⟨hflag, b₁, w₁, b₂, w₂, b₃, t, hcut, rfl⟩⟩
      have hargs := hex.args ((trade_iff (selected_mem hsel)).mpr hflag)
      exact hbad ⟨hex.name, (words_cut (newline_notMem_behind hline) hcut).mp hargs⟩
  · rintro hnot cmd' ⟨c, hsel, ⟨hflag, hblank, rfl⟩ | ⟨hflag, b₁, w₁, b₂, w₂, b₃, t, hcut, rfl⟩⟩
    · refine ⟨?_, fun hfp => ?_⟩
      · by_contra hname
        exact hnot ⟨c, hsel, Or.inl ⟨hflag, hblank, hname⟩⟩
      · have htrade := (trade_iff (selected_mem hsel)).mp hfp
        rw [hflag] at htrade
        cases htrade
    · have hok : firstToken line = c.2.1 ∧ Decimal w₁ ∧ Decimal w₂ := by
        by_contra hbad
        exact hnot ⟨c, hsel, Or.inr ⟨hflag, b₁, w₁, b₂, w₂, b₃, t, hcut, hbad⟩⟩
      exact ⟨hok.1, fun _ => (words_cut (newline_notMem_behind hline) hcut).mpr hok.2⟩

theorem exactly_iff_buy :
    (∀ cmd', parser (ascii "buy 1 5" ++ newline :: []) 8 clearCommand = some (.success, cmd') →
      Exactly (ascii "buy 1 5") cmd') ↔ ¬ Loose (ascii "buy 1 5") [] :=
  exactly_iff (by decide) (by decide) [] clearCommand

/-- A line with one blank is taken for `exit`, two letters for `show`, and two letters for the
numbers of a trade. -/
theorem accepted_loosely :
    (∃ cmd', parser (ascii " \n") 2 clearCommand = some (.success, cmd') ∧
      cmd'.name = ascii "exit" ∧ ¬ Exactly (ascii " ") cmd') ∧
    (∃ cmd', parser (ascii "sh\n") 3 clearCommand = some (.success, cmd') ∧
      cmd'.name = ascii "show" ∧ ¬ Exactly (ascii "sh") cmd') ∧
    ∃ cmd', parser (ascii "buy x y\n") 8 clearCommand = some (.success, cmd') ∧
      cmd'.fp = .buy ∧ ¬ Exactly (ascii "buy x y") cmd' := by
  refine ⟨⟨_, rfl, rfl, fun h => ?_⟩, ⟨_, rfl, rfl, fun h => ?_⟩, ⟨_, rfl, rfl, fun h => ?_⟩⟩
  · exact absurd h.name (by decide)
  · exact absurd h.name (by decide)
  · obtain ⟨a, b, hwords, ha, -⟩ := h.args (Or.inr rfl)
    obtain ⟨rfl, -⟩ := List.cons.inj (show [ascii "x", ascii "y"] = [a, b] from hwords)
    exact absurd (ha.2 120 (by decide)) (by decide)

end SystemSoftware.RequestAcceptance
