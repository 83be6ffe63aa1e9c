import SystemSoftware.DescriptorTable

/-!
The descriptors of the processes of a pipeline: execute_commands of execute.c.
Each round opens the pipe behind the next command, forks a child that moves its
ends to standard input and output, and closes three descriptors in the parent, one
of them for the second time. From the third round on that number belongs to the
read end of a newer pipe, so that the fourth command reads from a wrong descriptor.
-/
namespace SystemSoftware.PipelineWiring

open DescriptorTable

/-- What a descriptor refers to: a file that was open before, or an end of the
pipe with a number. -/
inductive Entry (F : Type)
  | file (f : F)
  | readEnd (p : ℕ)
  | writeEnd (p : ℕ)
  deriving DecidableEq

/-- The process that executes a pipeline: its descriptors, the array fds of pairs
of a read end and a write end, and how many pipes it has made. -/
structure Shell (F : Type) where
  table : Table (Entry F)
  fds : ℕ → ℕ × ℕ
  pipes : ℕ

section Model

variable {F C : Type}

/-- `pipe(fds[i])`: the two lowest free descriptors, the read end first. -/
def Shell.pipe (s : Shell F) (i : ℕ) : Shell F :=
  let r := lowest s.table
  let t := setEntry s.table r (some (.readEnd s.pipes))
  let w := lowest t
  ⟨setEntry t w (some (.writeEnd s.pipes)), Function.update s.fds i (r, w), s.pipes + 1⟩

/-- The descriptors of the child of command i when it goes on to execute it. -/
def Shell.child (s : Shell F) (i : ℕ) (redirectfrom redirectto : Bool) : Table (Entry F) :=
  let t := if redirectfrom then dup2 s.table (s.fds i).1 0 else s.table
  let t := if redirectto then dup2 t (s.fds (i + 1)).2 1 else t
  close (close (close (close t (s.fds i).1) (s.fds i).2) (s.fds (i + 1)).1) (s.fds (i + 1)).2

/-- What the parent closes after the fork for command i. -/
def Shell.parent (s : Shell F) (i : ℕ) : Shell F :=
  let t := close (close (close s.table (s.fds i).1) (s.fds (i + 1)).2) (s.fds i).2
  { s with table := t }

/-- The rounds of the loop from command i on; the list is linked through redirectto,
and back to `previous` through redirectfrom. Each child is listed with its command;
pid_list, which only handlers read, is left out. -/
def rounds (s : Shell F) (i : ℕ) (previous : Option C) :
    List C → List (C × Table (Entry F)) × Table (Entry F)
  | [] => ([], s.table)
  | cmd :: rest =>
    let s := s.pipe (i + 1)
    let child := s.child i previous.isSome rest.head?.isSome
    let r := rounds (s.parent i) (i + 1) (some cmd) rest
    ((cmd, child) :: r.1, r.2)

/-- The children and what the parent has open in the end; `none` is the exit for an
empty list of commands. -/
def executeCommands (t : Table (Entry F)) (cmds : List C) :
    Option (List (C × Table (Entry F)) × Table (Entry F)) :=
  match cmds with
  | [] => none
  | cmds => some (rounds (Shell.pipe ⟨t, fun _ => (0, 0), 0⟩ 0) 0 none cmds)

/-- Each command reads what the command before it writes, the first one reads and
the last one writes what the shell does, and nobody else holds the write end of
a pipe between two commands. -/
structure Wired (t : Table (Entry F)) (children : List (C × Table (Entry F)))
    (parent : Table (Entry F)) : Prop where
  linked : ∀ (k : ℕ) c c', children[k]? = some c → children[k + 1]? = some c' →
    ∃ p, entry c.2 1 = some (.writeEnd p) ∧ entry c'.2 0 = some (.readEnd p)
  first : ∀ c, children.head? = some c → entry c.2 0 = entry t 0
  last : ∀ c, children.getLast? = some c → entry c.2 1 = entry t 1
  sole : ∀ (k : ℕ) c p, children[k]? = some c → k + 1 < children.length →
    entry c.2 1 = some (.writeEnd p) → (∀ d, entry parent d ≠ some (.writeEnd p)) ∧
      ∀ (j : ℕ) c' d, children[j]? = some c' → entry c'.2 d = some (.writeEnd p) → j = k ∧ d = 1

end Model

section Rounds

variable {F : Type} {s : Shell F} {t : Table (Entry F)} {a b c d i x y u v : ℕ}

structure Lowest (t : Table (Entry F)) (a b c d : ℕ) : Prop where
  ab : a < b
  bc : b < c
  cd : c < d
  free : ∀ x, x = a ∨ x = b ∨ x = c ∨ x = d → entry t x = none
  used : ∀ x < d, x ≠ a → x ≠ b → x ≠ c → entry t x ≠ none

theorem exists_lowest (t : Table (Entry F)) : ∃ a b c d, Lowest t a b c d := by
  obtain ⟨a, -, ha, hbelow⟩ := exists_free t 0
  obtain ⟨b, hab, hb, hbetween⟩ := exists_free t (a + 1)
  obtain ⟨c, hbc, hc, hbetween'⟩ := exists_free t (b + 1)
  obtain ⟨d, hcd, hd, hbetween''⟩ := exists_free t (c + 1)
  refine ⟨a, b, c, d, hab, hbc, hcd, ?_, fun x hx hxa hxb hxc => ?_⟩
  · rintro x (rfl | rfl | rfl | rfl)
    exacts [ha, hb, hc, hd]
  · rcases lt_or_gt_of_ne hxa with hlt | hgt
    · exact hbelow x (Nat.zero_le x) hlt
    rcases lt_or_gt_of_ne hxb with hlt | hgt
    · exact hbetween x hgt hlt
    rcases lt_or_gt_of_ne hxc with hlt | hgt
    · exact hbetween' x hgt hlt
    · exact hbetween'' x hgt hx

/-- `pipe` with x and y as the two lowest free descriptors. -/
theorem pipe_spec (hxy : x < y) (hx : entry s.table x = none) (hy : entry s.table y = none)
    (hused : ∀ z < y, z ≠ x → entry s.table z ≠ none) :
    entry (s.pipe i).table =
        Function.update (Function.update (entry s.table) x (some (.readEnd s.pipes))) y
          (some (.writeEnd s.pipes)) ∧
      (s.pipe i).fds = Function.update s.fds i (x, y) ∧ (s.pipe i).pipes = s.pipes + 1 := by
  have hr : lowest s.table = x := lowest_eq hx fun z hz => hused z (hz.trans hxy) hz.ne
  have hw : lowest (setEntry s.table x (some (.readEnd s.pipes))) = y := by
    apply lowest_eq
    · rw [entry_setEntry, Function.update_of_ne hxy.ne', hy]
    · intro z hz
      rw [entry_setEntry]
      rcases eq_or_ne z x with rfl | hne
      · rw [Function.update_self]
        nofun
      · rw [Function.update_of_ne hne]
        exact hused z hz hne
  rw [Shell.pipe, hr, hw]
  exact ⟨by rw [entry_setEntry, entry_setEntry], rfl, rfl⟩

/-- The descriptors of a child: the ends of its two pipes are moved to standard input
and output, and gone from where they were. -/
theorem child_spec {redirectfrom redirectto : Bool} (hi : s.fds i = (x, y)) (hn : s.fds (i + 1) = (u, v))
    (hx : entry s.table x ≠ none) (hv : entry s.table v ≠ none)
    (hx1 : 1 < x) (hy1 : 1 < y) (hu1 : 1 < u) (hv1 : 1 < v) (z : ℕ) :
    entry (s.child i redirectfrom redirectto) z =
      if z = x ∨ z = y ∨ z = u ∨ z = v then none
      else if z = 0 ∧ redirectfrom then entry s.table x
      else if z = 1 ∧ redirectto then entry s.table v
      else entry s.table z := by
  have hfrom : ∀ z, entry (if redirectfrom then dup2 s.table x 0 else s.table) z =
      if z = 0 ∧ redirectfrom then entry s.table x else entry s.table z := by
    intro z
    cases redirectfrom
    · simp
    · simp [entry_dup2 hx, Function.update_apply]
  have hto : ∀ z, entry (if redirectto then
      dup2 (if redirectfrom then dup2 s.table x 0 else s.table) v 1
      else if redirectfrom then dup2 s.table x 0 else s.table) z =
      if z = 1 ∧ redirectto then entry s.table v
      else if z = 0 ∧ redirectfrom then entry s.table x else entry s.table z := by
    intro z
    have hv' : entry (if redirectfrom then dup2 s.table x 0 else s.table) v = entry s.table v := by
      rw [hfrom, if_neg fun h => absurd h.1 (by omega)]
    cases redirectto
    · simp [hfrom]
    · rw [if_pos rfl, entry_dup2 (hv'.symm ▸ hv), Function.update_apply, hv', hfrom]
      simp
  rw [Shell.child, hi, hn]
  simp only [entry_close, Function.update_apply, hto]
  split_ifs <;> first | rfl | omega

theorem parent_spec (hi : s.fds i = (x, y)) (hn : s.fds (i + 1) = (u, v)) (z : ℕ) :
    entry (s.parent i).table z = if z = x ∨ z = v ∨ z = y then none else entry s.table z := by
  rw [Shell.parent, hi, hn]
  simp only [entry_close, Function.update_apply]
  by_cases hzx : z = x
  · simp only [hzx, true_or, if_true, ite_self]
  by_cases hzv : z = v
  · simp only [hzv, true_or, or_true, if_true, ite_self]
  simp only [hzx, hzv, false_or, if_false]

/-- The process at the beginning of a round: its entries, the pair at fds[i], and the
number of the next pipe. -/
structure Stage (s : Shell F) (i x y p : ℕ) (T : ℕ → Option (Entry F)) : Prop where
  table : entry s.table = T
  fds : s.fds i = (x, y)
  pipes : s.pipes = p

/-- A round with u and v as the two lowest free descriptors. -/
theorem Stage.round {p : ℕ} {T : ℕ → Option (Entry F)} (hs : Stage s i x y p T) (huv : u < v)
    (hu : T u = none) (hv : T v = none) (hused : ∀ z < v, z ≠ u → T z ≠ none)
    (hx : x = u ∨ x = v ∨ T x ≠ none) (hx1 : 1 < x) (hy1 : 1 < y) (hu1 : 1 < u) :
    Stage ((s.pipe (i + 1)).parent i) (i + 1) u v (p + 1) (fun z =>
      if z = x ∨ z = v ∨ z = y then none else if z = u then some (.readEnd p) else T z) ∧
    ∀ redirectfrom redirectto z, entry ((s.pipe (i + 1)).child i redirectfrom redirectto) z =
      if z = x ∨ z = y ∨ z = u ∨ z = v then none
      else if z = 0 ∧ redirectfrom then
        if x = v then some (.writeEnd p) else if x = u then some (.readEnd p) else T x
      else if z = 1 ∧ redirectto then some (.writeEnd p)
      else T z := by
  obtain ⟨htable, hfds, hpipes⟩ := hs
  subst htable hpipes
  obtain ⟨ht, hf, hp⟩ := pipe_spec (i := i + 1) huv hu hv hused
  have hi : (s.pipe (i + 1)).fds i = (x, y) := by
    rw [hf, Function.update_of_ne (by omega), hfds]
  have hn : (s.pipe (i + 1)).fds (i + 1) = (u, v) := by
    rw [hf, Function.update_self]
  have hentry : ∀ z, entry (s.pipe (i + 1)).table z =
      if z = v then some (.writeEnd s.pipes) else if z = u then some (.readEnd s.pipes)
      else entry s.table z := by
    intro z
    rw [ht, Function.update_apply, Function.update_apply]
  refine ⟨⟨?_, hn, hp⟩, fun redirectfrom redirectto z => ?_⟩
  · funext z
    rw [parent_spec hi hn, hentry]
    split_ifs <;> first | rfl | omega
  · have hx' : entry (s.pipe (i + 1)).table x ≠ none := by
      rw [hentry]
      split_ifs
      · nofun
      · nofun
      · rcases hx with rfl | rfl | hx
        · contradiction
        · contradiction
        · exact hx
    have hv' : entry (s.pipe (i + 1)).table v ≠ none := by
      rw [hentry, if_pos rfl]
      nofun
    rw [child_spec hi hn hx' hv' hx1 hy1 hu1 (hu1.trans huv), hentry x, hentry v, if_pos rfl, hentry z]
    split_ifs <;> first | rfl | omega

/-- The process before round k, from the table t on. -/
def before (t : Table (Entry F)) : ℕ → Shell F
  | 0 => Shell.pipe ⟨t, fun _ => (0, 0), 0⟩ 0
  | k + 1 => ((before t k).pipe (k + 1)).parent k

theorem before_zero (h : Lowest t a b c d) : Stage (before t 0) 0 a b 1 fun z =>
    if z = b then some (.writeEnd 0) else if z = a then some (.readEnd 0) else entry t z := by
  obtain ⟨ht, hf, hp⟩ := pipe_spec (s := ⟨t, fun _ => (0, 0), 0⟩) (i := 0) h.ab (h.free a (by simp))
    (h.free b (by simp)) fun z hz hza => h.used z (by have := h.bc; have := h.cd; omega) hza
      (by omega) (by have := h.bc; omega)
  refine ⟨?_, ?_, hp⟩
  · funext z
    rw [before, ht, Function.update_apply, Function.update_apply]
  · rw [before, hf, Function.update_self]

/-- The first round uses the four lowest descriptors, and leaves the third one open. -/
theorem round_zero (h : Lowest t a b c d) (ha : 2 < a) :
    (Stage (before t 1) 1 c d 2 fun z => if z = c then some (.readEnd 1) else entry t z) ∧
      ∀ redirectto z, entry (((before t 0).pipe 1).child 0 false redirectto) z =
        if z = 1 ∧ redirectto then some (.writeEnd 1) else entry t z := by
  obtain ⟨hab, hbc, hcd, hfree, hused⟩ := h
  obtain ⟨hstage, hchild⟩ := (before_zero ⟨hab, hbc, hcd, hfree, hused⟩).round hcd
    (by simp [hbc.ne', (hab.trans hbc).ne', hfree]) (by
      simp [(hbc.trans hcd).ne', (hab.trans (hbc.trans hcd)).ne', hfree])
    (fun z hz hzc => by
      split_ifs with hzb hza
      · nofun
      · nofun
      · exact hused z hz hza hzb hzc)
    (by simp [hab.ne]) (by omega) (by omega) (by omega)
  refine ⟨⟨hstage.table.trans ?_, hstage.fds, hstage.pipes⟩, fun redirectto z => ?_⟩
  · funext z
    split_ifs <;> first | rfl | omega | exact (hfree z (by tauto)).symm
  · rw [hchild, if_neg (fun h => absurd h.2 Bool.false_ne_true : ¬ (z = 0 ∧ false = true))]
    by_cases hend : z = a ∨ z = b ∨ z = c ∨ z = d
    · rw [if_pos hend, if_neg (by omega), hfree z hend]
    · rw [if_neg hend, if_neg (by tauto : ¬ z = b), if_neg (by tauto : ¬ z = a)]

/-- A round that finds the read end of the pipe in front and no other end open. It
leaves open the read end of its own pipe, unless that has the number of
fds[i][WRITE_END], closed in the round before and now closed again. -/
theorem Stage.steady_round {p q : ℕ}
    (hs : Stage s i x y p fun z => if z = x then some (.readEnd q) else entry t z) (huv : u < v)
    (hfree : ∀ z, z = x ∨ z = y ∨ z = u ∨ z = v → entry t z = none) (hxu : x ≠ u) (hxv : x ≠ v)
    (hused : ∀ z < v, z ≠ u → z ≠ x → entry t z ≠ none) (hx1 : 1 < x) (hy1 : 1 < y) (hu1 : 1 < u) :
    (Stage ((s.pipe (i + 1)).parent i) (i + 1) u v (p + 1) fun z =>
      if z = u ∧ u ≠ y then some (.readEnd p) else entry t z) ∧
      ∀ redirectto z, entry ((s.pipe (i + 1)).child i true redirectto) z =
        if z = 0 then some (.readEnd q)
        else if z = 1 ∧ redirectto then some (.writeEnd p) else entry t z := by
  obtain ⟨hstage, hchild⟩ := hs.round huv (by rw [if_neg hxu.symm]; exact hfree u (by simp))
    (by rw [if_neg hxv.symm]; exact hfree v (by simp))
    (fun z hz hzu => by
      split_ifs with hzx
      · nofun
      · exact hused z hz hzu hzx)
    (by simp) hx1 hy1 hu1
  refine ⟨⟨hstage.table.trans ?_, hstage.fds, hstage.pipes⟩, fun redirectto z => ?_⟩
  · funext z
    by_cases hclosed : z = x ∨ z = v ∨ z = y
    · rw [if_pos hclosed, if_neg (by omega), hfree z (by tauto)]
    · rw [if_neg hclosed, if_neg (by tauto : ¬ z = x)]
      by_cases hzu : z = u
      · rw [if_pos hzu, if_pos ⟨hzu, by rintro rfl; tauto⟩]
      · rw [if_neg hzu, if_neg fun h => hzu h.1]
  · rw [hchild, if_neg hxv, if_neg hxu]
    by_cases hend : z = x ∨ z = y ∨ z = u ∨ z = v
    · rw [if_pos hend, if_neg (by omega), if_neg (by omega), hfree z hend]
    · rw [if_neg hend, if_pos rfl, if_neg (by tauto : ¬ z = x)]
      simp only [and_true]

/-- The second round uses them again, and leaves the first one open. -/
theorem round_one (h : Lowest t a b c d) (ha : 2 < a) :
    (Stage (before t 2) 2 a b 3 fun z => if z = a then some (.readEnd 2) else entry t z) ∧
      ∀ redirectto z, entry (((before t 1).pipe 2).child 1 true redirectto) z =
        if z = 0 then some (.readEnd 1)
        else if z = 1 ∧ redirectto then some (.writeEnd 2) else entry t z := by
  obtain ⟨hab, hbc, hcd, hfree, hused⟩ := h
  obtain ⟨hstage, hchild⟩ := (round_zero ⟨hab, hbc, hcd, hfree, hused⟩ ha).1.steady_round hab
    (fun z hz => hfree z (by tauto)) (by omega) (by omega)
    (fun z hz hza hzc => hused z (by omega) hza (by omega) hzc) (by omega) (by omega) (by omega)
  refine ⟨⟨hstage.table.trans ?_, hstage.fds, hstage.pipes⟩, hchild⟩
  have had : a ≠ d := by omega
  simp only [ne_eq, had, not_false_eq_true, and_true]

/-- The third round closes the read end that it has just made: fds[2][WRITE_END], closed
in the round before, is its number. -/
theorem round_two (h : Lowest t a b c d) (ha : 2 < a) :
    Stage (before t 3) 3 b c 4 (entry t) ∧
      ∀ redirectto z, entry (((before t 2).pipe 3).child 2 true redirectto) z =
        if z = 0 then some (.readEnd 2)
        else if z = 1 ∧ redirectto then some (.writeEnd 3) else entry t z := by
  obtain ⟨hab, hbc, hcd, hfree, hused⟩ := h
  obtain ⟨hstage, hchild⟩ := (round_one ⟨hab, hbc, hcd, hfree, hused⟩ ha).1.steady_round hbc
    (fun z hz => hfree z (by tauto)) (by omega) (by omega)
    (fun z hz hzb hza => hused z (by omega) hza hzb (by omega)) (by omega) (by omega) (by omega)
  refine ⟨⟨hstage.table.trans ?_, hstage.fds, hstage.pipes⟩, hchild⟩
  simp only [ne_eq, not_true_eq_false, and_false, if_false]

/-- The fourth command reads from the write end of the pipe behind it. -/
theorem round_three (h : Lowest t a b c d) (ha : 2 < a) (redirectto : Bool) :
    entry (((before t 3).pipe 4).child 3 true redirectto) 0 = some (.writeEnd 4) := by
  have hused : ∀ z < b, z ≠ a → entry t z ≠ none := by
    intro z hz hza
    exact h.used z (hz.trans (h.bc.trans h.cd)) hza hz.ne (hz.trans h.bc).ne
  have hab := h.ab
  have hbc := h.bc
  obtain ⟨-, hchild⟩ := (round_two h ha).1.round hab (h.free a (by simp)) (h.free b (by simp)) hused
    (Or.inr (Or.inl rfl)) (by omega) (by omega) (by omega)
  rw [hchild, if_neg (by omega), if_pos ⟨rfl, rfl⟩, if_pos rfl]

end Rounds

section Wiring

variable {F C : Type} {t : Table (Entry F)}

theorem executeCommands_eq (t : Table (Entry F)) {cmds : List C} (h : cmds ≠ []) :
    executeCommands t cmds =
      some ((rounds (before t 0) 0 none cmds).1, (rounds (before t 0) 0 none cmds).2) := by
  cases cmds with
  | nil => exact absurd rfl h
  | cons cmd rest => exact congrArg some (Prod.eta (rounds (before t 0) 0 none (cmd :: rest))).symm

theorem rounds_nil (k : ℕ) (previous : Option C) :
    rounds (before t k) k previous [] = ([], (before t k).table) := rfl

theorem rounds_cons (k : ℕ) (previous : Option C) (cmd : C) (rest : List C) :
    rounds (before t k) k previous (cmd :: rest) =
      ((cmd, ((before t k).pipe (k + 1)).child k previous.isSome rest.head?.isSome) ::
        (rounds (before t (k + 1)) (k + 1) (some cmd) rest).1,
        (rounds (before t (k + 1)) (k + 1) (some cmd) rest).2) := rfl

/-- Children that have the read end of the pipe in front of them as standard input, and
the write end of the one behind as standard output, and nothing else, are wired. -/
theorem wired_of_entries {children : List (C × Table (Entry F))} {parent : Table (Entry F)}
    (hfiles : ∀ d p, entry t d ≠ some (.writeEnd p))
    (hparent : ∀ d p, entry parent d ≠ some (.writeEnd p))
    (hchildren : ∀ (k : ℕ) c, children[k]? = some c → ∀ z, entry c.2 z =
      if z = 0 ∧ 0 < k then some (.readEnd k)
      else if z = 1 ∧ k + 1 < children.length then some (.writeEnd (k + 1)) else entry t z) :
    Wired t children parent := by
  refine ⟨fun k c c' hc hc' => ?_, fun c hc => ?_, fun c hc => ?_, fun k c p hc hk hp => ?_⟩
  · have hlt := (List.getElem?_eq_some_iff.mp hc').1
    refine ⟨k + 1, ?_, ?_⟩
    · rw [hchildren k c hc, if_neg (by omega), if_pos ⟨rfl, hlt⟩]
    · rw [hchildren (k + 1) c' hc', if_pos ⟨rfl, by omega⟩]
  · rw [hchildren 0 c (List.head?_eq_getElem? ▸ hc), if_neg (by omega), if_neg (by omega)]
  · rw [List.getLast?_eq_getElem?] at hc
    have hlt := (List.getElem?_eq_some_iff.mp hc).1
    rw [hchildren _ c hc, if_neg (by omega), if_neg (by omega)]
  · rw [hchildren k c hc, if_neg (by omega), if_pos ⟨rfl, hk⟩, Option.some.injEq,
      Entry.writeEnd.injEq] at hp
    subst hp
    refine ⟨fun d => hparent d _, fun j c' d hc' hd => ?_⟩
    rw [hchildren j c' hc'] at hd
    split_ifs at hd with h0 h1
    · cases hd
    · rw [Option.some.injEq, Entry.writeEnd.injEq] at hd
      exact ⟨by omega, h1.1⟩
    · exact absurd hd (hfiles d _)

/-- From four commands on the fourth one does not read what the third one writes. -/
theorem not_wired {a b c d : ℕ} (h : Lowest t a b c d) (ha : 2 < a) (c₁ c₂ c₃ c₄ : C)
    (rest : List C) : ¬ Wired t (rounds (before t 0) 0 none (c₁ :: c₂ :: c₃ :: c₄ :: rest)).1
      (rounds (before t 0) 0 none (c₁ :: c₂ :: c₃ :: c₄ :: rest)).2 := by
  intro hwired
  simp only [rounds_cons] at hwired
  obtain ⟨p, -, hp⟩ := hwired.linked 2 _ _ rfl rfl
  have hread : entry (((before t 3).pipe 4).child 3 true rest.head?.isSome) 0 = some (.readEnd p) := hp
  rw [round_three h ha] at hread
  cases hread

/-- With descriptors 0, 1 and 2 open, pipelines of up to three commands are wired, and
no others are. -/
theorem wired_iff (hstd : ∀ d < 3, entry t d ≠ none)
    (hfiles : ∀ d e, entry t d = some e → ∃ f, e = .file f) {cmds : List C} (hcmds : cmds ≠ []) :
    ∃ children parent, executeCommands t cmds = some (children, parent) ∧
      (Wired t children parent ↔ cmds.length ≤ 3) := by
  obtain ⟨a, b, c, d, h⟩ := exists_lowest t
  have ha : 2 < a := by
    by_contra hle
    exact hstd a (by omega) (h.free a (by simp))
  have hwrite : ∀ d p, entry t d ≠ some (.writeEnd p) := by
    intro d p hd
    obtain ⟨f, hf⟩ := hfiles d _ hd
    cases hf
  have hopen : ∀ x q d p, (if d = x then some (.readEnd q) else entry t d) ≠ some (.writeEnd p) := by
    intro x q d p
    split
    · nofun
    · exact hwrite d p
  obtain ⟨hstage₁, hchild₀⟩ := round_zero h ha
  obtain ⟨hstage₂, hchild₁⟩ := round_one h ha
  obtain ⟨hstage₃, hchild₂⟩ := round_two h ha
  refine ⟨_, _, executeCommands_eq t hcmds, ?_⟩
  obtain - | ⟨c₁, - | ⟨c₂, - | ⟨c₃, - | ⟨c₄, rest⟩⟩⟩⟩ := cmds
  · exact absurd rfl hcmds
  · refine iff_of_true (wired_of_entries hwrite (fun d p => ?_) fun k c hc z => ?_) (by simp)
    · simp only [rounds_cons, rounds_nil, hstage₁.table]
      exact hopen c 1 d p
    · simp only [rounds_cons, rounds_nil] at hc ⊢
      obtain - | k := k
      · obtain rfl := Option.some.inj hc
        simp [hchild₀]
      · cases hc
  · refine iff_of_true (wired_of_entries hwrite (fun d p => ?_) fun k c hc z => ?_) (by simp)
    · simp only [rounds_cons, rounds_nil, hstage₂.table]
      exact hopen a 2 d p
    · simp only [rounds_cons, rounds_nil] at hc ⊢
      obtain - | - | k := k
      · obtain rfl := Option.some.inj hc
        simp [hchild₀]
      · obtain rfl := Option.some.inj hc
        simp [hchild₁]
      · cases hc
  · refine iff_of_true (wired_of_entries hwrite (fun d p => ?_) fun k c hc z => ?_) (by simp)
    · simp only [rounds_cons, rounds_nil, hstage₃.table]
      exact hwrite d p
    · simp only [rounds_cons, rounds_nil] at hc ⊢
      obtain - | - | - | k := k
      · obtain rfl := Option.some.inj hc
        simp [hchild₀]
      · obtain rfl := Option.some.inj hc
        simp [hchild₁]
      · obtain rfl := Option.some.inj hc
        simp [hchild₂]
      · cases hc
  · exact iff_of_false (not_wired h ha c₁ c₂ c₃ c₄ rest) (by simp)

end Wiring

def standard : Table (Entry ℕ) := [some (.file 0), some (.file 1), some (.file 2)]

theorem wired_three : ∃ children parent,
    executeCommands standard ["cat", "sort", "less"] = some (children, parent) ∧
      Wired standard children parent := by
  have hfiles : ∀ d e, entry standard d = some e → ∃ f, e = .file f := by
    intro d e he
    obtain - | - | - | d := d
    · exact ⟨0, (Option.some.inj he).symm⟩
    · exact ⟨1, (Option.some.inj he).symm⟩
    · exact ⟨2, (Option.some.inj he).symm⟩
    · cases he
  have hcmds : ["cat", "sort", "less"] ≠ [] := by decide
  obtain ⟨children, parent, hrun, hiff⟩ := wired_iff (by decide) hfiles hcmds
  exact ⟨children, parent, hrun, hiff.mpr (by decide)⟩

theorem wired_four : ∃ children parent,
    executeCommands standard ["cat", "grep", "sort", "less"] = some (children, parent) ∧
      (children[3]?.map fun c => entry c.2 0) = some (some (.writeEnd 4)) ∧
      ¬ Wired standard children parent := by
  have h : Lowest standard 3 4 5 6 := by
    refine ⟨by decide, by decide, by decide, ?_, by decide⟩
    rintro x (rfl | rfl | rfl | rfl) <;> rfl
  refine ⟨_, _, executeCommands_eq standard (by decide), by decide, ?_⟩
  exact not_wired h (by decide) "cat" "grep" "sort" "less" []

end SystemSoftware.PipelineWiring
