import SystemSoftware.JobTable

/-!
How fg, bg and kill take their argument for a job. The number behind the first
character is the index of the job; where it is no number as `%d` prints it the index is
-1, and 0 asks for the job with the argument as its command line, for which -1 again
means none. The commands look only at the entry of jobs_list with that index, whatever
the index is.
-/
namespace SystemSoftware.JobDesignators

open DecimalText JobTable

abbrev percent : UInt8 := 37

inductive Signal
  | cont
  | usr1
  | usr2
  deriving DecidableEq

/-- What is done with the job; `stopped` tells whether it stops again in the foreground. -/
inductive Action
  | fg (stopped : Bool)
  | bg
  | kill

namespace Action

def op : Action → ℕ → Op
  | fg stopped, index => .fg index stopped
  | bg, index => .bg index
  | kill, index => .killJob index

def signals : Action → List Signal
  | fg _ | bg => [.cont, .usr1]
  | kill => [.usr2]

/-- What is printed about the job. One that stops again gets the entry at jobs_rear. -/
def output (s : State) (index : ℕ) (cmdline : Text) : Action → Text
  | fg stopped => ascii "Resumed [" ++ printNat index ++ ascii "] " ++ cmdline ++
      if stopped then ascii "[" ++ printNat s.jobsRear ++ ascii "] Stopped " ++ cmdline else []
  | bg => ascii "[" ++ printNat index ++ ascii "] " ++ cmdline
  | kill => []

end Action

/-- What a call has done: the indices of jobs_list at which it has looked, its messages
on stderr, the entry of the job it has acted on, the signals with their process groups,
its output and the table. -/
structure Report where
  indices : List ℤ
  errors : List Text
  acted : Option ℕ
  signals : List (ℕ × Signal)
  output : Text
  state : State

def refuse (s : State) (indices : List ℤ) (errors : List Text) : Report :=
  ⟨indices, errors, none, [], [], s⟩

def jobIndexParser (arg : Text) : ℤ :=
  let index := atoi arg
  if printInt index = arg then index.toInt else -1

/-- The loop of `find_job_by_command` over some entries: the index and the entries that
are looked at. -/
def findByCommand (s : State) (arg : Text) : List ℕ → Option (ℤ × List ℤ)
  | [] => some (-1, [])
  | i :: is =>
    match s.jobsList i with
    | none => (findByCommand s arg is).map fun x => (x.1, (i : ℤ) :: x.2)
    | some p => do
      let job ← s.heap p
      if arg = job.cmdline then some ((i : ℤ), [(i : ℤ)])
      else (findByCommand s arg is).map fun x => (x.1, (i : ℤ) :: x.2)

def findJobByCommand (s : State) (arg : Text) : Option (ℤ × List ℤ) :=
  findByCommand s arg (List.range s.jobsRear)

def usage (name : Text) : Text := ascii "Usage : " ++ name ++ ascii " %<job spec>"

/-- The index for an argument of a first character and a rest, the entries looked at on
the way and the messages. -/
def findIndex (s : State) (name : Text) (c : UInt8) (rest : Text) :
    Option (ℤ × List ℤ × List Text) :=
  let index := jobIndexParser rest
  if index = 0 then (findJobByCommand s (c :: rest)).map fun x => (x.1, x.2, [])
  else some (index, [], if c ≠ percent then [usage name] else [])

def entryAt (s : State) (index : ℤ) : Option (Option ℕ) :=
  if 0 ≤ index then some (s.jobsList index.toNat) else none

def operate (action : Action) (argv : List Text) (s : State) : Option Report := do
  let name ← argv.head?
  match argv[1]? with
  | none => some (refuse s [] [usage name ++ [newline]])
  | some [] => none
  | some [_] => some (refuse s [] [usage name ++ [newline]])
  | some (c :: rest) => do
    let (index, indices, errors) ← findIndex s name c rest
    let entry ← entryAt s index
    match entry with
    | none => some (refuse s (indices ++ [index]) (errors ++ [ascii "No Such job\n"]))
    | some p => do
      let job ← s.heap p
      if job.state = .terminated then
        some (refuse s (indices ++ [index])
          (errors ++ [ascii "[" ++ printNat index.toNat ++ ascii "] Already Terminated job\n"]))
      else do
        let s' ← exec s (action.op index.toNat)
        some ⟨indices ++ [index], errors, some index.toNat,
          action.signals.map fun signal => (job.pgid, signal),
          action.output s index.toNat job.cmdline, s'⟩

def fg (argv : List Text) (stopped : Bool) (s : State) : Option Report :=
  operate (.fg stopped) argv s

def bg (argv : List Text) (s : State) : Option Report := operate .bg argv s

def killJob (argv : List Text) (s : State) : Option Report := operate .kill argv s

/-- The argument denotes the entry, by its number behind a percent sign or by the command
line of its job. -/
def Denotes (s : State) (arg : Text) (i : ℕ) : Prop :=
  arg = percent :: printNat i ∨ ∃ x, s.deref i = some x ∧ x.2.cmdline = arg

structure ActsOn (action : Action) (s : State) (r : Report) (i : ℕ) : Prop where
  acted : r.acted = some i
  signals : ∃ x, s.deref i = some x ∧
    r.signals = action.signals.map fun signal => (x.2.pgid, signal)
  state : exec s (action.op i) = some r.state

structure Refuses (s : State) (r : Report) : Prop where
  message : r.errors ≠ []
  acted : r.acted = none
  signals : r.signals = []
  state : r.state = s

/-- The call looks only at entries of the table, and acts on one that the argument
denotes or refuses. -/
def Checked (action : Action) (s : State) (arg : Text) (result : Option Report) : Prop :=
  ∃ r, result = some r ∧ (∀ i ∈ r.indices, (s.jobsFront : ℤ) ≤ i ∧ i < s.jobsRear) ∧
    ((∃ i, s.jobsFront ≤ i ∧ i < s.jobsRear ∧ Denotes s arg i ∧ ActsOn action s r i) ∨
      Refuses s r)

/-- The rest of the argument is the number of an entry, and the first character a percent
sign unless the job has terminated or has that command line; or the rest is 0, the table
begins with entry 0 and has a job with that command line. -/
def Designates (s : State) (c : UInt8) (rest : Text) : Prop :=
  (∃ k x, rest = printNat k ∧ 0 < k ∧ k < 2 ^ 31 ∧ s.jobsFront ≤ k ∧ k < s.jobsRear ∧
    s.deref k = some x ∧ (c = percent ∨ x.2.state = .terminated ∨ x.2.cmdline = c :: rest)) ∨
  (rest = printNat 0 ∧ s.jobsFront = 0 ∧ ∃ i < s.jobsRear, ∃ x, s.deref i = some x ∧
    x.2.cmdline = c :: rest)

section Index

variable {s : State} {arg : Text} {i k : ℕ} {index : ℤ} {read : List ℤ}

theorem deref_eq_some {x : ℕ × Job} :
    s.deref i = some x ↔ s.jobsList i = some x.1 ∧ s.heap x.1 = some x.2 := by
  obtain ⟨p, job⟩ := x
  simp only [State.deref, Option.bind_eq_bind, Option.bind_eq_some_iff]
  constructor
  · rintro ⟨p', hentry, job', hjob, heq⟩
    obtain ⟨rfl, rfl⟩ := Prod.mk.inj (Option.some.inj heq)
    exact ⟨hentry, hjob⟩
  · rintro ⟨hentry, hjob⟩
    exact ⟨p, hentry, job, hjob, rfl⟩

theorem jobIndexParser_printInt (x : Int32) : jobIndexParser (printInt x) = x.toInt := by
  rw [jobIndexParser, atoi_printInt, if_pos rfl]

theorem printInt_ofNat (hk : k < 2 ^ 31) : printInt (Int32.ofInt k) = printNat k ∧
    (Int32.ofInt k).toInt = k := by
  have hint : (Int32.ofInt k).toInt = k := Int32.toInt_ofInt_of_le (by omega) (by omega)
  rw [printInt, hint, if_neg (by omega), Int.natAbs_natCast]
  exact ⟨rfl, rfl⟩

theorem jobIndexParser_printNat (hk : k < 2 ^ 31) : jobIndexParser (printNat k) = k := by
  obtain ⟨hprint, hint⟩ := printInt_ofNat hk
  rw [← hprint, jobIndexParser_printInt, hint]

/-- A number that is not negative is only taken from its own digits. -/
theorem of_jobIndexParser (h : jobIndexParser arg = k) : arg = printNat k ∧ k < 2 ^ 31 := by
  rw [jobIndexParser] at h
  by_cases hprint : printInt (atoi arg) = arg
  · have hlt := (atoi arg).toInt_lt
    simp only [if_pos hprint] at h
    rw [printInt, if_neg (by omega), h, Int.natAbs_natCast] at hprint
    exact ⟨hprint.symm, by omega⟩
  · simp only [if_neg hprint] at h
    omega

/-- A search that looks at an entry looks at the first one, and the entry that it finds
has a job with that command line. -/
theorem findByCommand_sound {is : List ℕ} (h : findByCommand s arg is = some (index, read))
    (hindex : 0 ≤ index) : read.head? = is.head?.map Int.ofNat ∧
      ∃ i ∈ is, index = i ∧ ∃ x, s.deref i = some x ∧ x.2.cmdline = arg := by
  induction is generalizing read with
  | nil =>
    obtain ⟨rfl, rfl⟩ := Prod.mk.inj (Option.some.inj h)
    omega
  | cons i is ih =>
    have hlater : ∀ {x : ℤ × List ℤ}, findByCommand s arg is = some x →
        (x.1, (i : ℤ) :: x.2) = (index, read) → read.head? = (i :: is).head?.map Int.ofNat ∧
          ∃ j ∈ i :: is, index = j ∧ ∃ x, s.deref j = some x ∧ x.2.cmdline = arg := by
      intro x hx heq
      obtain ⟨rfl, rfl⟩ := Prod.mk.inj heq
      obtain ⟨-, j, hj, hfound⟩ := ih hx
      exact ⟨rfl, j, List.mem_cons_of_mem i hj, hfound⟩
    rw [findByCommand] at h
    cases hentry : s.jobsList i with
    | none =>
      rw [hentry] at h
      obtain ⟨x, hx, heq⟩ := Option.map_eq_some_iff.mp h
      exact hlater hx heq
    | some p =>
      rw [hentry] at h
      obtain ⟨job, hjob, h⟩ := Option.bind_eq_some_iff.mp h
      by_cases hcommand : arg = job.cmdline
      · rw [if_pos hcommand] at h
        obtain ⟨rfl, rfl⟩ := Prod.mk.inj (Option.some.inj h)
        exact ⟨rfl, i, List.mem_cons_self, rfl, (p, job), deref_eq_some.mpr ⟨hentry, hjob⟩,
          hcommand.symm⟩
      · rw [if_neg hcommand] at h
        obtain ⟨x, hx, heq⟩ := Option.map_eq_some_iff.mp h
        exact hlater hx heq

/-- Among live jobs one of which has the command line, one is found. -/
theorem findByCommand_complete {is : List ℕ} (hlive : ∀ i ∈ is, live s i = true)
    (h : ∃ i ∈ is, ∃ x, s.deref i = some x ∧ x.2.cmdline = arg) :
    ∃ i ∈ is, ∃ read, findByCommand s arg is = some ((i : ℤ), read) ∧
      ∀ j ∈ read, ∃ j' ∈ is, j = (j' : ℤ) := by
  induction is with
  | nil =>
    obtain ⟨i, hi, -⟩ := h
    cases hi
  | cons i is ih =>
    rw [List.forall_mem_cons] at hlive
    obtain ⟨⟨p, job⟩, hderef⟩ := Option.isSome_iff_exists.mp hlive.1
    obtain ⟨hentry, hjob⟩ := deref_eq_some.mp hderef
    rw [findByCommand, hentry]
    simp only [hjob, Option.bind_eq_bind, Option.bind_some]
    by_cases hcommand : arg = job.cmdline
    · rw [if_pos hcommand]
      refine ⟨i, List.mem_cons_self, [(i : ℤ)], rfl, fun j hj => ⟨i, List.mem_cons_self, ?_⟩⟩
      exact List.mem_singleton.mp hj
    · rw [if_neg hcommand]
      obtain ⟨j, hj, x, hx, hfound⟩ := h
      have hne : j ≠ i := by
        rintro rfl
        rw [hderef] at hx
        obtain rfl := Option.some.inj hx
        exact hcommand hfound.symm
      have hlater : j ∈ is := (List.mem_cons.mp hj).resolve_left hne
      obtain ⟨k, hk, read, hread, hall⟩ := ih hlive.2 ⟨j, hlater, x, hx, hfound⟩
      refine ⟨k, List.mem_cons_of_mem i hk, (i : ℤ) :: read, by rw [hread]; rfl, ?_⟩
      rw [List.forall_mem_cons]
      refine ⟨⟨i, List.mem_cons_self, rfl⟩, fun e he => ?_⟩
      obtain ⟨e', he', heq⟩ := hall e he
      exact ⟨e', List.mem_cons_of_mem i he', heq⟩

end Index

section Operate

variable {s : State} {action : Action} {name rest : Text} {more : List Text} {c : UInt8} {k : ℕ}
  {indices : List ℤ} {errors : List Text} {x : ℕ × Job}

/-- With an index of its own the call looks at that entry, and the entry exists. -/
theorem operate_some {r : Report} (hrest : rest ≠ [])
    (h : operate action (name :: (c :: rest) :: more) s = some r) :
    ∃ index indices errors, findIndex s name c rest = some (index, indices, errors) ∧
      0 ≤ index ∧ r.indices = indices ++ [index] := by
  obtain ⟨d, rest, rfl⟩ := List.exists_cons_of_ne_nil hrest
  simp only [operate, List.head?_cons, List.getElem?_cons_succ, List.getElem?_cons_zero,
    Option.bind_eq_bind, Option.bind_some] at h
  obtain ⟨⟨index, indices, errors⟩, hfind, h⟩ := Option.bind_eq_some_iff.mp h
  obtain ⟨entry, hentry, h⟩ := Option.bind_eq_some_iff.mp h
  have hindex : 0 ≤ index := by
    by_contra hneg
    rw [entryAt, if_neg hneg] at hentry
    cases hentry
  refine ⟨index, indices, errors, hfind, hindex, ?_⟩
  cases entry with
  | none => exact Option.some.inj h ▸ rfl
  | some p =>
    obtain ⟨job, -, h⟩ := Option.bind_eq_some_iff.mp h
    split at h
    · exact Option.some.inj h ▸ rfl
    · obtain ⟨s', -, h⟩ := Option.bind_eq_some_iff.mp h
      exact Option.some.inj h ▸ rfl

/-- The three operations on a live job that has not terminated. -/
theorem exec_live (action : Action) (hderef : s.deref k = some x)
    (hstate : x.2.state ≠ .terminated) : ∃ s', exec s (action.op k) = some s' := by
  cases action with
  | fg stopped =>
    simp only [Action.op, exec, JobTable.fg, hderef, Option.bind_eq_bind, Option.bind_some,
      if_neg hstate]
    exact ⟨_, rfl⟩
  | bg | kill =>
    simp only [Action.op, exec, JobTable.bg, JobTable.killJob, mark, hderef, Option.bind_eq_bind,
      Option.bind_some, if_neg hstate]
    exact ⟨_, rfl⟩

/-- A live job is acted on unless it has terminated. -/
theorem operate_live (action : Action) (more : List Text) (hrest : rest ≠ [])
    (hfind : findIndex s name c rest = some ((k : ℤ), indices, errors))
    (hderef : s.deref k = some x) : ∃ r, operate action (name :: (c :: rest) :: more) s = some r ∧
      r.indices = indices ++ [(k : ℤ)] ∧ (x.2.state = .terminated → Refuses s r) ∧
      (x.2.state ≠ .terminated → ActsOn action s r k) := by
  obtain ⟨d, rest, rfl⟩ := List.exists_cons_of_ne_nil hrest
  obtain ⟨p, job⟩ := x
  obtain ⟨hentry, hjob⟩ := deref_eq_some.mp hderef
  have hat : entryAt s k = some (some p) := by
    rw [entryAt, if_pos (Int.natCast_nonneg k), Int.toNat_natCast, hentry]
  simp only [operate, List.head?_cons, List.getElem?_cons_succ, List.getElem?_cons_zero, hfind, hat,
    hjob, Option.bind_eq_bind, Option.bind_some, Int.toNat_natCast]
  by_cases hstate : job.state = .terminated
  · rw [if_pos hstate]
    exact ⟨_, rfl, rfl, fun _ => ⟨by simp [refuse], rfl, rfl, rfl⟩, fun hne => absurd hstate hne⟩
  · obtain ⟨s', hs'⟩ := exec_live action hderef hstate
    rw [if_neg hstate, hs', Option.bind_some]
    exact ⟨_, rfl, rfl, fun heq => absurd heq hstate, fun _ => ⟨rfl, ⟨_, hderef, rfl⟩, hs'⟩⟩

theorem findIndex_zero (s : State) (name : Text) (c : UInt8) (h : jobIndexParser rest = 0) :
    findIndex s name c rest = (findJobByCommand s (c :: rest)).map fun x => (x.1, x.2, []) := by
  rw [findIndex, h]
  exact if_pos rfl

theorem findIndex_nonzero (s : State) (name : Text) (c : UInt8) (h : jobIndexParser rest ≠ 0) :
    findIndex s name c rest =
      some (jobIndexParser rest, [], if c ≠ percent then [usage name] else []) := by
  rw [findIndex]
  exact if_neg h

/-- With an entry of the table that the argument denotes the call is checked. -/
theorem checked_at (action : Action) (more : List Text) (hrest : rest ≠ [])
    (hfind : findIndex s name c rest = some ((k : ℤ), indices, errors))
    (hindices : ∀ i ∈ indices, (s.jobsFront : ℤ) ≤ i ∧ i < s.jobsRear) (hfront : s.jobsFront ≤ k)
    (hrear : k < s.jobsRear) (hderef : s.deref k = some x)
    (hdenotes : x.2.state = .terminated ∨ Denotes s (c :: rest) k) :
    Checked action s (c :: rest) (operate action (name :: (c :: rest) :: more) s) := by
  obtain ⟨r, hr, hread, hrefuses, hacts⟩ := operate_live action more hrest hfind hderef
  refine ⟨r, hr, fun i hi => ?_, ?_⟩
  · rw [hread] at hi
    rcases List.mem_append.mp hi with hi | hi
    · exact hindices i hi
    · rw [List.mem_singleton] at hi
      omega
  · by_cases hstate : x.2.state = .terminated
    · exact Or.inr (hrefuses hstate)
    · exact Or.inl ⟨k, hfront, hrear, hdenotes.resolve_left hstate, hacts hstate⟩

/-- A call that is checked has acted on the entry only if the argument denotes it. -/
theorem denotes_of_checked {r : Report} (hrest : rest ≠ [])
    (hr : operate action (name :: (c :: rest) :: more) s = some r)
    (hfind : findIndex s name c rest = some ((k : ℤ), indices, errors))
    (hderef : s.deref k = some x)
    (hdone : (∃ i, s.jobsFront ≤ i ∧ i < s.jobsRear ∧ Denotes s (c :: rest) i ∧
      ActsOn action s r i) ∨ Refuses s r) :
    c = percent ∨ x.2.state = .terminated ∨ x.2.cmdline = c :: rest := by
  by_cases hstate : x.2.state = .terminated
  · exact Or.inr (Or.inl hstate)
  obtain ⟨r', hr', -, -, hacts⟩ := operate_live action more hrest hfind hderef
  obtain rfl := Option.some.inj (hr.symm.trans hr')
  obtain ⟨i, -, -, hdenotes, hacts'⟩ | hrefuses := hdone
  · obtain rfl : k = i := Option.some.inj ((hacts hstate).acted.symm.trans hacts'.acted)
    obtain heq | ⟨x', hderef', hcommand⟩ := hdenotes
    · exact Or.inl (List.cons.inj heq).1
    · obtain rfl := Option.some.inj (hderef.symm.trans hderef')
      exact Or.inr (Or.inr hcommand)
  · cases (hacts hstate).acted.symm.trans hrefuses.acted

/-- The call is checked exactly when the argument designates an entry of the table. -/
theorem operate_checked_iff (action : Action) (name : Text) (more : List Text)
    (hlive : ∀ i, s.jobsFront ≤ i → i < s.jobsRear → live s i = true) (hrest : rest ≠ []) :
    Checked action s (c :: rest) (operate action (name :: (c :: rest) :: more) s) ↔
      Designates s c rest := by
  constructor
  · rintro ⟨r, hr, hrange, hdone⟩
    obtain ⟨index, indices, errors, hfind, hindex, hindices⟩ := operate_some hrest hr
    obtain ⟨k, rfl⟩ := Int.eq_ofNat_of_zero_le hindex
    have hk := hrange k (by rw [hindices]; simp)
    obtain ⟨x, hderef⟩ := Option.isSome_iff_exists.mp (hlive k (by omega) (by omega))
    by_cases hzero : jobIndexParser rest = 0
    · right
      rw [findIndex_zero s name c hzero] at hfind
      obtain ⟨⟨index, read⟩, hfound, heq⟩ := Option.map_eq_some_iff.mp hfind
      obtain ⟨rfl, hread⟩ := Prod.mk.inj heq
      obtain ⟨hhead, i, hi, hindex', hjob⟩ := findByCommand_sound hfound hindex
      obtain rfl : k = i := Int.ofNat_inj.mp hindex'
      have hpos := List.mem_range.mp hi
      -- The search has looked at entry 0.
      have hfirst : (0 : ℤ) ∈ r.indices := by
        obtain ⟨n, hn⟩ := Nat.exists_eq_succ_of_ne_zero (Nat.ne_of_gt (Nat.zero_lt_of_lt hpos))
        rw [hn, List.range_succ_eq_map] at hhead
        rw [hindices, ← (Prod.mk.inj hread).1]
        exact List.mem_append_left _ (List.mem_of_mem_head? hhead)
      have hfront := hrange 0 hfirst
      exact ⟨(of_jobIndexParser (k := 0) hzero).1, by omega, k, hpos, hjob⟩
    · left
      have hdenotes := denotes_of_checked hrest hr hfind hderef hdone
      rw [findIndex_nonzero s name c hzero] at hfind
      have hown : jobIndexParser rest = k := (Prod.mk.inj (Option.some.inj hfind)).1
      obtain ⟨hprint, hlt⟩ := of_jobIndexParser hown
      exact ⟨k, x, hprint, by omega, hlt, by omega, by omega, hderef, hdenotes⟩
  · rintro (⟨k, x, rfl, hpos, hlt, hfront, hrear, hderef, hdenotes⟩ | ⟨rfl, hfront, i, hi, x, hx⟩)
    · have hindex := jobIndexParser_printNat hlt
      have hfind := findIndex_nonzero s name c (by omega : jobIndexParser (printNat k) ≠ 0)
      rw [hindex] at hfind
      refine checked_at action more hrest hfind nofun hfront hrear hderef ?_
      obtain rfl | hdead | hcommand := hdenotes
      · exact Or.inr (Or.inl rfl)
      · exact Or.inl hdead
      · exact Or.inr (Or.inr ⟨x, hderef, hcommand⟩)
    · have hall : ∀ i ∈ List.range s.jobsRear, live s i = true := fun i hi =>
        hlive i (by omega) (List.mem_range.mp hi)
      obtain ⟨k, hk, read, hread, hrange⟩ :=
        findByCommand_complete hall ⟨i, List.mem_range.mpr hi, x, hx⟩
      obtain ⟨-, k', -, hkk, x', hderef, hcommand⟩ :=
        findByCommand_sound hread (Int.natCast_nonneg k)
      obtain rfl : k = k' := Int.ofNat_inj.mp hkk
      have hfind := findIndex_zero s name c (jobIndexParser_printNat (k := 0) (by norm_num))
      rw [findJobByCommand, hread, Option.map_some] at hfind
      refine checked_at action more hrest hfind (fun j hj => ?_) (by omega) (List.mem_range.mp hk)
        hderef (Or.inr (Or.inr ⟨x', hderef, hcommand⟩))
      obtain ⟨j', hj', rfl⟩ := hrange j hj
      have hlt := List.mem_range.mp hj'
      omega

end Operate

/-- fg, bg and kill act on the entry that the argument denotes, or refuse, without looking
elsewhere, exactly when the argument designates an entry of the table. -/
theorem designators_checked_iff {s : State} {c : UInt8} {rest : Text}
    (hlive : ∀ i, s.jobsFront ≤ i → i < s.jobsRear → live s i = true) (hrest : rest ≠ [])
    (name : Text) (more : List Text) (stopped : Bool) :
    (Checked (.fg stopped) s (c :: rest) (fg (name :: (c :: rest) :: more) stopped s) ↔
      Designates s c rest) ∧
    (Checked .bg s (c :: rest) (bg (name :: (c :: rest) :: more) s) ↔ Designates s c rest) ∧
    (Checked .kill s (c :: rest) (killJob (name :: (c :: rest) :: more) s) ↔ Designates s c rest) :=
  ⟨operate_checked_iff _ name more hlive hrest, operate_checked_iff _ name more hlive hrest,
    operate_checked_iff _ name more hlive hrest⟩

def oneJob : State := insertJobs initial ⟨7, .running, ascii "sleep 9\n"⟩

theorem oneJob_live (i : ℕ) (hfront : oneJob.jobsFront ≤ i) (hrear : i < oneJob.jobsRear) :
    live oneJob i = true := by
  have hone : oneJob.jobsFront = 1 ∧ oneJob.jobsRear = 2 := ⟨rfl, rfl⟩
  obtain rfl : i = 1 := by omega
  rfl

theorem designators_checked_one :
    Checked .kill oneJob (ascii "%1") (killJob [ascii "kill", ascii "%1"] oneJob) := by
  refine (designators_checked_iff (c := percent) oneJob_live (by decide : ascii "1" ≠ [])
    (ascii "kill") [] false).2.2.mpr (Or.inl ?_)
  exact ⟨1, (0, ⟨7, .running, ascii "sleep 9\n"⟩), by decide, by norm_num, by norm_num, le_rfl,
    by decide, rfl, Or.inl rfl⟩

/-- An argument that is no number asks for the entry in front of the array, and one of
another first character kills the job of its number. -/
theorem designators_unchecked : (∀ i, oneJob.jobsFront ≤ i → i < oneJob.jobsRear →
      live oneJob i = true) ∧
    ¬ Checked .kill oneJob (ascii "%x") (killJob [ascii "kill", ascii "%x"] oneJob) ∧
    ¬ Checked .kill oneJob (ascii "x1") (killJob [ascii "kill", ascii "x1"] oneJob) := by
  refine ⟨oneJob_live, ?_, ?_⟩
  · rintro ⟨r, hr, -⟩
    have hindex : jobIndexParser (ascii "x") = -1 := by decide
    obtain ⟨index, indices, errors, hfind, hpos, -⟩ :=
      operate_some (c := percent) (by decide : ascii "x" ≠ []) hr
    rw [findIndex_nonzero _ _ _ (by rw [hindex]; decide), hindex] at hfind
    rw [← (Prod.mk.inj (Option.some.inj hfind)).1] at hpos
    exact absurd hpos (by decide)
  · rintro ⟨r, hr, -, hdone⟩
    have hindex : jobIndexParser (ascii "1") = 1 := by decide
    have hfind := findIndex_nonzero oneJob (ascii "kill") 120 (by rw [hindex]; decide)
    rw [hindex] at hfind
    have hderef : oneJob.deref 1 = some (0, ⟨7, .running, ascii "sleep 9\n"⟩) := rfl
    have hdenotes := denotes_of_checked (k := 1) (by decide) hr hfind hderef hdone
    exact absurd hdenotes (by decide)

end SystemSoftware.JobDesignators
