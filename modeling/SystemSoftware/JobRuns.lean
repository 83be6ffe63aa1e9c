import SystemSoftware.JobTable
import Mathlib.Data.List.GetD
import Mathlib.Data.List.Nodup
import Mathlib.Data.List.Perm.Subperm

/-!
Runs of the job operations. A freed job keeps its place in the window of the table,
so that going through the window follows its pointer. As long as the loops only
meet live jobs, the numbers of the jobs, their places, and the counter agree, and
each job is freed and reported once.
-/
namespace SystemSoftware.JobRuns

open DecimalText Transitions JobTable

/-- The jobs and the table: job number p stands behind jobs_list[p + 1]. -/
structure Consistent (s : State) : Prop where
  front : s.jobsFront = 1
  rear : s.jobsRear = s.inserted + 1
  room : s.inserted < maxJobs
  listed : ∀ p < s.inserted, s.jobsList (p + 1) = some p
  heap : ∀ p, (s.heap p).isSome = true ↔ p < s.inserted ∧ p ∉ s.freed
  freed_lt : ∀ p ∈ s.freed, p < s.inserted
  freed : s.freed.Nodup
  reported_freed : ∀ p ∈ s.reported, p ∈ s.freed
  reported : s.reported.Nodup
  count : s.jobsN = s.inserted - s.freed.length

/-- jobs_done holds from place i on the numbers of some jobs that have terminated. -/
structure Done (s : State) (i : ℕ) (ds : List ℕ) : Prop where
  places : s.jobsDone = fun j => if j < i then 0 else ds.getD (j - i) 0
  nodup : ds.Nodup
  terminated : ∀ d ∈ ds, ∃ p job, d = p + 1 ∧ s.heap p = some job ∧ job.state = .terminated

structure Invariant (s : State) : Prop where
  consistent : Consistent s
  done : ∃ ds, Done s 0 ds

section Places

variable {s : State} {i p d : ℕ} {job : Job} {ds : List ℕ}

theorem Consistent.lt_of_heap (hs : Consistent s) (h : s.heap p = some job) : p < s.inserted :=
  ((hs.heap p).mp (by rw [h]; rfl)).1

theorem Consistent.deref (hs : Consistent s) (hp : p < s.inserted) :
    s.deref (p + 1) = (s.heap p).map fun job => (p, job) := by
  rw [State.deref, hs.listed p hp, Option.bind_eq_bind, Option.bind_some]
  cases s.heap p <;> rfl

theorem Consistent.window (hs : Consistent s) : s.window = List.range' 1 s.inserted := by
  rw [State.window, hs.front, hs.rear, Nat.add_sub_cancel]

theorem Consistent.mem_window (hs : Consistent s) : i ∈ s.window ↔ ∃ p < s.inserted, i = p + 1 := by
  rw [hs.window, List.mem_range'_1]
  constructor
  · intro h
    exact ⟨i - 1, by omega, by omega⟩
  · rintro ⟨p, hp, rfl⟩
    omega

/-- A live entry of the window. -/
theorem Consistent.deref_of_live (hs : Consistent s) (hi : i ∈ s.window) (hlive : live s i = true) :
    ∃ p job, i = p + 1 ∧ s.heap p = some job ∧ s.deref i = some (p, job) := by
  obtain ⟨p, hp, rfl⟩ := hs.mem_window.mp hi
  have hderef := hs.deref hp
  rw [live, hderef, Option.isSome_map] at hlive
  obtain ⟨job, hjob⟩ := Option.isSome_iff_exists.mp hlive
  exact ⟨p, job, rfl, hjob, by rw [hderef, hjob]; rfl⟩

theorem invariant_initial : Invariant initial := by
  refine ⟨⟨rfl, rfl, by decide, fun p hp => ?_, fun p => ?_, ?_, ?_, ?_, ?_, rfl⟩, [], ?_, ?_, ?_⟩
  · exact absurd hp (Nat.not_lt_zero p)
  · simp [initial]
  · simp [initial]
  · exact List.nodup_nil
  · simp [initial]
  · exact List.nodup_nil
  · funext j
    simp [initial]
  · exact List.nodup_nil
  · simp

/-- A new job takes the next number and the next place. -/
theorem Invariant.insert (hs : Invariant s) (hroom : s.inserted + 1 < maxJobs) (job : Job) :
    Invariant (insertJobs s job) := by
  obtain ⟨⟨hfront, hrear, -, hlisted, hheap, hlt, hfreed, hrep, hreported, hcount⟩, ds, hplaces, hnodup,
    hterm⟩ := hs
  have hfresh : s.inserted ∉ s.freed := fun h => absurd (hlt _ h) (lt_irrefl _)
  refine ⟨⟨hfront, ?_, hroom, fun p hp => ?_, fun p => ?_, fun p hp => ?_, hfreed, hrep, hreported, ?_⟩,
    ds, hplaces, hnodup, fun d hd => ?_⟩
  · exact congrArg (· + 1) hrear
  · dsimp only [insertJobs] at hp ⊢
    rw [hrear]
    rcases Nat.lt_succ_iff_lt_or_eq.mp hp with hlt' | rfl
    · rw [Function.update_of_ne (by omega)]
      exact hlisted p hlt'
    · rw [Function.update_self]
  · dsimp only [insertJobs]
    rcases eq_or_ne p s.inserted with rfl | hne
    · simp [hfresh]
    · rw [Function.update_of_ne hne, hheap]
      constructor
      · exact fun h => ⟨h.1.trans (Nat.lt_succ_self _), h.2⟩
      · exact fun h => ⟨by omega, h.2⟩
  · exact (hlt p hp).trans (Nat.lt_succ_self _)
  · dsimp only [insertJobs]
    push_cast
    omega
  · obtain ⟨p, job', rfl, hjob, hst⟩ := hterm d hd
    have hne : p ≠ s.inserted := by
      rintro rfl
      have := ((hheap s.inserted).mp (by rw [hjob]; rfl)).1
      omega
    exact ⟨p, job', rfl, (Function.update_of_ne hne ..).trans hjob, hst⟩

/-- A job that has not terminated, or terminates, changes its state. -/
theorem Invariant.setState (hs : Invariant s) (hp : s.heap p = some job) {st : JobState}
    (hst : st = .terminated ∨ job.state ≠ .terminated) : Invariant (s.setState p job st) := by
  obtain ⟨⟨hfront, hrear, hroom, hlisted, hheap, hlt, hfreed, hrep, hreported, hcount⟩, ds, hplaces,
    hnodup, hterm⟩ := hs
  refine ⟨⟨hfront, hrear, hroom, hlisted, fun q => ?_, hlt, hfreed, hrep, hreported, hcount⟩, ds,
    hplaces, hnodup, fun d hd => ?_⟩
  · refine Iff.trans ?_ (hheap q)
    rcases eq_or_ne q p with rfl | hne
    · simp [State.setState, hp]
    · simp [State.setState, Function.update_of_ne hne]
  · obtain ⟨q, job', rfl, hjob, hst'⟩ := hterm d hd
    rcases eq_or_ne q p with rfl | hne
    · refine ⟨q, _, rfl, Function.update_self .., ?_⟩
      rcases hst with rfl | hst
      · rfl
      · rw [hp, Option.some.injEq] at hjob
        rw [hjob] at hst
        exact absurd hst' hst
    · exact ⟨q, job', rfl, (Function.update_of_ne hne ..).trans hjob, hst'⟩

theorem Consistent.free (hs : Consistent s) (hp : s.heap p = some job) : Consistent (s.free p) := by
  obtain ⟨hfront, hrear, hroom, hlisted, hheap, hlt, hfreed, hrep, hreported, hcount⟩ := hs
  obtain ⟨hpn, hpf⟩ := (hheap p).mp (by rw [hp]; rfl)
  refine ⟨hfront, hrear, hroom, hlisted, fun q => ?_, fun q hq => ?_, ?_, fun q hq => ?_, hreported, ?_⟩
  · dsimp only [State.free]
    rcases eq_or_ne q p with rfl | hne
    · simp
    · rw [Function.update_of_ne hne, hheap]
      simp [hne]
  · rcases List.mem_append.mp hq with hq | hq
    · exact hlt q hq
    · rw [List.mem_singleton.mp hq]
      exact hpn
  · exact List.nodup_append.mpr ⟨hfreed, List.nodup_singleton p, by
      rintro a ha b hb rfl
      rw [List.mem_singleton.mp hb] at ha
      exact hpf ha⟩
  · exact List.mem_append_left _ (hrep q hq)
  · dsimp only [State.free]
    rw [List.length_append, List.length_singleton]
    push_cast
    omega

end Places

section Operations

variable {s : State} {ds is : List ℕ} {pid index : ℕ}

/-- Printing the jobs that are done frees each of them once. -/
theorem printDoneFrom_spec {fuel i : ℕ} (hs : Consistent s) (hdone : Done s i ds)
    (hfuel : ds.length < fuel) :
    ∃ s', printDoneFrom fuel i s = some s' ∧ Consistent s' ∧ Done s' (i + ds.length) [] := by
  induction ds generalizing fuel i s with
  | nil =>
    obtain ⟨fuel, rfl⟩ := Nat.exists_eq_succ_of_ne_zero hfuel.ne'
    have hzero : s.jobsDone i = 0 := by
      rw [hdone.places]
      simp
    exact ⟨s, by rw [printDoneFrom, if_pos hzero], hs, hdone⟩
  | cons d ds ih =>
    obtain ⟨fuel, rfl⟩ := Nat.exists_eq_succ_of_ne_zero (Nat.ne_of_gt (Nat.zero_lt_of_lt hfuel))
    obtain ⟨p, job, rfl, hjob, -⟩ := hdone.terminated d List.mem_cons_self
    obtain ⟨hnotin, hnodup⟩ := List.nodup_cons.mp hdone.nodup
    have hplace : s.jobsDone i = p + 1 := by
      rw [hdone.places]
      simp
    have hderef : s.deref (p + 1) = some (p, job) := by
      rw [hs.deref (hs.lt_of_heap hjob), hjob]
      rfl
    have hpfreed : p ∉ s.freed := ((hs.heap p).mp (by rw [hjob]; rfl)).2
    have hfree := hs.free hjob
    have hnext : Consistent { State.free { s with reported := s.reported ++ [p] } p with
        jobsDone := Function.update s.jobsDone i 0 } := by
      refine ⟨hfree.front, hfree.rear, hfree.room, hfree.listed, hfree.heap, hfree.freed_lt, hfree.freed,
        fun q hq => ?_, ?_, hfree.count⟩
      · rcases List.mem_append.mp hq with hq | hq
        · exact List.mem_append_left _ (hs.reported_freed q hq)
        · exact List.mem_append_right _ hq
      · refine List.nodup_append.mpr ⟨hs.reported, List.nodup_singleton p, ?_⟩
        rintro a ha b hb rfl
        rw [List.mem_singleton.mp hb] at ha
        exact hpfreed (hs.reported_freed p ha)
    have hdone' : Done { State.free { s with reported := s.reported ++ [p] } p with
        jobsDone := Function.update s.jobsDone i 0 } (i + 1) ds := by
      refine ⟨?_, hnodup, fun d hd => ?_⟩
      · funext j
        dsimp only
        rw [Function.update_apply, hdone.places]
        dsimp only
        rcases lt_trichotomy j i with hlt | rfl | hgt
        · rw [if_neg hlt.ne, if_pos hlt, if_pos (by omega)]
        · rw [if_pos rfl, if_pos (by omega)]
        · rw [if_neg hgt.ne', if_neg (by omega), if_neg (by omega),
            show j - i = (j - (i + 1)) + 1 by omega, List.getD_cons_succ]
      · obtain ⟨q, job', rfl, hjob', hst⟩ := hdone.terminated d (List.mem_cons_of_mem _ hd)
        have hne : q ≠ p := by
          rintro rfl
          exact hnotin hd
        exact ⟨q, job', rfl, (Function.update_of_ne hne ..).trans hjob', hst⟩
    obtain ⟨s', hrun, hs', hdone''⟩ := ih hnext hdone' (by simpa using hfuel)
    refine ⟨s', ?_, hs', ?_⟩
    · rw [printDoneFrom, if_neg (by omega), hplace]
      simp only [hderef, Option.bind_eq_bind, Option.bind_some]
      exact hrun
    · rw [List.length_cons]
      rwa [show i + (ds.length + 1) = i + 1 + ds.length by omega]

/-- The loop of `reap_dead_jobs` notes the terminated jobs one after the other. -/
theorem reapFrom_eq (hlive : ∀ i ∈ is, live s i = true) (j : ℕ) (done : ℕ → ℕ) :
    reapFrom s is j done = some fun k =>
      if k < j then done k
      else (is.filter fun i => (s.deref i).any fun r => r.2.state = .terminated).getD (k - j)
        (done k) := by
  induction is generalizing j done with
  | nil =>
    rw [reapFrom]
    congr 1
    funext k
    simp
  | cons i is ih =>
    have hrest := ih fun i hi => hlive i (List.mem_cons_of_mem _ hi)
    obtain ⟨⟨p, job⟩, hderef⟩ := Option.isSome_iff_exists.mp (hlive i List.mem_cons_self)
    rw [reapFrom, hderef]
    simp only [Option.bind_eq_bind, Option.bind_some]
    by_cases hst : job.state = .terminated
    · rw [if_pos hst, hrest, List.filter_cons_of_pos (by simpa [hderef] using hst)]
      congr 1
      funext k
      rcases lt_trichotomy k j with hlt | rfl | hgt
      · rw [if_pos (by omega), if_pos hlt, Function.update_of_ne hlt.ne]
      · rw [if_pos (by omega), if_neg (lt_irrefl k), Function.update_self, Nat.sub_self,
          List.getD_cons_zero]
      · rw [if_neg (by omega), if_neg (by omega), Function.update_of_ne hgt.ne',
          show k - j = (k - (j + 1)) + 1 by omega, List.getD_cons_succ]
    · rw [if_neg hst, hrest, List.filter_cons_of_neg (by simpa [hderef] using hst)]

theorem live_of_reapFrom {j : ℕ} {done : ℕ → ℕ} (h : (reapFrom s is j done).isSome = true) :
    ∀ i ∈ is, live s i = true := by
  induction is generalizing j done with
  | nil => simp
  | cons i is ih =>
    rw [reapFrom, Option.bind_eq_bind, Option.isSome_bind, Option.any_eq_true] at h
    obtain ⟨⟨p, job⟩, hderef, h⟩ := h
    have hrest : ∀ i ∈ is, live s i = true := by
      dsimp only at h
      split at h
      · exact ih h
      · exact ih h
    exact List.forall_mem_cons.mpr ⟨by rw [live, hderef]; rfl, hrest⟩

/-- With no job left the table is empty, if it has live jobs only. -/
theorem Consistent.empty (hs : Consistent s) (hlive : s.window.all (live s) = true)
    (hn : s.jobsN = 0) : s.inserted = 0 := by
  by_contra hne
  have hsub : s.freed ⊆ (List.range' 1 (s.inserted - 1)) := by
    intro p hp
    have hlt := hs.freed_lt p hp
    have hp0 : p ≠ 0 := by
      rintro rfl
      obtain ⟨q, job, heq, hjob, -⟩ := hs.deref_of_live
        (hs.mem_window.mpr ⟨0, by omega, rfl⟩) (List.all_eq_true.mp hlive 1
          (hs.mem_window.mpr ⟨0, by omega, rfl⟩))
      obtain rfl : q = 0 := by omega
      exact ((hs.heap 0).mp (by rw [hjob]; rfl)).2 hp
    rw [List.mem_range'_1]
    omega
  have hle := (List.subperm_of_subset hs.freed hsub).length_le
  have hcount := hs.count
  rw [List.length_range'] at hle
  omega

theorem Invariant.reap (hs : Invariant s) (hlive : s.window.all (live s) = true) :
    ∃ s', reapDeadJobs s = some s' ∧ Invariant s' := by
  obtain ⟨hcons, ds, hplaces, hnodup, hterm⟩ := hs
  have hall := List.all_eq_true.mp hlive
  have hreap := reapFrom_eq hall 0 s.jobsDone
  generalize hts : (s.window.filter fun i => (s.deref i).any fun r => r.2.state = .terminated) = ts
    at hreap
  have hsub : ds ⊆ ts := by
    intro d hd
    obtain ⟨p, job, rfl, hjob, hst⟩ := hterm d hd
    have hp := hcons.lt_of_heap hjob
    rw [← hts, List.mem_filter, hcons.deref hp, hjob]
    exact ⟨hcons.mem_window.mpr ⟨p, hp, rfl⟩, by simpa using hst⟩
  have hle := (List.subperm_of_subset hnodup hsub).length_le
  have hdone : Invariant { s with jobsDone := fun k => ts.getD k 0 } := by
    refine ⟨⟨hcons.front, hcons.rear, hcons.room, hcons.listed, hcons.heap, hcons.freed_lt, hcons.freed,
      hcons.reported_freed, hcons.reported, hcons.count⟩, ts, rfl, ?_, fun d hd => ?_⟩
    · rw [← hts, hcons.window]
      exact (List.nodup_range' 1).filter _
    · rw [← hts, List.mem_filter] at hd
      obtain ⟨p, job, rfl, hjob, hderef⟩ := hcons.deref_of_live hd.1 (hall d hd.1)
      rw [hderef] at hd
      exact ⟨p, job, rfl, hjob, by simpa using hd.2⟩
  have hsame : (fun k => if k < 0 then s.jobsDone k else ts.getD (k - 0) (s.jobsDone k)) =
      fun k => ts.getD k 0 := by
    funext k
    rw [if_neg (Nat.not_lt_zero k), Nat.sub_zero, hplaces]
    by_cases hk : k < ts.length
    · rw [List.getD_eq_getElem _ _ hk, List.getD_eq_getElem _ _ hk]
    · rw [List.getD_eq_default _ _ (not_lt.mp hk), List.getD_eq_default _ _ (not_lt.mp hk)]
      simp only [Nat.not_lt_zero, if_false, Nat.sub_zero]
      exact List.getD_eq_default _ _ (by omega)
  rw [hsame] at hreap
  refine ⟨_, by rw [reapDeadJobs, hreap]; rfl, ?_⟩
  split
  · rename_i hn
    -- Going back to the start of the table changes nothing here.
    have hzero := hcons.empty hlive hn
    have hrear : s.jobsRear = 1 := by rw [hcons.rear, hzero]
    have hstart : ({ s with jobsDone := fun k => ts.getD k 0, jobsFront := 1, jobsRear := 1 } : State) =
        { s with jobsDone := fun k => ts.getD k 0 } := by
      simp only [hcons.front, hrear]
    exact hstart ▸ hdone
  · exact hdone

theorem isSome_mapM {α β : Type} (f : α → Option β) (l : List α) :
    (l.mapM f).isSome = l.all fun a => (f a).isSome := by
  induction l with
  | nil => rfl
  | cons a l ih =>
    rw [List.mapM_cons, List.all_cons, ← ih]
    cases f a with
    | none => rfl
    | some b => cases l.mapM f <;> rfl

theorem isSome_printJobs (s : State) : (printJobs s).isSome = s.window.all (live s) := by
  rw [printJobs, isSome_mapM]
  congr 1
  funext i
  rw [live]
  cases s.deref i <;> rfl

/-- The search for a job that is there ends at it, or at a freed job in front of it. -/
theorem findFrom_spec (hany : is.any (serves s pid) = true) :
    (((is.takeWhile fun i => !serves s pid i).all (live s) = true) ∧
      ∃ i ∈ is, serves s pid i = true ∧ findFrom s pid is = some (some i)) ∨
    ((is.takeWhile fun i => !serves s pid i).all (live s) = false ∧ findFrom s pid is = none) := by
  induction is with
  | nil => cases hany
  | cons i is ih =>
    by_cases hi : serves s pid i = true
    · refine Or.inl ⟨by rw [List.takeWhile_cons_of_neg (by simp [hi])]; rfl, i, List.mem_cons_self, hi, ?_⟩
      obtain ⟨⟨p, job⟩, hderef, hpid⟩ := (Option.any_eq_true ..).mp hi
      rw [findFrom, hderef]
      exact if_pos (of_decide_eq_true hpid)
    rw [Bool.not_eq_true] at hi
    rw [List.any_cons, hi, Bool.false_or] at hany
    rw [List.takeWhile_cons_of_pos (by simp [hi]), List.all_cons]
    cases hderef : s.deref i with
    | none =>
      refine Or.inr ⟨?_, ?_⟩
      · rw [live, hderef]
        rfl
      · rw [findFrom, hderef]
        rfl
    | some r =>
      have hlive : live s i = true := by
        rw [live, hderef]
        rfl
      have hne : ¬ r.2.pgid = pid := by
        rw [serves, hderef] at hi
        simpa using hi
      have hfind : findFrom s pid (i :: is) = findFrom s pid is := by
        rw [findFrom, hderef]
        exact if_neg hne
      rw [hlive, Bool.true_and, hfind]
      rcases ih hany with ⟨hall, k, hk, hserves, hfound⟩ | ⟨hall, hfound⟩
      · exact Or.inl ⟨hall, k, List.mem_cons_of_mem _ hk, hserves, hfound⟩
      · exact Or.inr ⟨hall, hfound⟩

theorem Consistent.findJobsByPid_eq (hs : Consistent s) (hn : 0 < s.inserted) (pid : ℕ) :
    findJobsByPid s pid = (findFrom s pid s.window).map fun found => (s, found) := by
  have hskip : skipNull s (maxJobs - s.jobsFront) s.jobsFront = some s.jobsFront := by
    rw [hs.front]
    show skipNull s (1022 + 1) 1 = some 1
    rw [skipNull, hs.listed 0 hn]
    rfl
  rw [findJobsByPid, hskip]
  show (findFrom s pid s.window).bind (fun found => some (s, found)) = _
  cases findFrom s pid s.window <;> rfl

/-- A child that has exited is looked up in the table. -/
theorem Invariant.terminate (hs : Invariant s) (hvalid : valid s (.terminate pid) = true) :
    (clear s (.terminate pid) = true ∧ ∃ s', terminate s pid = some s' ∧ Invariant s') ∨
      (clear s (.terminate pid) = false ∧ JobTable.terminate s pid = none) := by
  obtain ⟨i, hi, hserves⟩ := List.any_eq_true.mp hvalid
  obtain ⟨p, hp, -⟩ := hs.consistent.mem_window.mp hi
  have hfind := hs.consistent.findJobsByPid_eq (Nat.zero_lt_of_lt hp) pid
  rcases findFrom_spec hvalid with ⟨hall, k, hk, hserves, hfound⟩ | ⟨hall, hfound⟩
  · refine Or.inl ⟨hall, ?_⟩
    have hlive : live s k = true := by
      obtain ⟨r, hr, -⟩ := (Option.any_eq_true ..).mp hserves
      rw [live, hr]
      rfl
    obtain ⟨q, job, -, hjob, hderef⟩ := hs.consistent.deref_of_live hk hlive
    refine ⟨_, ?_, hs.setState hjob (Or.inl rfl)⟩
    rw [JobTable.terminate, hfind, hfound]
    simp only [Option.map_some, Option.bind_eq_bind, Option.bind_some, hderef]
  · refine Or.inr ⟨hall, ?_⟩
    rw [JobTable.terminate, hfind, hfound]
    rfl

theorem Invariant.printDone (hs : Invariant s) : ∃ s', printDoneJobs s = some s' ∧ Invariant s' := by
  obtain ⟨hcons, ds, hdone⟩ := hs
  have hsub : ds ⊆ List.range' 1 s.inserted := by
    intro d hd
    obtain ⟨p, job, rfl, hjob, -⟩ := hdone.terminated d hd
    rw [← hcons.window]
    exact hcons.mem_window.mpr ⟨p, hcons.lt_of_heap hjob, rfl⟩
  have hle := (List.subperm_of_subset hdone.nodup hsub).length_le
  have hroom := hcons.room
  rw [List.length_range'] at hle
  have hfuel : ds.length < maxJobs := by omega
  obtain ⟨s', hrun, hs', hdone'⟩ := printDoneFrom_spec hcons hdone hfuel
  refine ⟨s', hrun, hs', [], ?_, List.nodup_nil, by simp⟩
  rw [hdone'.places]
  funext j
  simp

theorem Invariant.fg (hs : Invariant s) {stopped : Bool} (hi : index ∈ s.window)
    (hlive : live s index = true) (hroom : stopped = true → s.inserted + 1 < maxJobs) :
    ∃ s', JobTable.fg s index stopped = some s' ∧ Invariant s' := by
  obtain ⟨p, job, -, hjob, hderef⟩ := hs.consistent.deref_of_live hi hlive
  simp only [JobTable.fg, hderef, Option.bind_eq_bind, Option.bind_some]
  by_cases hst : job.state = .terminated
  · rw [if_pos hst]
    exact ⟨s, rfl, hs⟩
  rw [if_neg hst]
  refine ⟨_, rfl, ?_⟩
  have hfree : Invariant (s.free p) := by
    obtain ⟨ds, hplaces, hnodup, hterm⟩ := hs.done
    refine ⟨hs.consistent.free hjob, ds, hplaces, hnodup, fun d hd => ?_⟩
    obtain ⟨q, job', rfl, hjob', hst'⟩ := hterm d hd
    have hne : q ≠ p := by
      rintro rfl
      rw [hjob, Option.some.injEq] at hjob'
      rw [hjob'] at hst
      exact hst hst'
    exact ⟨q, job', rfl, (Function.update_of_ne hne ..).trans hjob', hst'⟩
  split
  · rename_i hstopped
    exact hfree.insert (hroom hstopped) _
  · exact hfree

theorem Invariant.mark (hs : Invariant s) (st : JobState) (hi : index ∈ s.window)
    (hlive : live s index = true) : ∃ s', JobTable.mark s index st = some s' ∧ Invariant s' := by
  obtain ⟨p, job, -, hjob, hderef⟩ := hs.consistent.deref_of_live hi hlive
  simp only [JobTable.mark, hderef, Option.bind_eq_bind, Option.bind_some]
  by_cases hst : job.state = .terminated
  · rw [if_pos hst]
    exact ⟨s, rfl, hs⟩
  · rw [if_neg hst]
    exact ⟨_, rfl, hs.setState hjob (Or.inr hst)⟩

/-- An operation follows no pointer to a freed job exactly when the entries that it
goes through are of live jobs, and then the table stays consistent. -/
theorem Invariant.exec (hs : Invariant s) {op : Op} (hvalid : valid s op = true) :
    (clear s op = true ∧ ∃ s', exec s op = some s' ∧ Invariant s') ∨
      (clear s op = false ∧ JobTable.exec s op = none) := by
  cases op with
  | insert job => exact Or.inl ⟨rfl, _, rfl, hs.insert (of_decide_eq_true hvalid) job⟩
  | terminate pid => exact hs.terminate hvalid
  | reapDeadJobs =>
    by_cases hlive : s.window.all (live s) = true
    · exact Or.inl ⟨hlive, hs.reap hlive⟩
    · refine Or.inr ⟨Bool.not_eq_true _ ▸ hlive, ?_⟩
      by_contra hsome
      apply hlive
      apply List.all_eq_true.mpr
      apply live_of_reapFrom (s := s) (j := 0)
      rw [← ne_eq, ← Option.isSome_iff_ne_none] at hsome
      simp only [JobTable.exec, reapDeadJobs, Option.bind_eq_bind, Option.isSome_bind,
        Option.any_eq_true] at hsome
      obtain ⟨done, hdone, -⟩ := hsome
      exact Option.isSome_iff_exists.mpr ⟨done, hdone⟩
  | printDoneJobs => exact Or.inl ⟨rfl, hs.printDone⟩
  | printJobs =>
    have hiff := isSome_printJobs s
    by_cases hlive : s.window.all (live s) = true
    · rw [hlive] at hiff
      obtain ⟨lines, hlines⟩ := Option.isSome_iff_exists.mp hiff
      exact Or.inl ⟨hlive, s, by rw [JobTable.exec, hlines]; rfl, hs⟩
    · rw [Bool.not_eq_true] at hlive
      rw [hlive, Option.isSome_eq_false_iff, Option.isNone_iff_eq_none] at hiff
      exact Or.inr ⟨hlive, by rw [JobTable.exec, hiff]; rfl⟩
  | fg index stopped =>
    simp only [valid, Bool.and_eq_true, decide_eq_true_eq, Bool.or_eq_true, Bool.not_eq_true'] at hvalid
    obtain ⟨⟨hi, hlive⟩, hroom⟩ := hvalid
    refine Or.inl ⟨rfl, hs.fg hi hlive fun hstopped => ?_⟩
    rcases hroom with hfalse | hroom
    · rw [hstopped] at hfalse
      cases hfalse
    · exact hroom
  | bg index =>
    simp only [valid, Bool.and_eq_true, decide_eq_true_eq] at hvalid
    exact Or.inl ⟨rfl, hs.mark .running hvalid.1 hvalid.2⟩
  | killJob index =>
    simp only [valid, Bool.and_eq_true, decide_eq_true_eq] at hvalid
    exact Or.inl ⟨rfl, hs.mark .terminated hvalid.1 hvalid.2⟩

end Operations

/-- In runs that go through live jobs only, no operation follows a pointer to a freed job
unless it goes through one, each job is freed and reported at most once, and the
counter is the number of jobs inserted and not freed. -/
theorem consistent_of_clear {s : State}
    (hs : (runs.guarded fun s op => clear s op = true).Reachable s) :
    (∀ op, valid s op = true → ((exec s op).isSome = true ↔ clear s op = true)) ∧
      (∀ p, (s.heap p).isSome = true ↔ p < s.inserted ∧ p ∉ s.freed) ∧
      s.freed.Nodup ∧ s.reported.Nodup ∧ s.jobsN = s.inserted - s.freed.length := by
  have hinv : Invariant s := by
    apply hs.invariant
    · rintro t rfl
      exact invariant_initial
    · rintro t op t' ht ⟨hstep, hclear⟩
      simp only [runs, System.ofNext, next] at hstep
      split at hstep
      · rename_i hvalid
        rcases ht.exec hvalid with ⟨-, s', hexec, hs'⟩ | ⟨hfalse, -⟩
        · rw [hexec] at hstep
          exact Option.some.inj hstep ▸ hs'
        · rw [hclear] at hfalse
          cases hfalse
      · cases hstep
  refine ⟨fun op hvalid => ?_, hinv.consistent.heap, hinv.consistent.freed, hinv.consistent.reported,
    hinv.consistent.count⟩
  rcases hinv.exec hvalid with ⟨hclear, s', hexec, -⟩ | ⟨hclear, hexec⟩
  · rw [hclear, hexec]
    exact iff_of_true rfl rfl
  · rw [hclear, hexec]
    exact iff_of_false Bool.false_ne_true Bool.false_ne_true

def oneDone : List Op :=
  [.insert ⟨20, .running, ascii "sleep 1&"⟩, .insert ⟨21, .running, ascii "sleep 9&"⟩, .printJobs,
    .terminate 20, .reapDeadJobs, .printDoneJobs]

theorem consistent_one_done : ∃ s : State,
    System.perform next (fun s op => clear s op = true) initial oneDone = some s ∧
      s.reported = [0] ∧ s.jobsN = s.inserted - s.freed.length := by
  have hrun : (System.perform next (fun s op => clear s op = true) initial oneDone).map
      (fun s => s.reported) = some [0] := by decide
  obtain ⟨s, hs, hreported⟩ := Option.map_eq_some_iff.mp hrun
  have hstart : (runs.guarded fun s op => clear s op = true).Reachable initial := .initial rfl
  exact ⟨s, hs, hreported, (consistent_of_clear (hstart.perform hs)).2.2.2.2⟩

/-- The freed job is still in the window when the jobs are printed next. -/
theorem printJobs_one_done : ∃ s : State, runs.Reachable s ∧ valid s .printJobs = true ∧
    s.jobsN = 1 ∧ s.freed = [0] ∧ s.jobsList 1 = some 0 ∧ 1 ∈ s.window ∧ exec s .printJobs = none := by
  have hrun : (System.perform next (fun _ _ => True) initial oneDone).map
      (fun s => (s.jobsN, s.freed, s.jobsList 1, decide (1 ∈ s.window), (printJobs s).isNone)) =
      some (1, [0], some 0, true, true) := by decide
  obtain ⟨s, hs, hread⟩ := Option.map_eq_some_iff.mp hrun
  obtain ⟨hn, hread⟩ := Prod.mk.inj hread
  obtain ⟨hfreed, hread⟩ := Prod.mk.inj hread
  obtain ⟨hlist, hread⟩ := Prod.mk.inj hread
  obtain ⟨hwindow, hprint⟩ := Prod.mk.inj hread
  have hstart : (runs.guarded fun _ _ => True).Reachable initial := .initial rfl
  refine ⟨s, (hstart.perform hs).of_guarded, rfl, hn, hfreed, hlist, of_decide_eq_true hwindow, ?_⟩
  rw [exec, Option.isNone_iff_eq_none.mp hprint]
  rfl

end SystemSoftware.JobRuns
