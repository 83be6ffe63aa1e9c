import SystemSoftware.NetworkWorkers
import SystemSoftware.QueueRuns

/-!
Saving the stock table while clients are served. A worker that has taken a
connection off the queue counts itself as busy only later, and a worker that has
found all others idle takes the mutex of the queue only later, so that the table
may be saved while a client is served. As long as no worker has a connection at
the moment when the mutex is taken for a save, none has one until the handler
posts the mutex, and the table is saved while nobody is served.
-/
namespace SystemSoftware.ServedSave

open ConnectionQueue Transitions ThreadTally NetworkWorkers
open QueueRuns (Inserting Removing insert_effect remove_effect)

section Places

variable {A : Type}

/-- A worker that has taken a connection off the queue and not served it to the end. -/
def Serving : WorkerPc A → Bool
  | .removing (.postEmpty _) | .removing (.done _) | .waitIdle _ | .service _ | .postIdle => true
  | _ => false

def Holding : WorkerPc A → Bool
  | .removing pc => Removing (some pc)
  | .raise => true
  | _ => false

/-- What a step of a worker means for the mutex and for the connections in service. -/
structure Effect (s : Shared A) (pc : WorkerPc A) (s' : Shared A) (pc' : WorkerPc A) : Prop where
  mutex : (pc = .raise → s.pending = false) →
    (s'.buf.mutex : ℤ) + part (Holding · = true) pc' + part (· = true) s'.pending =
      s.buf.mutex + part (Holding · = true) pc + part (· = true) s.pending
  serving : Serving pc' = true → Serving pc = true ∨ Holding pc = true ∧ pc ≠ .raise
  raise : pc' = .raise → pc = .waitMutex
  pending : s'.pending = true → s.pending = true ∨ pc = .raise

/-- A step within a part of the worker that neither takes nor posts the mutex. -/
theorem effect_quiet {s s' : Shared A} {pc pc' : WorkerPc A} (hbuf : s'.buf = s.buf)
    (hpending : s'.pending = s.pending) (hholding : Holding pc' = Holding pc)
    (hserving : Serving pc' = true → Serving pc = true) (hraise : pc' ≠ .raise) :
    Effect s pc s' pc' where
  mutex _ := by
    have hpart : part (Holding · = true) pc' = part (Holding · = true) pc := by
      simp only [part, hholding]
    rw [hbuf, hpending, hpart]
  serving h := Or.inl (hserving h)
  raise h := absurd h hraise
  pending h := Or.inl (hpending ▸ h)

theorem next_effect {N : ℕ} {s s' : Shared A} {pc pc' : WorkerPc A}
    (h : pc.next N s = some (s', pc')) : Effect s pc s' pc' := by
  cases pc with
  | removing pc =>
    simp only [WorkerPc.next, Option.bind_eq_bind, Option.bind_eq_some_iff] at h
    obtain ⟨⟨b, pc'⟩, hnext, h⟩ := h
    obtain ⟨rfl, rfl⟩ := Prod.mk.inj (Option.some.inj h)
    have hmutex := (remove_effect hnext).mutex
    have hholding : part (Holding · = true) (arrived pc') =
        part (Removing · = true) (some pc') := by
      cases pc' <;> rfl
    refine ⟨fun _ => ?_, fun hserving => ?_, fun hraise => ?_, Or.inl⟩
    · have hsame : part (Holding · = true) (.removing pc) =
        part (Removing · = true) (some pc) := rfl
      rw [hholding, hsame]
      dsimp only
      omega
    · cases pc with
      | postMutex w => exact Or.inr ⟨rfl, fun h => by cases h⟩
      | postEmpty w => exact Or.inl rfl
      | waitItems | waitMutex =>
        simp only [RemovePc.next] at hnext
        split at hnext
        · obtain ⟨-, rfl⟩ := Prod.mk.inj (Option.some.inj hnext)
          cases hserving
        · cases hnext
      | bump | getConnfd | getAddr =>
        obtain ⟨-, rfl⟩ := Prod.mk.inj (Option.some.inj hnext)
        cases hserving
      | done w => cases hnext
    · cases pc' <;> cases hraise
  | waitIdle w =>
    simp only [WorkerPc.next] at h
    split at h
    · obtain ⟨rfl, rfl⟩ := Prod.mk.inj (Option.some.inj h)
      exact effect_quiet rfl rfl rfl (fun _ => rfl) (by simp)
    · cases h
  | service w =>
    obtain ⟨rfl, rfl⟩ := Prod.mk.inj (Option.some.inj h)
    exact effect_quiet rfl rfl rfl (fun _ => rfl) (by simp)
  | postIdle =>
    obtain ⟨rfl, rfl⟩ := Prod.mk.inj (Option.some.inj h)
    exact effect_quiet rfl rfl rfl (by simp [Serving]) (by simp)
  | getvalue =>
    obtain ⟨rfl, rfl⟩ := Prod.mk.inj (Option.some.inj h)
    exact effect_quiet rfl rfl rfl (by simp [Serving]) (by simp)
  | test idle =>
    obtain ⟨rfl, rfl⟩ := Prod.mk.inj (Option.some.inj h)
    split
    · exact effect_quiet rfl rfl rfl (by simp [Serving]) (by simp)
    · exact effect_quiet rfl rfl rfl (by simp [Serving]) (by simp)
  | waitMutex =>
    simp only [WorkerPc.next] at h
    split at h
    · obtain ⟨rfl, rfl⟩ := Prod.mk.inj (Option.some.inj h)
      refine ⟨fun _ => ?_, fun h => ?_, fun _ => rfl, Or.inl⟩
      · simp [part, Holding]
        omega
      · cases h
    · cases h
  | raise =>
    obtain ⟨rfl, rfl⟩ := Prod.mk.inj (Option.some.inj h)
    refine ⟨fun hpending => ?_, fun h => ?_, fun h => ?_, fun _ => Or.inr rfl⟩
    · rw [hpending rfl]
      rfl
    · cases h
    · cases h

end Places

section Exclusion

variable {ι A : Type} [Fintype ι] {n : Int32} {s s' : State ι A}

/-- Whenever the mutex of the queue is taken for a save, no worker has a connection. -/
def nobodyServed (s : State ι A) : Action ι A → Bool
  | .workerStep i =>
    match s.workers i with
    | .waitMutex => decide (∀ j, Serving (s.workers j) = false)
    | _ => true
  | _ => true

/-- While the table is being saved no client is served, and the table does not change. -/
def Excluded [DecidableEq ι] (s : State ι A) : Prop :=
  ∀ t, s.handlers t = some .saving → ∀ i, (∀ w, s.workers i ≠ .service w) ∧ next s (.modify i) = none

def Saving (s : State ι A) : Prop :=
  (∃ i, s.workers i = .raise) ∨ s.shared.pending = true ∨ ∃ t, (s.handlers t).isSome = true

structure Invariant (s : State ι A) : Prop where
  mutex : (s.shared.buf.mutex : ℤ) + part (Inserting · = true) s.inserter +
    tally (Holding · = true) s.workers + part (· = true) s.shared.pending +
    tally (·.isSome = true) s.handlers = 1
  alone : Saving s → ∀ j, Serving (s.workers j) = false

theorem invariant_started (hs : Started n s) : Invariant s := by
  obtain ⟨⟨slots, hshared⟩, hinserter, hworkers, hhandlers, -⟩ := hs
  refine ⟨?_, fun _ j => ?_⟩
  · rw [hshared, hinserter, tally_eq_zero fun i hi => ?_, tally_eq_zero fun t ht => ?_]
    · rfl
    · rw [hhandlers t] at ht
      cases ht
    · rw [hworkers i] at hi
      cases hi
  · rw [hworkers j]
    rfl

variable [DecidableEq ι]

/-- No worker comes from the queue while the mutex is taken for a save. -/
theorem Invariant.not_holding (hs : Invariant s) (hsaving : Saving s) {i : ι}
    (hi : s.workers i ≠ .raise) : Holding (s.workers i) = false := by
  by_contra hholding
  rw [Bool.not_eq_false] at hholding
  have hmutex := hs.mutex
  have hinserting := part_nonneg (p := (Inserting · = true)) s.inserter
  have hpart := part_nonneg (p := (· = true)) s.shared.pending
  have hhandlers := tally_nonneg (p := fun h : Option HandlerPc => h.isSome = true) s.handlers
  have hworker := part_le_tally (p := (Holding · = true)) s.workers i
  rw [part_of (p := (Holding · = true)) hholding] at hworker
  rcases hsaving with ⟨j, hj⟩ | hpending | ⟨t, ht⟩
  · have hle : tally (Holding · = true) s.workers ≤ 1 := by omega
    have hj' : Holding (s.workers j) = true := by
      rw [hj]
      rfl
    obtain rfl := eq_of_tally_le_one hle hholding hj'
    exact hi hj
  · rw [part_of (p := (· = true)) hpending] at hmutex
    omega
  · have hhandler := part_le_tally (p := fun h : Option HandlerPc => h.isSome = true) s.handlers t
    rw [part_of (p := fun h : Option HandlerPc => h.isSome = true) ht] at hhandler
    omega

theorem Invariant.workerStep (hs : Invariant s) {i : ι} {shared : Shared A} {pc : WorkerPc A}
    (hguard : nobodyServed s (.workerStep i) = true)
    (h : (s.workers i).next (Fintype.card ι) s.shared = some (shared, pc)) :
    Invariant { s with shared := shared, workers := Function.update s.workers i pc } := by
  obtain ⟨hmutex, hserving, hraise, hpending⟩ := next_effect h
  refine ⟨?_, fun hsaving => ?_⟩
  · have hold := hs.mutex
    have hquiet : s.workers i = .raise → s.shared.pending = false := by
      intro hi
      by_contra hp
      rw [Bool.not_eq_false] at hp
      have hworker := part_le_tally (p := (Holding · = true)) s.workers i
      have hinserting := part_nonneg (p := (Inserting · = true)) s.inserter
      have hhandlers := tally_nonneg (p := fun h : Option HandlerPc => h.isSome = true) s.handlers
      rw [part_of (p := (Holding · = true)) (by rw [hi]; rfl)] at hworker
      rw [part_of (p := (· = true)) hp] at hold
      omega
    have hnew := hmutex hquiet
    simp only [tally_update]
    omega
  have hall : (∀ j, Serving (s.workers j) = false) ∧ Serving pc = false := by
    by_cases hnew : pc = .raise
    · have hi := hraise hnew
      rw [nobodyServed, hi] at hguard
      exact ⟨of_decide_eq_true hguard, by rw [hnew]; rfl⟩
    -- Any other step has found the save under way.
    have hold : Saving s := by
      rcases hsaving with ⟨j, hj⟩ | hp | ht
      · by_cases hji : j = i
        · rw [hji] at hj
          exact absurd ((Function.update_self ..).symm.trans hj) hnew
        · exact Or.inl ⟨j, (Function.update_of_ne hji ..).symm.trans hj⟩
      · rcases hpending hp with hp | hi
        · exact Or.inr (Or.inl hp)
        · exact Or.inl ⟨i, hi⟩
      · exact Or.inr (Or.inr ht)
    refine ⟨hs.alone hold, ?_⟩
    by_contra hpc
    rw [Bool.not_eq_false] at hpc
    rcases hserving hpc with hi | ⟨hholding, hne⟩
    · rw [hs.alone hold i] at hi
      cases hi
    · rw [hs.not_holding hold hne] at hholding
      cases hholding
  exact (Function.forall_update_iff _ fun _ x => Serving x = false).mpr ⟨hall.2, fun j _ => hall.1 j⟩

/-- A step of a handler, which posts the mutex when it returns. -/
theorem Invariant.handler (hs : Invariant s) {t : Option ι} {pc : Option HandlerPc} {buf : Sbuf A}
    {history : List Event} (ht : (s.handlers t).isSome = true)
    (hmutex : (buf.mutex : ℤ) + part (·.isSome = true) pc = s.shared.buf.mutex + 1) :
    Invariant { s with
      shared := { s.shared with buf := buf }
      handlers := Function.update s.handlers t pc
      history := history } := by
  have hold := hs.mutex
  refine ⟨?_, fun hsaving => ?_⟩
  · simp only [tally_update, part_of (p := fun h : Option HandlerPc => h.isSome = true) ht]
    omega
  · apply hs.alone
    rcases hsaving with hi | hp | -
    · exact Or.inl hi
    · exact Or.inr (Or.inl hp)
    · exact Or.inr (Or.inr ⟨t, ht⟩)

omit [DecidableEq ι] in
theorem Invariant.insertStep (hs : Invariant s) {w : Waiting A} {pc pc' : InsertPc} {buf : Sbuf A}
    (hi : s.inserter = some (w, pc)) (h : pc.next w s.shared.buf = some (buf, pc')) :
    Invariant { s with
      shared := { s.shared with buf := buf }
      inserter := if pc' = .done then none else some (w, pc') } := by
  have hold := hs.mutex
  have hmutex := (insert_effect h).mutex
  have hpart : part (Inserting · = true) (if pc' = .done then none else some (w, pc')) =
      part (Inserting · = true) (some (w, pc')) := by
    by_cases hdone : pc' = .done
    · rw [if_pos hdone, hdone]
      rfl
    · rw [if_neg hdone]
  refine ⟨?_, hs.alone⟩
  rw [hi] at hold
  simp only [hpart]
  omega

theorem invariant_next {a : Action ι A} (hs : Invariant s) (hguard : nobodyServed s a = true)
    (h : next s a = some s') : Invariant s' := by
  cases moves_of_next h with
  | accept w _ hidle =>
    have hold := hs.mutex
    rw [hidle] at hold
    exact ⟨hold, hs.alone⟩
  | insertStep _ hinserter hnext => exact hs.insertStep hinserter hnext
  | workerStep _ hnext => exact hs.workerStep hguard hnext
  | modify => exact ⟨hs.mutex, hs.alone⟩
  | deliver hpending hfree =>
    have hold := hs.mutex
    refine ⟨?_, fun _ => hs.alone (Or.inr (Or.inl hpending))⟩
    rw [hpending] at hold
    simp only [tally_update, hfree, part] at hold ⊢
    simp at hold ⊢
    omega
  | call hcall =>
    apply hs.handler (by rw [hcall]; rfl)
    rfl
  | saving hsaving =>
    apply hs.handler (by rw [hsaving]; rfl)
    rfl
  | post hpost =>
    apply hs.handler (by rw [hpost]; rfl)
    simp [part]

/-- While the mutex is taken for a save only when no worker has a connection, the
table is saved while nobody is served. -/
theorem excluded_of_nobodyServed
    (hs : ((runs ι A n).guarded fun s a => nobodyServed s a = true).Reachable s) : Excluded s := by
  have hinv : Invariant s := by
    apply hs.invariant
    · intro t ht
      exact invariant_started ht
    · rintro t a t' ht ⟨hstep, hguard⟩
      exact invariant_next ht hguard hstep
  intro t ht i
  have hserving := hinv.alone (Or.inr (Or.inr ⟨t, by rw [ht]; rfl⟩)) i
  refine ⟨fun w hw => ?_, ?_⟩
  · rw [hw] at hserving
    cases hserving
  · simp only [next]
    split
    · rename_i hw
      rw [hw] at hserving
      cases hserving
    · rfl

end Exclusion

/-- One client comes and leaves, a second one waits in the queue while the table is
being saved. -/
def oneLeft : List (NetworkWorkers.Action Bool ℕ) :=
  [.accept ⟨5, 50⟩] ++ List.replicate 7 .insertStep ++ List.replicate 13 (.workerStep true) ++
    [.accept ⟨6, 60⟩, .insertStep, .workerStep true, .deliver none, .handlerStep none]

/-- Both clients are taken off the queue before the first one leaves, and the second
one is served when the table is being saved. -/
def bothTaken : List (NetworkWorkers.Action Bool ℕ) :=
  [.accept ⟨5, 50⟩] ++ List.replicate 7 .insertStep ++ [.accept ⟨6, 60⟩] ++
    List.replicate 7 .insertStep ++ List.replicate 7 (.workerStep true) ++
    List.replicate 7 (.workerStep false) ++ List.replicate 7 (.workerStep true) ++
    [.deliver none, .handlerStep none, .workerStep false]

theorem excluded_one_left : ∃ s : State Bool ℕ,
    System.perform next (fun s a => nobodyServed s a = true) twoWorkers oneLeft = some s ∧
      s.handlers none = some .saving ∧ Excluded s := by
  have hrun : (System.perform next (fun s a => nobodyServed s a = true) twoWorkers oneLeft).map
      (fun s => s.handlers none) = some (some .saving) := by decide +kernel
  obtain ⟨s, hs, hhandler⟩ := Option.map_eq_some_iff.mp hrun
  exact ⟨s, hs, hhandler, excluded_of_nobodyServed (.perform (.initial twoWorkers_started) hs)⟩

theorem excluded_both_taken : ∃ s : State Bool ℕ, (runs Bool ℕ 2).Reachable s ∧
    s.handlers none = some .saving ∧ s.workers false = .service ⟨6, 60⟩ ∧ ¬ Excluded s := by
  have hrun : (System.perform next (fun _ _ => True) twoWorkers bothTaken).map
      (fun s => (s.handlers none, s.workers false)) =
      some (some .saving, .service ⟨6, 60⟩) := by decide +kernel
  obtain ⟨s, hs, hread⟩ := Option.map_eq_some_iff.mp hrun
  obtain ⟨hhandler, hworker⟩ := Prod.mk.inj hread
  have hstart : ((runs Bool ℕ 2).guarded fun _ _ => True).Reachable twoWorkers :=
    .initial twoWorkers_started
  refine ⟨s, (hstart.perform hs).of_guarded, hhandler, hworker, ?_⟩
  intro h
  exact (h none hhandler false).1 _ hworker

end SystemSoftware.ServedSave
