import SystemSoftware.NetworkWorkers
import SystemSoftware.ThreadTally

/-!
When everything has come to rest, the last change of the stock table has been
saved. A worker that has served a client either finds all workers idle, and then
a save follows, or another worker is still counted as busy and will come to the
same test. So as long as a change is not saved, some worker or the signal is on
its way to save it.
-/
namespace SystemSoftware.FinalSave

open ConnectionQueue Transitions ThreadTally NetworkWorkers

def Saved (history : List Event) : Prop :=
  ∀ l r, history = l ++ .modify :: r → .save ∈ r

theorem saved_concat_save (history : List Event) : Saved (history ++ [.save]) := by
  intro l r heq
  rcases r.eq_nil_or_concat with rfl | ⟨r, e, rfl⟩
  · have hlast := List.append_inj_right' heq rfl
    cases hlast
  · rw [List.concat_eq_append] at heq ⊢
    rw [← List.cons_append, ← List.append_assoc] at heq
    obtain rfl : Event.save = e := (List.cons.inj (List.append_inj_right' heq rfl)).1
    exact List.mem_append_right _ List.mem_cons_self

section Places

variable {A : Type} {N : ℕ}

def Busy : WorkerPc A → Bool
  | .service _ | .postIdle => true
  | _ => false

def Due (N : ℕ) : WorkerPc A → Bool
  | .service _ | .postIdle | .getvalue | .waitMutex | .raise => true
  | .test idle => idle = N
  | _ => false

theorem due_of_busy {pc : WorkerPc A} (h : Busy pc = true) : Due N pc = true := by
  cases pc <;> first | rfl | cases h

/-- What a step of a worker means for the save: the worker stays due, the signal
is pending, or it has not found all workers idle. -/
structure Effect (N : ℕ) (s : Shared A) (pc : WorkerPc A) (s' : Shared A) (pc' : WorkerPc A) :
    Prop where
  counted : (s'.idle : ℤ) + part (Busy · = true) pc' = s.idle + part (Busy · = true) pc
  pending : s.pending = true → s'.pending = true
  due : Due N pc = true → Due N pc' = true ∨ s'.pending = true ∨ s.idle ≠ N ∧ Busy pc = false

theorem next_effect {s s' : Shared A} {pc pc' : WorkerPc A} (h : pc.next N s = some (s', pc')) :
    Effect N s pc s' pc' := by
  cases pc with
  | removing pc =>
    simp only [WorkerPc.next, Option.bind_eq_bind, Option.bind_eq_some_iff] at h
    obtain ⟨⟨b, pc'⟩, -, h⟩ := h
    obtain ⟨rfl, rfl⟩ := Prod.mk.inj (Option.some.inj h)
    refine ⟨?_, id, fun h => by cases h⟩
    cases pc' <;> rfl
  | waitIdle w =>
    simp only [WorkerPc.next] at h
    split at h
    · obtain ⟨rfl, rfl⟩ := Prod.mk.inj (Option.some.inj h)
      refine ⟨?_, id, fun _ => Or.inl rfl⟩
      simp [part, Busy]
      omega
    · cases h
  | service w =>
    obtain ⟨rfl, rfl⟩ := Prod.mk.inj (Option.some.inj h)
    exact ⟨rfl, id, fun _ => Or.inl rfl⟩
  | postIdle =>
    obtain ⟨rfl, rfl⟩ := Prod.mk.inj (Option.some.inj h)
    refine ⟨?_, id, fun _ => Or.inl rfl⟩
    simp [part, Busy]
  | getvalue =>
    obtain ⟨rfl, rfl⟩ := Prod.mk.inj (Option.some.inj h)
    refine ⟨rfl, id, fun _ => ?_⟩
    by_cases hidle : s.idle = N
    · exact Or.inl (decide_eq_true hidle)
    · exact Or.inr (Or.inr ⟨hidle, rfl⟩)
  | test idle =>
    obtain ⟨rfl, rfl⟩ := Prod.mk.inj (Option.some.inj h)
    by_cases hidle : idle = N
    · rw [if_pos hidle]
      exact ⟨rfl, id, fun _ => Or.inl rfl⟩
    · rw [if_neg hidle]
      exact ⟨rfl, id, fun hdue => absurd (of_decide_eq_true hdue) hidle⟩
  | waitMutex =>
    simp only [WorkerPc.next] at h
    split at h
    · obtain ⟨rfl, rfl⟩ := Prod.mk.inj (Option.some.inj h)
      exact ⟨rfl, id, fun _ => Or.inl rfl⟩
    · cases h
  | raise =>
    obtain ⟨rfl, rfl⟩ := Prod.mk.inj (Option.some.inj h)
    exact ⟨rfl, fun _ => rfl, fun _ => Or.inr (Or.inl rfl)⟩

end Places

section Rest

variable {ι A : Type} [Fintype ι] {n : Int32} {s s' : State ι A}

def Coming (s : State ι A) : Prop :=
  (∃ i, Due (Fintype.card ι) (s.workers i) = true) ∨ s.shared.pending = true ∨
    ∃ t, s.handlers t = some .call

structure Invariant (s : State ι A) : Prop where
  counted : (s.shared.idle : ℤ) + tally (Busy · = true) s.workers = Fintype.card ι
  coming : ¬ Saved s.history → Coming s

/-- The queue is empty, every worker waits for an item, and no signal is pending or
being handled. -/
def Resting (s : State ι A) : Prop :=
  s.shared.buf.items = 0 ∧ (∀ i, s.workers i = .removing .waitItems) ∧
    s.shared.pending = false ∧ ∀ t, s.handlers t = none

theorem invariant_started (hs : Started n s) : Invariant s := by
  obtain ⟨⟨slots, hshared⟩, -, hworkers, -, hhistory⟩ := hs
  refine ⟨?_, fun h => absurd (fun l r heq => ?_) h⟩
  · rw [hshared, tally_eq_zero, add_zero]
    intro i
    rw [hworkers i]
    exact Bool.false_ne_true
  · rw [hhistory] at heq
    exact absurd heq.symm (by simp)

variable [DecidableEq ι]

theorem invariant_workerStep {i : ι} {shared : Shared A} {pc : WorkerPc A} (hs : Invariant s)
    (h : (s.workers i).next (Fintype.card ι) s.shared = some (shared, pc)) :
    Invariant { s with shared := shared, workers := Function.update s.workers i pc } := by
  obtain ⟨hcounted, hpending, hdue⟩ := next_effect h
  have hold := hs.counted
  refine ⟨?_, fun hsaved => ?_⟩
  · simp only [tally_update]
    omega
  rcases hs.coming hsaved with ⟨j, hj⟩ | hsignal | hcall
  · by_cases hji : j = i
    · subst hji
      rcases hdue hj with hnew | hsignal | ⟨hidle, hbusy⟩
      · exact Or.inl ⟨j, by simpa using hnew⟩
      · exact Or.inr (Or.inl hsignal)
      -- Not all workers were idle, so that another one is still busy.
      · obtain ⟨k, hk⟩ : ∃ k, Busy (s.workers k) = true := by
          by_contra hnone
          rw [tally_eq_zero fun k hk => hnone ⟨k, hk⟩, add_zero] at hold
          exact hidle (by exact_mod_cast hold)
        have hne : k ≠ j := by
          rintro rfl
          rw [hbusy] at hk
          cases hk
        exact Or.inl ⟨k, by simpa [Function.update_of_ne hne] using due_of_busy hk⟩
    · exact Or.inl ⟨j, by simpa [Function.update_of_ne hji] using hj⟩
  · exact Or.inr (Or.inl (hpending hsignal))
  · exact Or.inr (Or.inr hcall)

/-- A handler that has called the save goes on. -/
theorem invariant_handler {t : Option ι} {pc : Option HandlerPc} {buf : Sbuf A} (hs : Invariant s)
    (hne : s.handlers t ≠ some .call) : Invariant { s with
      shared := { s.shared with buf := buf }
      handlers := Function.update s.handlers t pc } := by
  refine ⟨hs.counted, fun hsaved => ?_⟩
  rcases hs.coming hsaved with hdue | hsignal | ⟨u, hu⟩
  · exact Or.inl hdue
  · exact Or.inr (Or.inl hsignal)
  · have hut : u ≠ t := by
      rintro rfl
      exact hne hu
    exact Or.inr (Or.inr ⟨u, by simpa [Function.update_of_ne hut] using hu⟩)

theorem invariant_next {a : Action ι A} (hs : Invariant s) (h : next s a = some s') :
    Invariant s' := by
  cases moves_of_next h with
  | accept w => exact ⟨hs.counted, hs.coming⟩
  | insertStep => exact ⟨hs.counted, hs.coming⟩
  | workerStep _ hnext => exact invariant_workerStep hs hnext
  | @modify i w _ hservice =>
    refine ⟨hs.counted, fun _ => Or.inl ⟨i, ?_⟩⟩
    dsimp only
    rw [hservice]
    rfl
  | @deliver t => exact ⟨hs.counted, fun _ => Or.inr (Or.inr ⟨t, Function.update_self ..⟩)⟩
  | call => exact ⟨hs.counted, fun hsaved => absurd (saved_concat_save s.history) hsaved⟩
  | saving hsaving =>
    apply invariant_handler hs
    rw [hsaving]
    simp
  | post hpost =>
    apply invariant_handler hs
    rw [hpost]
    simp

/-- At rest every change of the table has been saved. -/
theorem saved_of_resting (hs : (runs ι A n).Reachable s) (hrest : Resting s) :
    Saved s.history := by
  have hinv : Invariant s := by
    apply hs.invariant
    · intro t ht
      exact invariant_started ht
    · intro t a t' ht hstep
      exact invariant_next ht hstep
  by_contra hsaved
  obtain ⟨-, hworkers, hpending, hhandlers⟩ := hrest
  rcases hinv.coming hsaved with ⟨i, hi⟩ | hsignal | ⟨t, ht⟩
  · rw [hworkers i] at hi
    cases hi
  · rw [hpending] at hsignal
    cases hsignal
  · rw [hhandlers t] at ht
    cases ht

end Rest

/-- One client changes the table and leaves, and the accepting thread handles the
signal. -/
def oneClient : List (NetworkWorkers.Action Bool ℕ) :=
  [.accept ⟨5, 50⟩] ++ List.replicate 7 .insertStep ++ List.replicate 8 (.workerStep true) ++
    [.modify true] ++ List.replicate 6 (.workerStep true) ++ [.deliver none] ++
    List.replicate 3 (.handlerStep none)

theorem saved_one_client : ∃ s : State Bool ℕ, (runs Bool ℕ 2).Reachable s ∧ Resting s ∧
    s.history = [.modify, .save] ∧ Saved s.history := by
  have hrun : (System.perform next (fun _ _ => True) twoWorkers oneClient).map
      (fun s => (s.history, decide (s.shared.buf.items = 0) && !s.shared.pending &&
        decide (s.workers true = .removing .waitItems) &&
        decide (s.workers false = .removing .waitItems) && (s.handlers none).isNone &&
        (s.handlers (some true)).isNone && (s.handlers (some false)).isNone)) =
      some ([.modify, .save], true) := by decide
  obtain ⟨s, hs, hread⟩ := Option.map_eq_some_iff.mp hrun
  obtain ⟨hhistory, hrest⟩ := Prod.mk.inj hread
  simp only [Bool.and_eq_true, decide_eq_true_eq, Bool.not_eq_true', Option.isNone_iff_eq_none]
    at hrest
  obtain ⟨⟨⟨⟨⟨⟨hitems, hpending⟩, htrue⟩, hfalse⟩, hmain⟩, hhtrue⟩, hhfalse⟩ := hrest
  have hstart : ((runs Bool ℕ 2).guarded fun _ _ => True).Reachable twoWorkers :=
    .initial twoWorkers_started
  have hreach := (hstart.perform hs).of_guarded
  have hresting : Resting s := by
    refine ⟨hitems, fun i => ?_, hpending, fun t => ?_⟩
    · cases i
      · exact hfalse
      · exact htrue
    · rcases t with - | i
      · exact hmain
      · cases i
        · exact hhfalse
        · exact hhtrue
  exact ⟨s, hreach, hresting, hhistory, saved_of_resting hreach hresting⟩

end SystemSoftware.FinalSave
