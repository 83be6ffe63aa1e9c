import Mathlib.Data.Nat.Find

/-!
Labelled transition systems over arbitrary states and actions. A state is
reachable when some run leads to it from an initial state. Restricting the
steps by a guard on the state before and the action gives the runs all of
whose steps meet a condition, and an invariant is proved once by induction
on the run from its initial states and its steps. A function of the actions
that follows every step follows every run. Where the steps are given by a
partial function, a list of actions can be performed. A run that uses something
up at every step that changes its state settles.
-/
namespace SystemSoftware.Transitions

structure System (σ α : Type*) where
  initial : σ → Prop
  step : σ → α → σ → Prop

namespace System

variable {σ α : Type*} (S : System σ α)

inductive Reachable : σ → Prop
  | initial {s : σ} (h : S.initial s) : Reachable s
  | step {s s' : σ} {a : α} (hs : Reachable s) (h : S.step s a s') : Reachable s'

/-- The system whose runs are those runs of `S` that meet `guard` at every step. -/
def guarded (guard : σ → α → Prop) : System σ α where
  initial := S.initial
  step s a s' := S.step s a s' ∧ guard s a

variable {S}

theorem Reachable.invariant {I : σ → Prop} (hinit : ∀ s, S.initial s → I s)
    (hstep : ∀ s a s', I s → S.step s a s' → I s') {s : σ} (h : S.Reachable s) : I s := by
  induction h with
  | initial h => exact hinit _ h
  | step _ h ih => exact hstep _ _ _ ih h

/-- A run of the guarded system is a run of the system itself. -/
theorem Reachable.of_guarded {guard : σ → α → Prop} {s : σ}
    (h : (S.guarded guard).Reachable s) : S.Reachable s := by
  induction h with
  | initial h => exact .initial h
  | step _ h ih => exact .step ih h.1

/-- A function of the states that takes every step to a step takes runs to runs. -/
theorem Reachable.map {τ : Type*} {T : System τ α} {f : σ → τ}
    (hinit : ∀ s, S.initial s → T.initial (f s))
    (hstep : ∀ s a s', S.step s a s' → T.step (f s) a (f s')) {s : σ} (h : S.Reachable s) :
    T.Reachable (f s) := by
  induction h with
  | initial h => exact .initial (hinit _ h)
  | step _ h ih => exact ih.step (hstep _ _ _ h)

inductive Run (S : System σ α) : σ → List α → σ → Prop
  | nil {s : σ} : Run S s [] s
  | cons {s s' t : σ} {a : α} {as : List α} (h : S.step s a s') (hs : Run S s' as t) :
      Run S s (a :: as) t

/-- A function of the actions alone that follows every step follows every run. -/
theorem Run.refines {τ : Type*} {R : σ → τ → Prop} {next : τ → α → τ}
    (hstep : ∀ s a s' t, R s t → S.step s a s' → R s' (next t a)) {s s' : σ} {as : List α}
    (h : S.Run s as s') : ∀ {t : τ}, R s t → R s' (as.foldl next t) := by
  induction h with
  | nil => exact fun hR => hR
  | cons h _ ih => exact fun hR => ih (hstep _ _ _ _ hR h)

theorem Run.append {s s' s'' : σ} {as bs : List α} (h : S.Run s as s') (h' : S.Run s' bs s'') :
    S.Run s (as ++ bs) s'' := by
  induction h with
  | nil => exact h'
  | cons h _ ih => exact .cons h (ih h')

/-- Where no action makes a measure larger, a run has no more actions of the kind that makes
it smaller than the measure has to give. -/
theorem Run.bounded {I : σ → Prop} {μ : σ → ℕ} {p : α → Bool}
    (hstep : ∀ s a s', I s → S.step s a s' →
      I s' ∧ μ s' ≤ μ s ∧ (p a = true → μ s' < μ s))
    {s s' : σ} {as : List α} (h : S.Run s as s') : I s → as.countP p + μ s' ≤ μ s := by
  induction h with
  | nil =>
    intro _
    rw [List.countP_nil, Nat.zero_add]
  | @cons s s₁ t a as h _ ih =>
    intro hI
    obtain ⟨hI₁, hle, hlt⟩ := hstep _ _ _ hI h
    have hrest := ih hI₁
    rw [List.countP_cons]
    split
    · next hp =>
      have hless := hlt hp
      omega
    · omega

/-- Where some actions make a measure smaller, every run can go on until none of them is
possible. -/
theorem Reachable.exists_stuck {I : σ → Prop} {μ : σ → ℕ} {p : α → Bool}
    (hstep : ∀ s a s', I s → S.step s a s' → I s' ∧ (p a = true → μ s' < μ s)) {s : σ}
    (hs : S.Reachable s) (hI : I s) :
    ∃ t, S.Reachable t ∧ ∀ a s', p a = true → ¬ S.step t a s' := by
  induction hn : μ s using Nat.strong_induction_on generalizing s with
  | _ n ih =>
    by_cases hstuck : ∀ a s', p a = true → ¬ S.step s a s'
    · exact ⟨s, hs, hstuck⟩
    · simp only [not_forall, not_not] at hstuck
      obtain ⟨a, s', hp, h⟩ := hstuck
      obtain ⟨hI', hless⟩ := hstep s a s' hI h
      exact ih (μ s') (hn ▸ hless hp) (hs.step h) hI' rfl

def ofNext (initial : σ → Prop) (next : σ → α → Option σ) : System σ α :=
  ⟨initial, fun s a s' => next s a = some s'⟩

section Next

variable {initial : σ → Prop} {next : σ → α → Option σ} {guard : σ → α → Prop}

def perform (next : σ → α → Option σ) (guard : σ → α → Prop) [∀ s a, Decidable (guard s a)]
    (s : σ) (acts : List α) : Option σ :=
  acts.foldlM (fun s a => if guard s a then next s a else none) s

theorem Reachable.perform [∀ s a, Decidable (guard s a)] {acts : List α} {s s' : σ}
    (hs : ((ofNext initial next).guarded guard).Reachable s)
    (h : System.perform next guard s acts = some s') :
    ((ofNext initial next).guarded guard).Reachable s' := by
  induction acts generalizing s with
  | nil =>
    obtain rfl := Option.some.inj h
    exact hs
  | cons a acts ih =>
    rw [System.perform, List.foldlM_cons] at h
    obtain ⟨t, ht, hrest⟩ := Option.bind_eq_some_iff.mp h
    by_cases hg : guard s a
    · rw [if_pos hg] at ht
      exact ih (hs.step ⟨ht, hg⟩) hrest
    · rw [if_neg hg] at ht
      cases ht

/-- What is performed without a guard is a run. -/
theorem Run.of_perform {acts : List α} {s s' : σ}
    (h : System.perform next (fun _ _ => True) s acts = some s') :
    (ofNext initial next).Run s acts s' := by
  induction acts generalizing s with
  | nil =>
    obtain rfl := Option.some.inj h
    exact .nil
  | cons a acts ih =>
    rw [System.perform, List.foldlM_cons] at h
    obtain ⟨t, ht, hrest⟩ := Option.bind_eq_some_iff.mp h
    exact .cons ht (ih hrest)

end Next

end System

/-- A sequence of states settles when every change of state makes a measure smaller. -/
theorem settles {σ : Type*} {f : ℕ → σ} {μ : σ → ℕ}
    (hstep : ∀ n, f (n + 1) = f n ∨ μ (f (n + 1)) < μ (f n)) :
    ∃ n, ∀ m, n ≤ m → f m = f n := by
  classical
  have hex : ∃ k n, μ (f n) = k := ⟨_, 0, rfl⟩
  obtain ⟨n, hn⟩ := Nat.find_spec hex
  refine ⟨n, fun m hm => ?_⟩
  induction m, hm using Nat.le_induction with
  | base => rfl
  | succ m _ ih =>
    rcases hstep m with heq | hlt
    · rw [heq, ih]
    · rw [ih, hn] at hlt
      exact absurd ⟨m + 1, rfl⟩ (Nat.find_min hex hlt)

end SystemSoftware.Transitions
