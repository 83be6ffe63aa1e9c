import Mathlib.Data.List.Basic

/-!
Loops over a list of requests that a step may leave early. A step has no result
where nothing is said about what happens, and else it goes on or stops with a
reason. Which requests are allowed may depend on those before them: a ghost state
follows the requests alone. What every step keeps holds after every part of a
run, and two loops over the same requests that stay related end alike.
-/
namespace SystemSoftware.EarlyExit

variable {σ τ α γ ε δ : Type*}

def runFrom (step : ℕ → α → σ → Option (Except ε σ)) : ℕ → List α → σ → Option (Except ε σ)
  | _, [], s => some (.ok s)
  | i, a :: as, s =>
    match step i a s with
    | none => none
    | some (.error e) => some (.error e)
    | some (.ok s') => runFrom step (i + 1) as s'

/-- Each request is allowed in the ghost state that those before it lead to. -/
def Allowed (ok : γ → α → Prop) (next : γ → α → γ) : γ → List α → Prop
  | _, [] => True
  | g, a :: as => ok g a ∧ Allowed ok next (next g a) as

instance decidableAllowed (ok : γ → α → Prop) (next : γ → α → γ) [∀ g a, Decidable (ok g a)] :
    ∀ g as, Decidable (Allowed ok next g as)
  | _, [] => inferInstanceAs (Decidable True)
  | g, a :: as =>
    have := decidableAllowed ok next (next g a) as
    inferInstanceAs (Decidable (ok g a ∧ Allowed ok next (next g a) as))

def passed : Option (Except ε σ) → Bool
  | some (.ok _) => true
  | _ => false

theorem exists_of_passed {r : Option (Except ε σ)} (h : passed r = true) :
    ∃ s, r = some (.ok s) := by
  match r, h with
  | some (.ok s), _ => exact ⟨s, rfl⟩

section Runs

variable {step : ℕ → α → σ → Option (Except ε σ)} {i : ℕ} {a : α} {as bs : List α} {s s' t : σ}

theorem runFrom_ok (h : step i a s = some (.ok s')) :
    runFrom step i (a :: as) s = runFrom step (i + 1) as s' := by
  rw [runFrom, h]

theorem runFrom_error {e : ε} (h : step i a s = some (.error e)) :
    runFrom step i (a :: as) s = some (.error e) := by
  rw [runFrom, h]

theorem runFrom_cons_ok :
    runFrom step i (a :: as) s = some (.ok t) ↔
      ∃ m, step i a s = some (.ok m) ∧ runFrom step (i + 1) as m = some (.ok t) := by
  rw [runFrom]
  cases hstep : step i a s with
  | none => simp
  | some r =>
    cases r with
    | error e => simp
    | ok m => simp

/-- A run that goes on to the end goes on to the end of each of its parts. -/
theorem runFrom_append_ok :
    runFrom step i (as ++ bs) s = some (.ok t) ↔
      ∃ m, runFrom step i as s = some (.ok m) ∧
        runFrom step (i + as.length) bs m = some (.ok t) := by
  induction as generalizing i s with
  | nil => simp [runFrom]
  | cons a as ih =>
    have hlen : i + (a :: as).length = i + 1 + as.length := by
      rw [List.length_cons]
      omega
    simp only [List.cons_append, runFrom_cons_ok, ih, hlen]
    constructor
    · rintro ⟨m, hm, n, hn, ht⟩
      exact ⟨n, ⟨m, hm, hn⟩, ht⟩
    · rintro ⟨n, ⟨m, hm, hn⟩, ht⟩
      exact ⟨m, hm, n, hn, ht⟩

end Runs

section Ghost

variable {ok : γ → α → Prop} {next : γ → α → γ} {g : γ} {as bs : List α}

theorem allowed_append : Allowed ok next g (as ++ bs) ↔
    Allowed ok next g as ∧ Allowed ok next (as.foldl next g) bs := by
  induction as generalizing g with
  | nil => simp [Allowed]
  | cons a as ih => simp only [List.cons_append, Allowed, ih, List.foldl_cons, and_assoc]

/-- Requests that are each allowed for a reason of their own too. -/
theorem Allowed.and {only : α → Prop} (h : Allowed ok next g as) (honly : ∀ a ∈ as, only a) :
    Allowed (fun g a => ok g a ∧ only a) next g as := by
  induction as generalizing g with
  | nil => trivial
  | cons a as ih =>
    exact ⟨⟨h.1, honly a List.mem_cons_self⟩,
      ih h.2 fun b hb => honly b (List.mem_cons_of_mem a hb)⟩

end Ghost

section Rules

variable {ok : γ → α → Prop} {next : γ → α → γ} {step : ℕ → α → σ → Option (Except ε σ)}
  {I : γ → σ → Prop}

/-- What the steps that go on keep holds at the end of a run that goes on to its end. It may
speak of the requests that have been met. -/
theorem runFrom_prefix_invariant {g : γ} {J : List α → σ → Prop}
    (hstep : ∀ pre i a s s', J pre s → ok (pre.foldl next g) a → step i a s = some (.ok s') →
      J (pre ++ [a]) s') :
    ∀ (as pre : List α) {i : ℕ} {s t : σ}, Allowed ok next (pre.foldl next g) as →
      J pre s → runFrom step i as s = some (.ok t) → J (pre ++ as) t := by
  intro as
  induction as with
  | nil =>
    intro pre i s t _ hJ hrun
    obtain rfl := Except.ok.inj (Option.some.inj hrun)
    rwa [List.append_nil]
  | cons a as ih =>
    intro pre i s t hall hJ hrun
    obtain ⟨m, hm, hrest⟩ := runFrom_cons_ok.mp hrun
    have hnext : (pre ++ [a]).foldl next g = next (pre.foldl next g) a := by
      rw [List.foldl_append, List.foldl_cons, List.foldl_nil]
    have hJ' := ih (pre ++ [a]) (by rw [hnext]; exact hall.2) (hstep pre i a s m hJ hall.1 hm) hrest
    rwa [List.append_assoc, List.singleton_append] at hJ'

theorem runFrom_invariant
    (hstep : ∀ g i a s s', I g s → ok g a → step i a s = some (.ok s') → I (next g a) s')
    {as : List α} {i : ℕ} {g : γ} {s t : σ} (hall : Allowed ok next g as) (hI : I g s)
    (hrun : runFrom step i as s = some (.ok t)) : I (as.foldl next g) t := by
  refine runFrom_prefix_invariant (J := fun pre s => I (pre.foldl next g) s)
    (fun pre i a s s' hI hok hrun => ?_) as [] hall hI hrun
  rw [List.foldl_append, List.foldl_cons, List.foldl_nil]
  exact hstep _ i a s s' hI hok hrun

/-- Where every step goes on or stops with a reason of some kind, so does the loop. -/
theorem runFrom_total {E : ℕ → α → ε → Prop}
    (hstep : ∀ g i a s, I g s → ok g a →
      (∃ s', step i a s = some (.ok s') ∧ I (next g a) s') ∨
        ∃ e, step i a s = some (.error e) ∧ E i a e) :
    ∀ (as : List α) {i : ℕ} {g : γ} {s : σ}, Allowed ok next g as → I g s →
      (∃ t, runFrom step i as s = some (.ok t) ∧ I (as.foldl next g) t) ∨
        ∃ pre a post e, as = pre ++ a :: post ∧ runFrom step i as s = some (.error e) ∧
          E (i + pre.length) a e := by
  intro as
  induction as with
  | nil => exact fun _ hI => Or.inl ⟨_, rfl, hI⟩
  | cons a as ih =>
    intro i g s hall hI
    rcases hstep g i a s hI hall.1 with ⟨s', hs', hI'⟩ | ⟨e, he, hE⟩
    · rw [runFrom_ok hs']
      rcases ih hall.2 hI' with ⟨t, ht, hIt⟩ | ⟨pre, b, post, e, rfl, hrun, hE⟩
      · exact Or.inl ⟨t, ht, hIt⟩
      · refine Or.inr ⟨a :: pre, b, post, e, rfl, hrun, ?_⟩
        rwa [List.length_cons, Nat.add_comm pre.length, ← Nat.add_assoc]
    · exact Or.inr ⟨[], a, as, e, rfl, runFrom_error he, hE⟩

/-- A loop that follows another one step by step goes on to its end where that one does. -/
theorem runFrom_related {step' : ℕ → α → τ → Option (Except δ τ)} {R : γ → σ → τ → Prop}
    (hstep : ∀ g i a s t s', R g s t → ok g a → step i a s = some (.ok s') →
      ∃ t', step' i a t = some (.ok t') ∧ R (next g a) s' t') :
    ∀ (as : List α) {i : ℕ} {g : γ} {s s' : σ} {t : τ}, Allowed ok next g as → R g s t →
      runFrom step i as s = some (.ok s') →
        ∃ t', runFrom step' i as t = some (.ok t') ∧ R (as.foldl next g) s' t' := by
  intro as
  induction as with
  | nil =>
    intro i g s s' t _ hR hrun
    obtain rfl := Except.ok.inj (Option.some.inj hrun)
    exact ⟨t, rfl, hR⟩
  | cons a as ih =>
    intro i g s s' t hall hR hrun
    obtain ⟨m, hm, hrest⟩ := runFrom_cons_ok.mp hrun
    obtain ⟨n, hn, hR'⟩ := hstep g i a s t m hR hall.1 hm
    rw [runFrom_ok hn]
    exact ih hall.2 hR' hrest

end Rules

end SystemSoftware.EarlyExit
