import SystemSoftware.StockTree
import SystemSoftware.Transitions

/-!
Threads inside `modify` of the thread-based stock server. The test for enough
stock is made before the node's mutex is taken, so that other threads may
change the count between the test and the update. Counts stay non-negative as
long as no count moves, in between, the way the waiting update will move it.
-/
namespace SystemSoftware.StockThreads

open StockTree Transitions

/-- The stock table and the mutex of the node that `find` meets for each id. -/
structure Stocks where
  root : Stock
  modifyMutex : Int32 → ℕ

def countOf (id : Int32) (root : Stock) : Option Int32 :=
  match find id root with
  | .null => none
  | .node _ count _ _ _ => some count

/-- Where a thread is in `modify(id,delta)`. From its test on, it keeps in mind
the count that it saw there. -/
inductive ModifyPc
  | find (id delta : Int32)
  | test (id delta : Int32)
  | wait (id delta seen : Int32)
  | read (id delta seen : Int32)
  | write (id delta count : Int32)
  | post (id : Int32)
  | done (st : Status)
  deriving DecidableEq

def ModifyPc.next (s : Stocks) : ModifyPc → Option (Stocks × ModifyPc)
  | .find id delta =>
    match countOf id s.root with
    | none => some (s, .done .error)
    | some _ => some (s, .test id delta)
  | .test id delta => do
    let count ← countOf id s.root
    if count + delta < 0 then some (s, .done .notenougherr)
    else some (s, .wait id delta count)
  | .wait id delta seen =>
    if 0 < s.modifyMutex id then
      some ({ s with modifyMutex := Function.update s.modifyMutex id (s.modifyMutex id - 1) },
        .read id delta seen)
    else none
  | .read id delta _ => do
    let count ← countOf id s.root
    some (s, .write id delta count)
  | .write id delta count =>
    some ({ s with root := setCount id (count + delta) s.root }, .post id)
  | .post id =>
    some ({ s with modifyMutex := Function.update s.modifyMutex id (s.modifyMutex id + 1) },
      .done .success)
  | .done _ => none

section Runs

variable {ι : Type} [DecidableEq ι]

structure State (ι : Type) where
  stocks : Stocks
  pc : ι → ModifyPc

inductive Action (ι : Type)
  | call (i : ι) (id delta : Int32)
  | step (i : ι)

def next (s : State ι) : Action ι → Option (State ι)
  | .call i id delta =>
    match s.pc i with
    | .done _ => some { s with pc := Function.update s.pc i (.find id delta) }
    | _ => none
  | .step i => do
    let (stocks, pc) ← (s.pc i).next s.stocks
    some ⟨stocks, Function.update s.pc i pc⟩

def Stocked (root : Stock) : Prop := ∀ r ∈ records root, 0 ≤ r.2.1

def Started (s : State ι) : Prop :=
  Stocked s.stocks.root ∧ (∀ id, s.stocks.modifyMutex id = 1) ∧ ∀ i, ∃ st, s.pc i = .done st

def runs : System (State ι) (Action ι) := System.ofNext Started next

/-- When a thread reads the count for its update, the count has not moved since
the thread's test the way the update will move it. -/
def notOvertaken (s : State ι) : Action ι → Bool
  | .call _ _ _ => true
  | .step i =>
    match s.pc i with
    | .read id delta seen =>
      match countOf id s.stocks.root with
      | none => true
      | some count => (delta < 0 → seen ≤ count) && (0 ≤ delta → count ≤ seen)
    | _ => true

end Runs

section Counts

variable {id count delta seen : Int32} {t : Stock}

/-- A count that `find` meets is the count of a record. -/
theorem mem_records_of_countOf (h : countOf id t = some count) : ∃ r ∈ records t, r.2.1 = count := by
  induction t with
  | null => cases h
  | node i c p left right ihl ihr =>
    unfold countOf find at h
    rw [records]
    by_cases hi : id = i
    · simp only [if_pos hi, Option.some.injEq] at h
      exact ⟨_, List.mem_cons_self, h⟩
    by_cases hlt : i < id
    · simp only [if_neg hi, if_pos hlt] at h
      obtain ⟨r, hr, hc⟩ := ihr h
      exact ⟨r, List.mem_cons_of_mem _ (List.mem_append_right _ hr), hc⟩
    · simp only [if_neg hi, if_neg hlt] at h
      obtain ⟨r, hr, hc⟩ := ihl h
      exact ⟨r, List.mem_cons_of_mem _ (List.mem_append_left _ hr), hc⟩

/-- Setting a count leaves the other records as they are. -/
theorem mem_records_setCount {r : Record} (h : r ∈ records (setCount id count t)) :
    r ∈ records t ∨ r.2.1 = count := by
  induction t with
  | null => exact Or.inl h
  | node i c p left right ihl ihr =>
    unfold setCount at h
    rw [records]
    split at h
    · rw [records] at h
      rcases List.mem_cons.mp h with rfl | h
      · exact Or.inr rfl
      · exact Or.inl (List.mem_cons_of_mem _ h)
    split at h
    all_goals
      rw [records] at h
      rcases List.mem_cons.mp h with rfl | h
      · exact Or.inl List.mem_cons_self
      rcases List.mem_append.mp h with h | h
    · exact Or.inl (List.mem_cons_of_mem _ (List.mem_append_left _ h))
    · exact (ihr h).imp_left fun h => List.mem_cons_of_mem _ (List.mem_append_right _ h)
    · exact (ihl h).imp_left fun h => List.mem_cons_of_mem _ (List.mem_append_left _ h)
    · exact Or.inl (List.mem_cons_of_mem _ (List.mem_append_right _ h))

/-- A sum that did not wrap at the test does not wrap at a count that has not
moved the same way. -/
theorem add_nonneg_of_seen (hseen : 0 ≤ seen) (htest : 0 ≤ seen + delta) (hcount : 0 ≤ count)
    (hdown : delta < 0 → seen ≤ count) (hup : 0 ≤ delta → count ≤ seen) : 0 ≤ count + delta := by
  have hzero : (0 : Int32).toInt = 0 := rfl
  simp only [Int32.le_iff_toInt_le, Int32.lt_iff_toInt_lt, Int32.toInt_add, hzero, Int.bmod] at *
  have h₁ := seen.toInt_lt
  have h₂ := count.toInt_lt
  have h₃ := delta.toInt_lt
  have h₄ := delta.le_toInt
  omega

end Counts

def Enough : ModifyPc → Prop
  | .wait _ delta seen | .read _ delta seen => 0 ≤ seen ∧ 0 ≤ seen + delta
  | .write _ delta count => 0 ≤ count + delta
  | _ => True

section Steps

variable {s s' : Stocks} {pc pc' : ModifyPc}

theorem nonneg_of_countOf {id count : Int32} {root : Stock} (hs : Stocked root)
    (h : countOf id root = some count) : 0 ≤ count := by
  obtain ⟨r, hr, rfl⟩ := mem_records_of_countOf h
  exact hs r hr

/-- One step of one thread. -/
theorem next_stocked (hs : Stocked s.root) (hpc : Enough pc)
    (hguard : ∀ id delta seen count, pc = .read id delta seen → countOf id s.root = some count →
      (delta < 0 → seen ≤ count) ∧ (0 ≤ delta → count ≤ seen))
    (h : pc.next s = some (s', pc')) : Stocked s'.root ∧ Enough pc' := by
  cases pc with
  | find id delta =>
    simp only [ModifyPc.next] at h
    split at h
    · obtain ⟨rfl, rfl⟩ := Prod.mk.inj (Option.some.inj h)
      exact ⟨hs, trivial⟩
    · obtain ⟨rfl, rfl⟩ := Prod.mk.inj (Option.some.inj h)
      exact ⟨hs, trivial⟩
  | test id delta =>
    obtain ⟨count, hcount, h⟩ := Option.bind_eq_some_iff.mp h
    have hnonneg := nonneg_of_countOf hs hcount
    by_cases hlt : count + delta < 0
    · rw [if_pos hlt] at h
      obtain ⟨rfl, rfl⟩ := Prod.mk.inj (Option.some.inj h)
      exact ⟨hs, trivial⟩
    · rw [if_neg hlt] at h
      obtain ⟨rfl, rfl⟩ := Prod.mk.inj (Option.some.inj h)
      exact ⟨hs, hnonneg, Int32.not_lt.mp hlt⟩
  | wait id delta seen =>
    simp only [ModifyPc.next] at h
    split at h
    · obtain ⟨rfl, rfl⟩ := Prod.mk.inj (Option.some.inj h)
      exact ⟨hs, hpc⟩
    · cases h
  | read id delta seen =>
    obtain ⟨count, hcount, h⟩ := Option.bind_eq_some_iff.mp h
    obtain ⟨rfl, rfl⟩ := Prod.mk.inj (Option.some.inj h)
    obtain ⟨hdown, hup⟩ := hguard id delta seen count rfl hcount
    exact ⟨hs, add_nonneg_of_seen hpc.1 hpc.2 (nonneg_of_countOf hs hcount) hdown hup⟩
  | write id delta count =>
    obtain ⟨rfl, rfl⟩ := Prod.mk.inj (Option.some.inj h)
    refine ⟨fun r hr => ?_, trivial⟩
    rcases mem_records_setCount hr with hr | hr
    · exact hs r hr
    · rw [hr]
      exact hpc
  | post id =>
    obtain ⟨rfl, rfl⟩ := Prod.mk.inj (Option.some.inj h)
    exact ⟨hs, trivial⟩
  | done st => cases h

end Steps

section Safety

variable {ι : Type} [DecidableEq ι]

/-- While no count is overtaken between a test and its update, no stock is sold
below zero. -/
theorem stocked_of_notOvertaken {s : State ι}
    (hs : (runs.guarded fun s a => notOvertaken s a = true).Reachable s) :
    Stocked s.stocks.root := by
  have hinv : Stocked s.stocks.root ∧ ∀ i, Enough (s.pc i) := by
    apply hs.invariant
    · intro t ht
      refine ⟨ht.1, fun i => ?_⟩
      obtain ⟨st, hst⟩ := ht.2.2 i
      rw [hst]
      trivial
    · rintro t a t' ⟨hstock, hpc⟩ ⟨hstep, hguard⟩
      have hother : ∀ (i : ι) (pc : ModifyPc), Enough pc →
          ∀ j, Enough (Function.update t.pc i pc j) := by
        intro i pc hi j
        by_cases hj : j = i
        · rw [hj, Function.update_self]
          exact hi
        · rw [Function.update_of_ne hj]
          exact hpc j
      cases a with
      | call i id delta =>
        simp only [runs, System.ofNext, next] at hstep
        split at hstep
        · obtain rfl := Option.some.inj hstep
          exact ⟨hstock, hother i _ trivial⟩
        · cases hstep
      | step i =>
        obtain ⟨⟨stocks, pc⟩, hnext, hstep⟩ := Option.bind_eq_some_iff.mp hstep
        obtain rfl := Option.some.inj hstep
        obtain ⟨hstock', hpc'⟩ := next_stocked hstock (hpc i) (by
          intro id delta seen count hat hcount
          simp only [notOvertaken, hat, hcount, Bool.and_eq_true, decide_eq_true_eq] at hguard
          exact hguard) hnext
        exact ⟨hstock', hother i pc hpc'⟩
  exact hinv.1

end Safety

def fiveLeft : State Bool := ⟨⟨.node 1 5 100 .null .null, fun _ => 1⟩, fun _ => .done .success⟩

theorem fiveLeft_started : Started fiveLeft := by
  refine ⟨fun r hr => ?_, fun _ => rfl, fun _ => ⟨_, rfl⟩⟩
  rw [List.mem_singleton.mp hr]
  decide

def oneByOne : List (Action Bool) :=
  .call true 1 (-3) :: List.replicate 6 (.step true) ++ [.call false 1 (-3), .step false, .step false]

def together : List (Action Bool) :=
  [.call true 1 (-3), .call false 1 (-3), .step true, .step false, .step true, .step false] ++
    List.replicate 4 (.step true) ++ List.replicate 4 (.step false)

theorem stocked_one_by_one : ∃ s, System.perform next (fun s a => notOvertaken s a = true)
    fiveLeft oneByOne = some s ∧ Stocked s.stocks.root := by
  have hsome : (System.perform next (fun s a => notOvertaken s a = true)
    fiveLeft oneByOne).isSome = true := by decide
  obtain ⟨s, hs⟩ := Option.isSome_iff_exists.mp hsome
  exact ⟨s, hs, stocked_of_notOvertaken (.perform (.initial fiveLeft_started) hs)⟩

theorem stocked_together : ∃ s : State Bool, runs.Reachable s ∧
    records s.stocks.root = [(1, -1, 100)] ∧ ¬ Stocked s.stocks.root := by
  have hrun : (System.perform next (fun _ _ => True) fiveLeft together).map
      (fun s => records s.stocks.root) = some [(1, -1, 100)] := by decide
  obtain ⟨s, hs, hrecords⟩ := Option.map_eq_some_iff.mp hrun
  have hstart : (runs.guarded fun _ _ => True).Reachable fiveLeft := .initial fiveLeft_started
  refine ⟨s, ?_, hrecords, ?_⟩
  · exact (hstart.perform hs).of_guarded
  · intro h
    rw [Stocked, hrecords] at h
    exact absurd (h _ List.mem_cons_self) (by decide)

end SystemSoftware.StockThreads
