import SystemSoftware.StockThreads
import SystemSoftware.ThreadTally

/-!
Worker threads of the thread-based stock server executing show, sell and buy.
A reader waits until no writer has announced itself and then counts itself; a
writer counts itself and then waits until no reader is counted. Between a
reader's test and its count a writer may get through, so that readers and
writers exclude each other as long as no reader counts itself while a writer is
past its test.
-/
namespace SystemSoftware.WorkerThreads

open StockTree StockThreads Transitions ThreadTally

inductive Request
  | show
  | sell (id n : Int32)
  | buy (id n : Int32)
  deriving DecidableEq

/-- `reader_n` with `reader_n_mutex`, or `writer_n` with `writer_n_mutex`. -/
structure Counter where
  n : ℤ
  mutex : ℕ
  deriving DecidableEq

/-- Where a thread is in `sem_wait(&mutex); n += d; sem_post(&mutex);`. -/
inductive CountPc
  | wait
  | count
  | post
  | done
  deriving DecidableEq

def CountPc.next (d : ℤ) (c : Counter) : CountPc → Option (Counter × CountPc)
  | .wait => if 0 < c.mutex then some ({ c with mutex := c.mutex - 1 }, .count) else none
  | .count => some ({ c with n := c.n + d }, .post)
  | .post => some ({ c with mutex := c.mutex + 1 }, .done)
  | .done => none

/-- Where a thread is. `showUp .done` stands before the call of `print_to_buf`,
`tradeUp .done` at the test of `reader_n`, and the `.done` of `showDown` and
`tradeDown` at the return. -/
inductive Pc
  | idle
  | showTest
  | showUp (c : CountPc)
  | printing
  | showDown (st : Status) (c : CountPc)
  | tradeUp (id delta : Int32) (c : CountPc)
  | tradeCall (id delta : Int32)
  | modifying (m : ModifyPc)
  | tradeDown (st : Status) (c : CountPc)
  deriving DecidableEq

structure Thread where
  pc : Pc
  todo : List Request
  returned : List Status
  deriving DecidableEq

structure Shared where
  reader : Counter
  writer : Counter
  stocks : Stocks

def Request.call : Request → Pc
  | .show => .showTest
  | .sell id n => .tradeUp id n .wait
  | .buy id n => .tradeUp id (-n) .wait

/-- One atomic step of a thread, if it is not blocked or finished. A test that
fails is repeated. -/
def Thread.next (s : Shared) (t : Thread) : Option (Shared × Thread) :=
  match t.pc with
  | .idle =>
    match t.todo with
    | [] => none
    | r :: todo => some (s, { t with pc := r.call, todo := todo })
  | .showTest => some (s, if s.writer.n ≠ 0 then t else { t with pc := .showUp .wait })
  | .showUp .done => some (s, { t with pc := .printing })
  | .showUp c => do
    let (reader, c) ← c.next 1 s.reader
    some ({ s with reader := reader }, { t with pc := .showUp c })
  | .printing =>
    let st := if s.stocks.root = .null then Status.error else .success
    some (s, { t with pc := .showDown st .wait })
  | .showDown st .done => some (s, ⟨.idle, t.todo, t.returned ++ [st]⟩)
  | .showDown st c => do
    let (reader, c) ← c.next (-1) s.reader
    some ({ s with reader := reader }, { t with pc := .showDown st c })
  | .tradeUp id delta .done =>
    some (s, if s.reader.n ≠ 0 then t else { t with pc := .tradeCall id delta })
  | .tradeUp id delta c => do
    let (writer, c) ← c.next 1 s.writer
    some ({ s with writer := writer }, { t with pc := .tradeUp id delta c })
  | .tradeCall id delta => some (s, { t with pc := .modifying (.find id delta) })
  | .modifying (.done st) => some (s, { t with pc := .tradeDown st .wait })
  | .modifying m => do
    let (stocks, m) ← m.next s.stocks
    some ({ s with stocks := stocks }, { t with pc := .modifying m })
  | .tradeDown st .done => some (s, ⟨.idle, t.todo, t.returned ++ [st]⟩)
  | .tradeDown st c => do
    let (writer, c) ← c.next (-1) s.writer
    some ({ s with writer := writer }, { t with pc := .tradeDown st c })

/-- The thread has counted itself in `reader_n` and not yet out of it. -/
def Reading (t : Thread) : Bool :=
  match t.pc with
  | .showUp c => c = .post || c = .done
  | .printing => true
  | .showDown _ c => c = .wait || c = .count
  | _ => false

/-- The thread has got through its test of `reader_n` and has not left `modify`. -/
def Writing (t : Thread) : Bool :=
  match t.pc with
  | .tradeCall _ _ | .modifying _ => true
  | _ => false

section Runs

variable {ι : Type} [Fintype ι] [DecidableEq ι]

structure State (ι : Type) where
  shared : Shared
  threads : ι → Thread

def next (s : State ι) (i : ι) : Option (State ι) := do
  let (shared, t) ← (s.threads i).next s.shared
  some ⟨shared, Function.update s.threads i t⟩

def Started (s : State ι) : Prop :=
  s.shared.reader = ⟨0, 1⟩ ∧ s.shared.writer = ⟨0, 1⟩ ∧
    (∀ id, s.shared.stocks.modifyMutex id = 1) ∧ ∀ i, (s.threads i).pc = .idle

def runs : System (State ι) ι := System.ofNext Started next

/-- No reader counts itself while a writer is past its test. -/
def notLate (s : State ι) (i : ι) : Bool :=
  (s.threads i).pc ≠ .showUp .count || ∀ j, Writing (s.threads j) = false

def Excluded (s : State ι) : Prop :=
  ∀ i j m, (s.threads i).pc = .printing → (s.threads j).pc ≠ .modifying m

end Runs

section Steps

variable {s s' : Shared} {t t' : Thread}

/-- What a step of `sem_wait(&mutex); n += d; sem_post(&mutex);` does. -/
theorem CountPc.next_cases {d : ℤ} {k k' : Counter} {c c' : CountPc}
    (h : c.next d k = some (k', c')) :
    (c = .wait ∧ c' = .count ∧ k'.n = k.n) ∨ (c = .count ∧ c' = .post ∧ k'.n = k.n + d) ∨
      (c = .post ∧ c' = .done ∧ k'.n = k.n) := by
  cases c with
  | wait =>
    simp only [CountPc.next] at h
    split at h
    · obtain ⟨rfl, rfl⟩ := Prod.mk.inj (Option.some.inj h)
      exact Or.inl ⟨rfl, rfl, rfl⟩
    · cases h
  | count =>
    obtain ⟨rfl, rfl⟩ := Prod.mk.inj (Option.some.inj h)
    exact Or.inr (Or.inl ⟨rfl, rfl, rfl⟩)
  | post =>
    obtain ⟨rfl, rfl⟩ := Prod.mk.inj (Option.some.inj h)
    exact Or.inr (Or.inr ⟨rfl, rfl, rfl⟩)
  | done => cases h

section Inversion

variable {c : CountPc} {todo : List Request} {returned : List Status} {st : Status}
  {id delta : Int32} {m : ModifyPc}

/-- A step of a thread that is counting itself is one of the counter, until it is done. -/
theorem next_showUp (h : Thread.next s ⟨.showUp c, todo, returned⟩ = some (s', t')) :
    (c = .done ∧ s' = s ∧ t' = ⟨.printing, todo, returned⟩) ∨
      ∃ k c', c.next 1 s.reader = some (k, c') ∧ s' = { s with reader := k } ∧
        t' = ⟨.showUp c', todo, returned⟩ := by
  cases c with
  | done =>
    obtain ⟨rfl, rfl⟩ := Prod.mk.inj (Option.some.inj h)
    exact Or.inl ⟨rfl, rfl, rfl⟩
  | wait | count | post =>
    simp only [Thread.next, Option.bind_eq_bind, Option.bind_eq_some_iff] at h
    obtain ⟨⟨k, c'⟩, hk, h⟩ := h
    obtain ⟨rfl, rfl⟩ := Prod.mk.inj (Option.some.inj h)
    exact Or.inr ⟨k, c', hk, rfl, rfl⟩

theorem next_showDown (h : Thread.next s ⟨.showDown st c, todo, returned⟩ = some (s', t')) :
    (c = .done ∧ s' = s ∧ t' = ⟨.idle, todo, returned ++ [st]⟩) ∨
      ∃ k c', c.next (-1) s.reader = some (k, c') ∧ s' = { s with reader := k } ∧
        t' = ⟨.showDown st c', todo, returned⟩ := by
  cases c with
  | done =>
    obtain ⟨rfl, rfl⟩ := Prod.mk.inj (Option.some.inj h)
    exact Or.inl ⟨rfl, rfl, rfl⟩
  | wait | count | post =>
    simp only [Thread.next, Option.bind_eq_bind, Option.bind_eq_some_iff] at h
    obtain ⟨⟨k, c'⟩, hk, h⟩ := h
    obtain ⟨rfl, rfl⟩ := Prod.mk.inj (Option.some.inj h)
    exact Or.inr ⟨k, c', hk, rfl, rfl⟩

/-- A writer that has counted itself tests `reader_n`. -/
theorem next_tradeUp (h : Thread.next s ⟨.tradeUp id delta c, todo, returned⟩ = some (s', t')) :
    (c = .done ∧ s' = s ∧ t' = if s.reader.n ≠ 0 then ⟨.tradeUp id delta .done, todo, returned⟩
        else ⟨.tradeCall id delta, todo, returned⟩) ∨
      ∃ k c', c.next 1 s.writer = some (k, c') ∧ s' = { s with writer := k } ∧
        t' = ⟨.tradeUp id delta c', todo, returned⟩ := by
  cases c with
  | done =>
    obtain ⟨rfl, rfl⟩ := Prod.mk.inj (Option.some.inj h)
    exact Or.inl ⟨rfl, rfl, rfl⟩
  | wait | count | post =>
    simp only [Thread.next, Option.bind_eq_bind, Option.bind_eq_some_iff] at h
    obtain ⟨⟨k, c'⟩, hk, h⟩ := h
    obtain ⟨rfl, rfl⟩ := Prod.mk.inj (Option.some.inj h)
    exact Or.inr ⟨k, c', hk, rfl, rfl⟩

theorem next_modifying (h : Thread.next s ⟨.modifying m, todo, returned⟩ = some (s', t')) :
    (∃ st, m = .done st ∧ s' = s ∧ t' = ⟨.tradeDown st .wait, todo, returned⟩) ∨
      ∃ stocks m', m.next s.stocks = some (stocks, m') ∧ s' = { s with stocks := stocks } ∧
        t' = ⟨.modifying m', todo, returned⟩ := by
  cases m with
  | done st =>
    obtain ⟨rfl, rfl⟩ := Prod.mk.inj (Option.some.inj h)
    exact Or.inl ⟨st, rfl, rfl, rfl⟩
  | _ =>
    simp only [Thread.next, Option.bind_eq_bind, Option.bind_eq_some_iff] at h
    obtain ⟨⟨stocks, m'⟩, hm, h⟩ := h
    obtain ⟨rfl, rfl⟩ := Prod.mk.inj (Option.some.inj h)
    exact Or.inr ⟨stocks, m', hm, rfl, rfl⟩

theorem next_tradeDown (h : Thread.next s ⟨.tradeDown st c, todo, returned⟩ = some (s', t')) :
    (c = .done ∧ s' = s ∧ t' = ⟨.idle, todo, returned ++ [st]⟩) ∨
      ∃ k c', c.next (-1) s.writer = some (k, c') ∧ s' = { s with writer := k } ∧
        t' = ⟨.tradeDown st c', todo, returned⟩ := by
  cases c with
  | done =>
    obtain ⟨rfl, rfl⟩ := Prod.mk.inj (Option.some.inj h)
    exact Or.inl ⟨rfl, rfl, rfl⟩
  | wait | count | post =>
    simp only [Thread.next, Option.bind_eq_bind, Option.bind_eq_some_iff] at h
    obtain ⟨⟨k, c'⟩, hk, h⟩ := h
    obtain ⟨rfl, rfl⟩ := Prod.mk.inj (Option.some.inj h)
    exact Or.inr ⟨k, c', hk, rfl, rfl⟩

end Inversion

/-- One step of one thread: `reader_n` follows the thread's own counting, a
thread starts to be counted only when it counts itself, and gets past its test
only when no reader is counted. -/
structure Effect (s : Shared) (t : Thread) (s' : Shared) (t' : Thread) : Prop where
  counted : s'.reader.n = s.reader.n + part (Reading · = true) t' - part (Reading · = true) t
  reading : Reading t' = true → Reading t = true ∨ t.pc = .showUp .count
  writing : Writing t' = true → Writing t = true ∨ s.reader.n = 0

theorem Effect.quiet (hn : s'.reader.n = s.reader.n) (hr : Reading t' = Reading t)
    (hw : Writing t' = true → Writing t = true ∨ s.reader.n = 0) : Effect s t s' t' := by
  refine ⟨?_, fun h => Or.inl (hr ▸ h), hw⟩
  rw [hn, part, part, hr]
  omega

/-- A reader's steps between its test and `print_to_buf`. -/
theorem showUp_effect {c : CountPc} {todo : List Request} {returned : List Status}
    (h : Thread.next s ⟨.showUp c, todo, returned⟩ = some (s', t')) :
    Effect s ⟨.showUp c, todo, returned⟩ s' t' := by
  obtain ⟨rfl, rfl, rfl⟩ | ⟨k, c', hk, rfl, rfl⟩ := next_showUp h
  · exact .quiet rfl rfl fun hw => Or.inl hw
  rcases CountPc.next_cases hk with ⟨rfl, rfl, hn⟩ | ⟨rfl, rfl, hn⟩ | ⟨rfl, rfl, hn⟩
  · exact .quiet hn rfl fun hw => Or.inl hw
  · exact ⟨by simpa [part, Reading] using hn, fun _ => Or.inr rfl, fun hw => Or.inl hw⟩
  · exact .quiet hn rfl fun hw => Or.inl hw

/-- A reader's steps between `print_to_buf` and its return. -/
theorem showDown_effect {st : Status} {c : CountPc} {todo : List Request} {returned : List Status}
    (h : Thread.next s ⟨.showDown st c, todo, returned⟩ = some (s', t')) :
    Effect s ⟨.showDown st c, todo, returned⟩ s' t' := by
  obtain ⟨rfl, rfl, rfl⟩ | ⟨k, c', hk, rfl, rfl⟩ := next_showDown h
  · exact .quiet rfl rfl fun hw => Or.inl hw
  rcases CountPc.next_cases hk with ⟨rfl, rfl, hn⟩ | ⟨rfl, rfl, hn⟩ | ⟨rfl, rfl, hn⟩
  · exact .quiet hn rfl fun hw => Or.inl hw
  · have hn' : k.n = s.reader.n - 1 := hn
    exact ⟨by simpa [part, Reading] using hn', fun _ => Or.inl rfl, fun hw => Or.inl hw⟩
  · exact .quiet hn rfl fun hw => Or.inl hw

theorem Thread.next_effect (h : t.next s = some (s', t')) : Effect s t s' t' := by
  obtain ⟨pc, todo, returned⟩ := t
  cases pc with
  | idle =>
    cases todo with
    | nil => cases h
    | cons r todo =>
      obtain ⟨rfl, rfl⟩ := Prod.mk.inj (Option.some.inj h)
      cases r <;> exact .quiet rfl rfl fun hw => Or.inl hw
  | showTest =>
    obtain ⟨rfl, rfl⟩ := Prod.mk.inj (Option.some.inj h)
    split
    · exact .quiet rfl rfl Or.inl
    · exact .quiet rfl rfl fun hw => Or.inl hw
  | showUp c => exact showUp_effect h
  | printing =>
    obtain ⟨rfl, rfl⟩ := Prod.mk.inj (Option.some.inj h)
    exact .quiet rfl rfl fun hw => Or.inl hw
  | showDown st c => exact showDown_effect h
  | tradeUp id delta c =>
    obtain ⟨rfl, rfl, rfl⟩ | ⟨k, c', -, rfl, rfl⟩ := next_tradeUp h
    · split
      · exact .quiet rfl rfl Or.inl
      · next hn => exact .quiet rfl rfl fun _ => Or.inr (not_not.mp hn)
    · exact .quiet rfl rfl fun hw => Or.inl hw
  | tradeCall id delta =>
    obtain ⟨rfl, rfl⟩ := Prod.mk.inj (Option.some.inj h)
    exact .quiet rfl rfl fun _ => Or.inl rfl
  | modifying m =>
    obtain ⟨st, rfl, rfl, rfl⟩ | ⟨stocks, m', -, rfl, rfl⟩ := next_modifying h
    · exact .quiet rfl rfl fun hw => Or.inl rfl
    · exact .quiet rfl rfl fun _ => Or.inl rfl
  | tradeDown st c =>
    obtain ⟨rfl, rfl, rfl⟩ | ⟨k, c', -, rfl, rfl⟩ := next_tradeDown h
    · exact .quiet rfl rfl fun hw => Or.inl hw
    · exact .quiet rfl rfl fun hw => Or.inl hw

end Steps

section Exclusion

variable {ι : Type} [Fintype ι] [DecidableEq ι]

/-- `reader_n` is the number of readers counted, and none is while a writer is
past its test. -/
structure Invariant (s : State ι) : Prop where
  counted : s.shared.reader.n = tally (Reading · = true) s.threads
  apart : ∀ i j, Reading (s.threads i) = true → Writing (s.threads j) = false

/-- A thread that is counted is not past a test of its own. -/
theorem writing_of_reading {t : Thread} (h : Reading t = true) : Writing t = false := by
  obtain ⟨pc, todo, returned⟩ := t
  cases pc <;> first | rfl | cases h

omit [DecidableEq ι] in
theorem invariant_started {s : State ι} (hs : Started s) : Invariant s := by
  have hidle : ∀ i, Reading (s.threads i) = false := by
    intro i
    rw [Reading, hs.2.2.2 i]
  refine ⟨?_, ?_⟩
  · rw [hs.1, tally_eq_zero]
    intro i
    rw [hidle i]
    exact Bool.false_ne_true
  · intro i j hi
    rw [hidle i] at hi
    cases hi

theorem invariant_next {s s' : State ι} {i : ι} (hs : Invariant s) (hlate : notLate s i = true)
    (h : next s i = some s') : Invariant s' := by
  obtain ⟨⟨shared, t⟩, hnext, h⟩ := Option.bind_eq_some_iff.mp h
  obtain rfl := Option.some.inj h
  obtain ⟨hcounted, hreading, hwriting⟩ := Thread.next_effect hnext
  refine ⟨?_, ?_⟩
  · rw [tally_update, hcounted, hs.counted]
  intro j k hj
  by_contra hk
  rw [Bool.not_eq_false] at hk
  dsimp only at hj hk
  have hreader : Reading (s.threads j) = true ∨ (j = i ∧ ∀ k, Writing (s.threads k) = false) := by
    by_cases hji : j = i
    · subst hji
      rw [Function.update_self] at hj
      refine (hreading hj).imp_right fun hpc => ⟨rfl, ?_⟩
      simpa [notLate, hpc] using hlate
    · rw [Function.update_of_ne hji] at hj
      exact Or.inl hj
  have hwriter : Writing (s.threads k) = true ∨ (k = i ∧ s.shared.reader.n = 0) := by
    by_cases hki : k = i
    · subst hki
      rw [Function.update_self] at hk
      exact (hwriting hk).imp_right fun hn => ⟨rfl, hn⟩
    · rw [Function.update_of_ne hki] at hk
      exact Or.inl hk
  rcases hreader with hreader | ⟨rfl, hnone⟩
  · rcases hwriter with hwriter | ⟨-, hn⟩
    · rw [hs.apart j k hreader] at hwriter
      cases hwriter
    · exact not_of_tally_eq_zero (hs.counted.symm.trans hn) j hreader
  · rcases hwriter with hwriter | ⟨rfl, -⟩
    · rw [hnone k] at hwriter
      cases hwriter
    · rw [Function.update_self] at hj hk
      rw [writing_of_reading hj] at hk
      cases hk

/-- Readers and writers exclude each other while no reader counts itself too late. -/
theorem excluded_of_notLate {s : State ι}
    (hs : (runs.guarded fun s i => notLate s i = true).Reachable s) : Excluded s := by
  have hinv : Invariant s := by
    apply hs.invariant
    · intro t ht
      exact invariant_started ht
    · rintro t i t' ht ⟨hstep, hlate⟩
      exact invariant_next ht hlate hstep
  intro i j m hi hj
  have hapart := hinv.apart i j (by rw [Reading, hi])
  rw [Writing, hj] at hapart
  cases hapart

end Exclusion

def twoClients : State Bool where
  shared := ⟨⟨0, 1⟩, ⟨0, 1⟩, ⟨.node 1 5 100 .null .null, fun _ => 1⟩⟩
  threads i := ⟨.idle, [if i then .show else .buy 1 3], []⟩

theorem twoClients_started : Started twoClients := ⟨rfl, rfl, fun _ => rfl, fun _ => rfl⟩

def readerFirst : List Bool := List.replicate 6 true ++ List.replicate 5 false

/-- The writer gets past its test between the test of the reader and its count. -/
def writerBetween : List Bool :=
  List.replicate 2 true ++ List.replicate 6 false ++ List.replicate 4 true

theorem excluded_reader_first : ∃ s, System.perform next (fun s i => notLate s i = true)
    twoClients readerFirst = some s ∧ Excluded s := by
  have hsome : (System.perform next (fun s i => notLate s i = true)
    twoClients readerFirst).isSome = true := by decide
  obtain ⟨s, hs⟩ := Option.isSome_iff_exists.mp hsome
  exact ⟨s, hs, excluded_of_notLate (.perform (.initial twoClients_started) hs)⟩

theorem excluded_writer_between : ∃ s : State Bool, runs.Reachable s ∧
    (s.threads true).pc = .printing ∧ (s.threads false).pc = .modifying (.find 1 (-3)) ∧
    ¬ Excluded s := by
  have hrun : (System.perform next (fun _ _ => True) twoClients writerBetween).map
      (fun s => ((s.threads true).pc, (s.threads false).pc)) =
    some (.printing, .modifying (.find 1 (-3))) := by decide
  obtain ⟨s, hs, hpcs⟩ := Option.map_eq_some_iff.mp hrun
  obtain ⟨hreader, hwriter⟩ := Prod.mk.inj hpcs
  have hstart : (runs.guarded fun _ _ => True).Reachable twoClients := .initial twoClients_started
  refine ⟨s, (hstart.perform hs).of_guarded, hreader, hwriter, ?_⟩
  intro h
  exact h true false _ hreader hwriter

end SystemSoftware.WorkerThreads
